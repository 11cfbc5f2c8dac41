import LyaLang.Proofs.Emit.Draft
import LyaLang.Proofs.Machine.Stack

/-! # Running drafts

A run from one position of a program to another, over instructions that work above the stack of the machine at the
start. Runs are put together end to end; each instruction is one.
-/

namespace LyaLang

variable {l : Int64} {x : Instruction}

/-- The instruction of a draft stands at a position; an index of a string is that of the draft's. -/
def Draft.IsAt (d : Draft) (image : Image) (i : Nat) : Prop :=
  match d.text with
  | none => image.instructions[i]? = some d.instruction
  | some s => ∃ a, image.text? a = some s ∧ image.instructions[i]? = some { d.instruction with a }

namespace Image

/-- The instructions of drafts stand from a position on. -/
def Holds (image : Image) : Nat → List Draft → Prop
  | _, [] => True
  | i, d :: rest => d.IsAt image i ∧ image.Holds (i + 1) rest

theorem holds_append {image : Image} {i : Nat} {front back : List Draft} :
    image.Holds i (front ++ back) ↔ image.Holds i front ∧ image.Holds (i + front.length) back := by
  induction front generalizing i with
  | nil => simp [Holds]
  | cons d rest ih =>
    rw [List.cons_append, Holds, ih, Holds, and_assoc, List.length_cons, Nat.add_right_comm, Nat.add_assoc i]

/-- Positions are machine numbers, and a label is resolved to the position where it is defined. -/
structure Linked (image : Image) : Prop where
  size : image.instructions.size < 2 ^ 63
  labels : ∀ i x, image.instructions[i]? = some x → x.op = .lbl → image.labels.get? x.a = some i

end Image

/-- A run is neither canceled nor limited. -/
def Limits.Unlimited (limits : Limits) : Prop := ∀ steps, limits.stops steps = false

/-- What a run comes to: a position, with words above the stack, or a fault at a position. -/
inductive Fate where
  | arrives (position : Nat) (above : List Word)
  | fails (position : Nat) (fault : RuntimeFault)

namespace Machine

variable {image : Image} {limits : Limits} {m n : Machine} {i j k : Nat} {u vs ws : List Word} {fate : Fate}

/-- A machine that is at a fate. -/
def IsAt (image : Image) (limits : Limits) (m n : Machine) : Fate → Prop
  | .arrives j vs => n.pc = Int64.ofNat j ∧ m.Above vs n
  | .fails j f => (∃ vs, m.Above vs n) ∧ ∃ op n', n.stop image limits = (.failed ⟨Int64.ofNat j, op, f⟩, n')

/-- From a position, with some words above the stack of `m`, a run comes to a fate. -/
def Meets (image : Image) (limits : Limits) (m : Machine) (i : Nat) (u : List Word) (fate : Fate) : Prop :=
  ∀ n, n.pc = Int64.ofNat i → m.Above u n → ∃ k n', n.after image limits k = some n' ∧ m.IsAt image limits n' fate

/-- A machine that runs a program without limits. -/
structure Ready (image : Image) (limits : Limits) (m : Machine) : Prop where
  linked : image.Linked
  unlimited : limits.Unlimited
  sane : m.Sane

theorem after_trans {l : Nat} {n' : Machine} (first : n.after image limits k = some n') :
    n.after image limits (k + l) = n'.after image limits l := by
  induction k generalizing n with
  | zero =>
    cases first
    rw [Nat.zero_add]
  | succ k ih =>
    obtain ⟨next, isNext, first⟩ := Option.bind_eq_some_iff.mp first
    rw [Nat.add_right_comm, after, isNext]
    exact ih first

theorem fetch?_of_getElem? (ready : m.Ready image limits) (found : image.instructions[i]? = some x) (here : n.pc = Int64.ofNat i) : n.fetch? image limits = some x := by
  have size := ready.linked.size
  have inside := (Array.getElem?_eq_some_iff.mp found).1
  have place : (Int64.ofNat i).toInt = i := Int64.toInt_ofNat_of_lt (by omega)
  have stop : (Int64.ofNat image.instructions.size).toInt = image.instructions.size := Int64.toInt_ofNat_of_lt size
  have low : 0 ≤ Int64.ofNat i := by
    rw [Int64.le_iff_toInt_le, place]
    exact Int.natCast_nonneg i
  have plain := Int64.toInt_eq_toNatClampNeg low
  have same : (Int64.ofNat i).toNatClampNeg = i := by omega
  rw [fetch?_eq_some, here, same]
  refine ⟨?_, low, ready.unlimited _, found⟩
  rw [Int64.lt_iff_toInt_lt]
  omega

/-- The machine after an instruction that goes on at a position. -/
theorem after_one (ready : m.Ready image limits) (found : image.instructions[i]? = some x)
    (here : n.pc = Int64.ofNat i) {n' : Machine}
    (ran : Exec.step image (Int64.ofNat i) x n.tick = .ok (some (Int64.ofNat j)) n') :
    n.after image limits 1 = some { n' with pc := Int64.ofNat j } := by
  rw [after, next?, fetch?_of_getElem? ready found here]
  dsimp only
  rw [here, ran]
  rfl

theorem Above.tick (above : m.Above u n) : m.Above u n.tick :=
  ⟨⟨above.sane.low, above.sane.high, above.sane.fits⟩, above.size, above.held, above.display, above.input, above.output⟩

namespace Meets

theorem refl : Meets image limits m i u (.arrives i u) := fun n here above => ⟨0, n, rfl, here, above⟩

theorem trans (first : Meets image limits m i u (.arrives j vs)) (second : Meets image limits m j vs fate) :
    Meets image limits m i u fate := by
  intro n here above
  obtain ⟨k, n', ran, there, above'⟩ := first n here above
  obtain ⟨l, n'', ran', met⟩ := second n' there above'
  exact ⟨k + l, n'', (after_trans ran).trans ran', met⟩

variable (ready : m.Ready image limits)

include ready

/-- An instruction that goes on at a position. -/
theorem of_step (found : image.instructions[i]? = some x)
    (turns : Exec.Turns m (Exec.step image (Int64.ofNat i) x) u (some (Int64.ofNat j)) vs) :
    Meets image limits m i u (.arrives j vs) := by
  intro n here above
  obtain ⟨n', ran, above'⟩ := turns n.tick above.tick
  refine ⟨1, { n' with pc := Int64.ofNat j }, after_one ready found here ran, rfl, ?_⟩
  exact ⟨⟨above'.sane.low, above'.sane.high, above'.sane.fits⟩, above'.size, above'.held, above'.display, above'.input,
    above'.output⟩

/-- An instruction that goes on with the next one. -/
theorem of_plain (found : image.instructions[i]? = some x)
    (plain : Exec.step image (Int64.ofNat i) x = (do Exec.plain image x; return some (Int64.ofNat i + 1)))
    (turns : Exec.Turns m (Exec.plain image x) u () vs) : Meets image limits m i u (.arrives (i + 1) vs) := by
  refine of_step ready found ?_
  rw [plain, Int64.ofNat_add]
  exact turns.bind (.pure _)

/-- An instruction that stops at a fault. -/
theorem of_fault {f : RuntimeFault} (found : image.instructions[i]? = some x)
    (plain : Exec.step image (Int64.ofNat i) x = (do Exec.plain image x; return some (Int64.ofNat i + 1)))
    (faults : Exec.Faults m (Exec.plain image x) u f) : Meets image limits m i u (.fails i f) := by
  intro n here above
  have fetched := fetch?_of_getElem? ready found here
  obtain ⟨n', ran⟩ := faults n.tick above.tick
  refine ⟨0, n, rfl, ⟨u, above⟩, x.op, n', ?_⟩
  rw [stop_of_fetch fetched, here, plain, Exec.bind_run, ran]

theorem load (w : Word) (isAt : Draft.IsAt (.load w) image i) (free : u.length < m.room) :
    Meets image limits m i u (.arrives (i + 1) (w :: u)) := of_plain ready isAt rfl (.push free w)

theorem label (isAt : Draft.IsAt (.op1 .lbl l) image i) :
    Meets image limits m i u (.arrives (i + 1) u) := of_plain ready isAt rfl (.pure ())

theorem jump (isAt : Draft.IsAt (.op1 .jmp l) image i) (isLabel : Draft.IsAt (.op1 .lbl l) image j) :
    Meets image limits m i u (.arrives j u) :=
  of_step ready isAt ((Exec.Turns.labelTarget (ready.linked.labels j _ isLabel rfl)).bind (.pure _))

/-- A jump on false: the word on top decides whether it is taken. -/
theorem branch {w : Word} (isAt : Draft.IsAt (.op1 .jof l) image i)
    (isLabel : Draft.IsAt (.op1 .lbl l) image j) :
    Meets image limits m i (w :: u) (.arrives (if w.isTrue then i + 1 else j) u) := by
  refine of_step ready isAt (Exec.Turns.pop.bind ?_)
  cases taken : w.isTrue with
  | true =>
    simp only [if_true, Int64.ofNat_add]
    exact .pure _
  | false =>
    exact (Exec.Turns.labelTarget (ready.linked.labels j _ isLabel rfl)).bind (.pure _)

end Meets

end Machine

end LyaLang
