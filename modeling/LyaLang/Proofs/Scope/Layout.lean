import LyaLang.Proofs.Number
import LyaLang.Proofs.Scope.Good
import LyaLang.Proofs.Tree.Labels

/-! # The layout of scopes

A ledger for every open scope says which words were given out in it, and which in the blocks in it that have been
left. In whatever order scopes are entered and left and words are given out, those given out in the open scopes of
a frame do not overlap, and all that were ever given out in a frame lie inside it. A scope that has been left
leaves nothing behind but the size of the frame.
-/

namespace LyaLang

/-- Words of a frame from an offset up to another. -/
structure Region where
  start : Int
  stop : Int

def Region.Apart (r q : Region) : Prop := r.stop ≤ q.start ∨ q.stop ≤ r.start

/-- What was given out in an open scope, and in the blocks in it that have been left. -/
structure Ledger where
  given : List Region := []
  closed : List Region := []

def Ledger.ever (l : Ledger) : List Region := l.given ++ l.closed

/-- One operation on the scopes. -/
inductive ScopeStep where
  | push (owner : Option Symbol)
  | pushBlock (owner : Option Symbol)
  | pop
  | declare (name : Bytes) (symbol : Symbol)
  | reserve (count : Int64)
  | declareAt (name : Bytes) (symbol : Symbol) (offset level : Int64)
  | declareRoot (name : Bytes) (symbol : Symbol)

namespace ScopeStep

def apply (e : Environment) : ScopeStep → Environment
  | push owner => e.push owner
  | pushBlock owner => e.pushBlock owner
  | pop => e.pop
  | declare name symbol => (e.declare name symbol).1
  | reserve count => (e.reserve count).1
  | declareAt name symbol offset level => (e.declareAt name symbol offset level).1
  | declareRoot name symbol => e.declareRoot name symbol

/-- The number of words that an operation gives out. -/
def words? : ScopeStep → Option Int64
  | declare _ symbol => if symbol.category.hasStorage then some symbol.size else none
  | reserve count => some count
  | _ => none

/-- The operation gives out no negative number of words, and the next offset after it is a machine number. -/
def Fits (e : Environment) (step : ScopeStep) : Prop :=
  ∀ count, step.words? = some count → 0 ≤ count ∧ e.inner.next.toInt + count.toInt < 2 ^ 63

/-- The ledgers after an operation. What was given out in a block that is left goes to the scope around it. -/
def record (e : Environment) (step : ScopeStep) (ledgers : List Ledger) : List Ledger :=
  match step, ledgers with
  | push _, ledgers | pushBlock _, ledgers => {} :: ledgers
  | pop, l :: l' :: rest =>
    if e.inner.opensFrame then l' :: rest else { l' with closed := l.ever ++ l'.closed } :: rest
  | step, l :: rest =>
    match step.words? with
    | none => l :: rest
    | some count =>
      { l with given := ⟨e.inner.next.toInt, e.inner.next.toInt + count.toInt⟩ :: l.given } :: rest
  | _, [] => []

end ScopeStep

/-- The scopes and ledgers that operations lead to, starting with the root alone. -/
inductive Reached : Environment → List Ledger → Prop
  | start : Reached {} [{}]
  | step {e : Environment} {ledgers : List Ledger} (reached : Reached e ledgers) (step : ScopeStep) (fits : step.Fits e) :
    Reached (step.apply e) (step.record e ledgers)

/-- The ledgers of the scopes of the first frame. -/
def inFrame : List Scope → List Ledger → List Ledger
  | s :: rest, l :: ledgers => l :: if s.opensFrame then [] else inFrame rest ledgers
  | _, _ => []

/-- The first frame among scopes: what was given out in its open scopes does not overlap and lies before the next
offset, and all that was ever given out in it lies inside it. -/
structure Laid (s : Scope) (rest : List Scope) (ledgers : List Ledger) : Prop where
  apart : ((inFrame (s :: rest) ledgers).flatMap Ledger.given).Pairwise Region.Apart
  within : ∀ r ∈ (inFrame (s :: rest) ledgers).flatMap Ledger.ever, 0 ≤ r.start ∧ r.stop ≤ (frameOf (s :: rest)).toInt
  before : ∀ r ∈ (inFrame (s :: rest) ledgers).flatMap Ledger.given, r.stop ≤ s.next.toInt
  nonneg : 0 ≤ s.next.toInt
  framed : 0 < (s :: rest).countP (·.opensFrame)
  level : s.level + 1 = Int64.ofNat ((s :: rest).countP (·.opensFrame))

/-- Every frame of the stack is laid out. -/
def LaidOut : List Scope → List Ledger → Prop
  | [], [] => True
  | s :: rest, l :: ledgers => Laid s rest (l :: ledgers) ∧ LaidOut rest ledgers
  | _, _ => False

/-! ## Growth -/

/-- A scope after names were declared in it or its frame has grown. -/
structure Scope.Grown (s t : Scope) : Prop where
  next : t.next = s.next
  opensFrame : t.opensFrame = s.opensFrame
  level : t.level = s.level
  highWater : s.highWater ≤ t.highWater

theorem Scope.Grown.refl (s : Scope) : s.Grown s := ⟨rfl, rfl, rfl, Int64.le_refl _⟩

theorem Scope.Grown.refl_all (scopes : List Scope) : List.Forall₂ Scope.Grown scopes scopes :=
  List.forall₂_same.mpr fun s _ => .refl s

theorem Raised.all_grown {a b : List Scope} (raised : Raised a b) : List.Forall₂ Scope.Grown a b := by
  induction raised with
  | nil => exact .nil
  | grown _ larger => exact .cons ⟨rfl, rfl, rfl, larger⟩ (Scope.Grown.refl_all _)
  | behind _ _ ih => exact .cons (.refl _) ih

theorem grown_insertLast (name : Bytes) (symbol : Symbol) (scopes : List Scope) :
    List.Forall₂ Scope.Grown scopes (Environment.insertLast name symbol scopes) := by
  fun_induction Environment.insertLast with
  | case1 => exact .nil
  | case2 s => exact .cons ⟨rfl, rfl, rfl, Int64.le_refl _⟩ .nil
  | case3 s rest _ ih => exact .cons (.refl s) ih

section

variable {a b : List Scope} (grown : List.Forall₂ Scope.Grown a b)

include grown

theorem inFrame_of_grown (ledgers : List Ledger) : inFrame b ledgers = inFrame a ledgers := by
  induction grown generalizing ledgers with
  | nil => rfl
  | cons first _ ih =>
    cases ledgers with
    | nil => rfl
    | cons l ledgers => rw [inFrame, inFrame, ih, first.opensFrame]

theorem countP_of_grown : b.countP (·.opensFrame) = a.countP (·.opensFrame) := by
  induction grown with
  | nil => rfl
  | cons first _ ih => rw [List.countP_cons, List.countP_cons, ih, first.opensFrame]

theorem frameOf_of_grown : frameOf a ≤ frameOf b := by
  induction grown with
  | nil => exact Int64.le_refl _
  | cons first _ ih =>
    rw [frameOf_cons, frameOf_cons, first.opensFrame]
    split
    · exact first.highWater
    · exact ih

theorem LaidOut.of_grown {ledgers : List Ledger} (laid : LaidOut a ledgers) : LaidOut b ledgers := by
  induction grown generalizing ledgers with
  | nil => exact laid
  | @cons s t rest rest' first others ih =>
    cases ledgers with
    | nil => exact laid
    | cons l ledgers =>
      obtain ⟨here, laid⟩ := laid
      have all := List.Forall₂.cons first others
      refine ⟨⟨?_, ?_, ?_, ?_, ?_, ?_⟩, ih laid⟩
      · exact inFrame_of_grown all _ ▸ here.apart
      · intro r member
        obtain ⟨low, high⟩ := here.within r (inFrame_of_grown all _ ▸ member)
        exact ⟨low, high.trans (Int64.le_iff_toInt_le.mp (frameOf_of_grown all))⟩
      · rw [inFrame_of_grown all, first.next]
        exact here.before
      · exact first.next ▸ here.nonneg
      · exact countP_of_grown all ▸ here.framed
      · rw [countP_of_grown all, first.level, here.level]

end

/-! ## Steps -/

variable {e : Environment} {ledgers : List Ledger}

theorem LaidOut.push (laid : LaidOut e.scopes ledgers) (owner : Option Symbol) :
    LaidOut (e.push owner).scopes ({} :: ledgers) := by
  cases ledgers with
  | nil => exact laid.elim
  | cons l ledgers =>
    refine ⟨⟨.nil, by rintro _ ⟨⟩, by rintro _ ⟨⟩, le_rfl, ?_, ?_⟩, laid⟩
    all_goals rw [List.countP_cons_of_pos rfl]
    · exact Nat.succ_pos _
    · exact (congrArg (· + 1) laid.1.level).trans (Int64.ofNat_add ..).symm

theorem LaidOut.pushBlock (laid : LaidOut e.scopes ledgers) (owner : Option Symbol) :
    LaidOut (e.pushBlock owner).scopes ({} :: ledgers) := by
  cases ledgers with
  | nil => exact laid.elim
  | cons l ledgers =>
    obtain ⟨here, rest⟩ := laid
    exact ⟨⟨here.apart, here.within, here.before, here.nonneg, here.framed, here.level⟩, here, rest⟩

theorem LaidOut.pop (laid : LaidOut e.scopes ledgers) : LaidOut e.pop.scopes (ScopeStep.pop.record e ledgers) := by
  obtain ⟨inner, outer⟩ := e
  match outer, ledgers with
  | [], [l] => exact laid
  | s :: rest, l :: l' :: ledgers =>
    obtain ⟨inside, here, laid⟩ := laid
    simp only [ScopeStep.record]
    split
    · exact ⟨here, laid⟩
    case isFalse block =>
      refine ⟨⟨here.apart, fun r member => ?_, here.before, here.nonneg, here.framed, here.level⟩, laid⟩
      have within := inside.within
      rw [frameOf_cons, if_neg block] at within
      refine within r ?_
      simp only [inFrame, if_neg block, List.flatMap_cons, List.mem_append, Ledger.ever] at member ⊢
      tauto

theorem LaidOut.reserve {l : Ledger} (laid : LaidOut e.scopes (l :: ledgers)) {count : Int64} (nonneg : 0 ≤ count)
    (fits : e.inner.next.toInt + count.toInt < 2 ^ 63) : LaidOut (e.reserve count).1.scopes
      ({ l with given := ⟨e.inner.next.toInt, e.inner.next.toInt + count.toInt⟩ :: l.given } :: ledgers) := by
  obtain ⟨here, laid⟩ := laid
  have low := here.nonneg
  have positive := toInt_nonneg nonneg
  have sum := toInt_add_of_fits (by omega) fits
  have raised := raised_raise (e.inner.next + count) ({ e.inner with next := e.inner.next + count } :: e.outer)
  have large := le_frameOf_raise (e.inner.next + count) (List.countP_pos_iff.mp
    (show 0 < (({ e.inner with next := e.inner.next + count }) :: e.outer).countP (·.opensFrame) from here.framed))
  rw [e.reserve_scopes]
  generalize Environment.raise _ _ = scopes at raised large
  have grown := raised.all_grown
  have larger := Int64.le_iff_toInt_le.mp (frameOf_of_grown grown)
  rw [frameOf_cons] at larger
  rw [Int64.le_iff_toInt_le, sum] at large
  have frames := countP_of_grown grown
  cases grown with
  | @cons _ t _ rest first others =>
    -- The new region stands before what was given out in the frame already, in every list of the ledgers.
    have ledgers_eq := inFrame_of_grown others ledgers
    have opens : t.opensFrame = e.inner.opensFrame := first.opensFrame
    have next : t.next.toInt = e.inner.next.toInt + count.toInt := (congrArg Int64.toInt first.next).trans sum
    refine ⟨⟨?_, ?_, ?_, by omega, frames ▸ here.framed, ?_⟩, laid.of_grown others⟩
    · rw [inFrame, opens, ledgers_eq]
      exact .cons (fun r member => .inr (here.before r member)) here.apart
    · rw [inFrame, opens, ledgers_eq]
      refine List.forall_mem_cons.mpr ⟨⟨low, large⟩, fun r member => ?_⟩
      obtain ⟨start, stop⟩ := here.within r member
      rw [frameOf_cons] at stop
      exact ⟨start, stop.trans larger⟩
    · rw [inFrame, opens, ledgers_eq]
      refine List.forall_mem_cons.mpr ⟨next.ge, fun r member => ?_⟩
      have := here.before r member
      omega
    · rw [frames, first.level]
      exact here.level

theorem LaidOut.declareAt (laid : LaidOut e.scopes ledgers) (name : Bytes) (symbol : Symbol) (offset level : Int64) :
    LaidOut (e.declareAt name symbol offset level).1.scopes ledgers := by
  refine laid.of_grown ?_
  exact .cons ⟨rfl, rfl, rfl, Int64.le_refl _⟩ (Scope.Grown.refl_all _)

theorem LaidOut.step {step : ScopeStep} (laid : LaidOut e.scopes ledgers) (fits : step.Fits e) :
    LaidOut (step.apply e).scopes (step.record e ledgers) := by
  cases ledgers with
  | nil => exact laid.elim
  | cons l ledgers =>
    cases step with
    | push owner => exact laid.push owner
    | pushBlock owner => exact laid.pushBlock owner
    | pop => exact laid.pop
    | reserve count =>
      obtain ⟨nonneg, fits⟩ := fits count rfl
      exact laid.reserve nonneg fits
    | declareAt name symbol offset level => exact laid.declareAt name symbol offset level
    | declareRoot name symbol =>
      refine laid.of_grown ?_
      have same := grown_insertLast name symbol e.scopes
      obtain ⟨inner, outer⟩ := e
      cases outer <;> exact same
    | declare name symbol =>
      simp only [ScopeStep.Fits, ScopeStep.words?] at fits
      simp only [ScopeStep.apply, Environment.declare, ScopeStep.record, ScopeStep.words?]
      split
      · obtain ⟨nonneg, fits⟩ := fits symbol.size (by rw [if_pos ‹_›])
        exact (laid.reserve nonneg fits).declareAt name symbol _ _
      · exact laid.declareAt name symbol _ _

theorem Reached.laidOut (reached : Reached e ledgers) : LaidOut e.scopes ledgers := by
  induction reached with
  | start => exact ⟨⟨.nil, by rintro _ ⟨⟩, by rintro _ ⟨⟩, le_rfl, Nat.one_pos, rfl⟩, trivial⟩
  | step _ _ fits ih => exact ih.step fits

/-- The display levels of the frames, the innermost first. -/
theorem LaidOut.levels {scopes : List Scope} (laid : LaidOut scopes ledgers) :
    (scopes.filter (·.opensFrame)).map (·.level) = (labelRun 0 (scopes.countP (·.opensFrame))).reverse := by
  induction scopes generalizing ledgers with
  | nil => rfl
  | cons s rest ih =>
    cases ledgers with
    | nil => exact laid.elim
    | cons l ledgers =>
      obtain ⟨here, laid⟩ := laid
      have level := here.level
      cases opens : s.opensFrame with
      | false =>
        have closed : ¬s.opensFrame = true := Bool.eq_false_iff.mp opens
        rw [List.filter_cons_of_neg closed, List.countP_cons_of_neg closed, ih laid]
      | true =>
        rw [List.countP_cons_of_pos opens, Int64.ofNat_add] at level
        rw [List.filter_cons_of_pos opens, List.countP_cons_of_pos opens, labelRun_add, List.map_cons, ih laid, (Int64.add_left_inj 1).mp level]
        simp [labelRun]

/-! ## Segments -/

/-- The operation enters a scope. -/
def ScopeStep.Enters : ScopeStep → Prop
  | push _ | pushBlock _ => True
  | _ => False

/-- Operations that leave every scope that they enter, and declare nothing in the root. -/
inductive Balanced : List ScopeStep → Prop
  | nil : Balanced []
  | declare (name : Bytes) (symbol : Symbol) {rest} : Balanced rest → Balanced (.declare name symbol :: rest)
  | reserve (count : Int64) {rest} : Balanced rest → Balanced (.reserve count :: rest)
  | declareAt (name : Bytes) (symbol : Symbol) (offset level : Int64) {rest} :
    Balanced rest → Balanced (.declareAt name symbol offset level :: rest)
  | nested {enter : ScopeStep} (enters : enter.Enters) {body rest} :
    Balanced body → Balanced rest → Balanced (enter :: body ++ .pop :: rest)

def Environment.run (e : Environment) (steps : List ScopeStep) : Environment := steps.foldl ScopeStep.apply e

theorem Environment.run_append (e : Environment) (front back : List ScopeStep) :
    e.run (front ++ back) = (e.run front).run back := List.foldl_append

/-- Leaving a scope restores the scopes around it, up to the size of the frame at hand. -/
theorem Environment.Extends.raised_pop {enter : ScopeStep} (enters : enter.Enters) {e' : Environment}
    (inside : (enter.apply e).Extends e') : Raised e.scopes e'.pop.scopes := by
  cases enter with
  | push owner => exact pop_of_push_extends inside ▸ Raised.refl _
  | pushBlock owner => exact (pop_of_pushBlock_extends inside).1
  | _ => exact enters.elim

theorem Balanced.extends_run {steps : List ScopeStep} (balanced : Balanced steps) (e : Environment) :
    e.Extends (e.run steps) := by
  induction balanced generalizing e with
  | nil => exact .refl e
  | declare name symbol _ ih =>
    refine .trans ?_ (ih _)
    simp only [ScopeStep.apply, Environment.declare]
    split
    · exact (e.reserve_extends _).trans (Environment.declareAt_extends ..)
    · exact Environment.declareAt_extends ..
  | reserve count _ ih => exact (e.reserve_extends count).trans (ih _)
  | declareAt name symbol offset level _ ih => exact (Environment.declareAt_extends ..).trans (ih _)
  | nested enters _ _ inside ih =>
    rw [Environment.run_append]
    exact (Environment.Extends.of_raised ((inside _).raised_pop enters)).1.trans (ih _)

theorem LaidOut.pops (laid : LaidOut e.scopes ledgers) {k : Nat} (inside : k < e.depth) :
    LaidOut (Environment.pop^[k] e).scopes (ledgers.drop k) := by
  induction k generalizing e ledgers with
  | zero => exact laid
  | succ k ih =>
    obtain ⟨inner, outer⟩ := e
    match outer, ledgers with
    | s :: rest, l :: ledgers => exact ih laid.2 (Nat.lt_of_succ_lt_succ inside)
    | [], _ => exact absurd (Nat.lt_of_succ_lt_succ inside) k.not_lt_zero

/-- However scopes are entered and left and words given out, as long as offsets are machine numbers: in each frame of
the stack the regions given out in its open scopes are apart, and all regions ever given out in it lie inside it;
the frames have different display levels; and a scope that is entered and left, with whatever is done in it short
of declaring in the root, leaves what names denote and the next offsets of all other scopes as they were. -/
theorem scopes_share_frames_soundly {e : Environment} {ledgers : List Ledger} (reached : Reached e ledgers) :
    (∀ k < e.depth, ((inFrame (Environment.pop^[k] e).scopes (ledgers.drop k)).flatMap Ledger.given).Pairwise Region.Apart ∧
      ∀ r ∈ (inFrame (Environment.pop^[k] e).scopes (ledgers.drop k)).flatMap Ledger.ever,
        0 ≤ r.start ∧ r.stop ≤ (Environment.pop^[k] e).frameSize.toInt) ∧
    ((e.scopes.countP (·.opensFrame)) ≤ 2 ^ 64 → ((e.scopes.filter (·.opensFrame)).map (·.level)).Nodup) ∧
    ∀ enter body, ScopeStep.Enters enter → Balanced body →
      (∀ name, (e.run (enter :: body ++ [.pop])).lookup? name = e.lookup? name) ∧
      (e.run (enter :: body ++ [.pop])).scopes.map (·.next) = e.scopes.map (·.next) := by
  have laid := reached.laidOut
  refine ⟨fun k inside => ?_, fun few => ?_, fun enter body enters balanced => ?_⟩
  · have here := laid.pops inside
    generalize ledgers.drop k = ledgers at here
    cases ledgers with
    | nil => exact here.elim
    | cons l ledgers =>
      have framed := List.countP_pos_iff.mp here.1.framed
      exact ⟨here.1.apart, Environment.frameSize_of_framed framed ▸ here.1.within⟩
  · rw [laid.levels, List.nodup_reverse]
    exact labelRun_nodup few
  · rw [Environment.run_append]
    have raised := (balanced.extends_run (enter.apply e)).raised_pop enters
    refine ⟨fun name => ?_, raised.map_eq fun _ _ => rfl⟩
    have found := raised.map_eq (f := fun s => s.find? name) fun _ _ => rfl
    have same := congrArg (List.findSome? id) found
    rwa [List.findSome?_map, List.findSome?_map] at same

/-- After a block in the root, the next offset is the one before it, and its words still lie inside the frame. -/
theorem left_block_lies_inside_frame : ∃ e ledgers, Reached e ledgers ∧ e.inner.next = 2 ∧ e.frameSize = 5 ∧
    ∀ r ∈ (inFrame e.scopes ledgers).flatMap Ledger.ever, 0 ≤ r.start ∧ r.stop ≤ 5 := by
  have first : Reached _ _ := Reached.start.step (.reserve 2) fun count isCount => by cases isCount; decide
  have inside := (first.step (.pushBlock none) fun _ none => by cases none).step (.reserve 3) fun count isCount => by
    cases isCount
    decide
  have reached := inside.step .pop fun _ none => by cases none
  exact ⟨_, _, reached, rfl, rfl, ((scopes_share_frames_soundly reached).1 0 (Nat.succ_pos _)).2⟩

end LyaLang
