import LyaLang.Emit.Monad

/-! # Drafts of code

The code of a construct as a list, before the strings it refers to have their places in the pool. Emitting
a construct appends its draft with each string replaced by its index; the index does not depend on what
is emitted later, since the pool only grows and a string keeps its first place.
-/

namespace LyaLang

/-- An instruction, with the string that its first operand is the pool index of. -/
structure Draft where
  instruction : Instruction
  text : Option Bytes := none

namespace Draft

/-- An operation without operands. -/
def op (op : Opcode) : Draft := ⟨{ op }, none⟩

/-- An operation with one operand. -/
def op1 (op : Opcode) (a : Int64) : Draft := ⟨{ op, a }, none⟩

/-- An operation with two operands. -/
def op2 (op : Opcode) (a b : Int64) : Draft := ⟨{ op, a, b }, none⟩

/-- A constant to load. -/
def load (k : Word) : Draft := ⟨{ op := .ldc, k }, none⟩

/-- An operation on a string of the pool. -/
def pooled (op : Opcode) (text : Bytes) (b : Int64 := 0) : Draft := ⟨{ op, b }, some text⟩

/-- A constant to load; text goes through the string pool. -/
def constant (k : Word) : Draft := if k.kind == .text then pooled .lsc k.text else load k

/-- The instruction of a draft under the places of strings. -/
def resolve (pool : Bytes → Int64) (d : Draft) : Instruction :=
  match d.text with
  | none => d.instruction
  | some s => { d.instruction with a := pool s }

end Draft

/-- The place of a string in a pool. -/
def placeOf? (strings : Array Bytes) (s : Bytes) : Option Nat := strings.findIdx? (· == s)

theorem placeOf?_append {strings more : Array Bytes} {s : Bytes} {i : Nat} (placed : placeOf? strings s = some i) :
    placeOf? (strings ++ more) s = some i := by
  rw [placeOf?, Array.findIdx?_append, ← placeOf?, placed, Option.some_or]

/-- The string at its place. -/
theorem getElem?_of_placeOf? {strings : Array Bytes} {s : Bytes} {i : Nat} (placed : placeOf? strings s = some i) :
    strings[i]? = some s := by
  obtain ⟨inside, same, _⟩ := Array.findIdx?_eq_some_iff_getElem.mp placed
  rw [Array.getElem?_eq_getElem inside, beq_iff_eq.mp same]

/-- A pool with a string in it: at its place, or after the others. -/
def withText (strings : Array Bytes) (s : Bytes) : Array Bytes :=
  if (placeOf? strings s).isSome then strings else strings.push s

/-- A pool with the strings of a draft in it, in their order. -/
def withTexts (strings : Array Bytes) (drafts : List Draft) : Array Bytes :=
  (drafts.filterMap Draft.text).foldl withText strings

theorem withTexts_append (strings : Array Bytes) (front back : List Draft) :
    withTexts strings (front ++ back) = withTexts (withTexts strings front) back := by
  rw [withTexts, withTexts, withTexts, List.filterMap_append, List.foldl_append]

theorem withText_eq_append (strings : Array Bytes) (s : Bytes) : ∃ more, withText strings s = strings ++ more := by
  unfold withText
  split
  · exact ⟨#[], by simp⟩
  · exact ⟨#[s], by simp⟩

/-- A pool only grows. -/
theorem withTexts_eq_append (strings : Array Bytes) (drafts : List Draft) :
    ∃ more, withTexts strings drafts = strings ++ more := by
  unfold withTexts
  induction drafts.filterMap Draft.text generalizing strings with
  | nil => exact ⟨#[], by simp⟩
  | cons s rest ih =>
    obtain ⟨first, added⟩ := withText_eq_append strings s
    obtain ⟨more, grown⟩ := ih (withText strings s)
    exact ⟨first ++ more, by rw [List.foldl_cons, grown, added, Array.append_assoc]⟩

/-- Places that agree with a pool. -/
def Agrees (pool : Bytes → Int64) (strings : Array Bytes) : Prop :=
  ∀ s i, placeOf? strings s = some i → pool s = Int64.ofNat i

/-- A state of emission grew into another by a draft. -/
structure EmitState.Grows (st st' : EmitState) (drafts : List Draft) : Prop where
  errors : st'.errors = st.errors
  strings : st'.code.strings = withTexts st.code.strings drafts
  texts : ∀ d ∈ drafts, ∀ s, d.text = some s → (placeOf? st'.code.strings s).isSome = true
  instructions : ∀ pool, Agrees pool st'.code.strings →
    st'.code.instructions.toList = st.code.instructions.toList ++ drafts.map (·.resolve pool)

variable {front back : List Draft}

theorem EmitState.Grows.trans {a b c : EmitState} (first : a.Grows b front)
    (second : b.Grows c back) : a.Grows c (front ++ back) := by
  obtain ⟨more, grown⟩ := withTexts_eq_append b.code.strings back
  have keeps : ∀ {s i}, placeOf? b.code.strings s = some i → placeOf? c.code.strings s = some i := by
    intro s i placed
    rw [second.strings, grown]
    exact placeOf?_append placed
  refine ⟨second.errors.trans first.errors, ?_, ?_, ?_⟩
  · rw [withTexts_append, ← first.strings, second.strings]
  · intro d member s isText
    rcases List.mem_append.mp member with inFront | inBack
    · obtain ⟨i, placed⟩ := Option.isSome_iff_exists.mp (first.texts d inFront s isText)
      rw [keeps placed]
      rfl
    · exact second.texts d inBack s isText
  · intro pool agrees
    have earlier : Agrees pool b.code.strings := fun s i placed => agrees s i (keeps placed)
    rw [second.instructions pool agrees, first.instructions pool earlier, List.map_append, List.append_assoc]

theorem EmitState.Grows.refl (st : EmitState) : st.Grows st [] :=
  ⟨rfl, rfl, by simp, by simp⟩

/-- An emission always succeeds with a result and appends a draft. -/
def Emits {α : Type} (x : Emit α) (a : α) (drafts : List Draft) : Prop :=
  ∀ st, ∃ st', x st = .ok (a, st') ∧ st.Grows st' drafts

open Emit

variable {drafts : List Draft}

namespace Emits

variable {α β : Type}

variable {a : α}

theorem pure (a : α) : Emits (pure a) a [] := fun st => ⟨st, rfl, .refl st⟩

theorem bind {x : Emit α} {f : α → Emit β} {b : β} (first : Emits x a front)
    (second : Emits (f a) b back) : Emits (x >>= f) b (front ++ back) := by
  intro st
  obtain ⟨st', ran, grows⟩ := first st
  obtain ⟨st'', ran', grows'⟩ := second st'
  refine ⟨st'', ?_, grows.trans grows'⟩
  change (x st >>= fun r => f r.1 r.2) = _
  rw [ran]
  exact ran'

/-- An emission for its effect, before another. -/
theorem andThen {x : Emit Unit} {y : Emit β} {b : β} (first : Emits x () front)
    (second : Emits y b back) : Emits (x >>= fun _ => y) b (front ++ back) := first.bind second

theorem one {i : Instruction} : Emits (instruction i) () [⟨i, none⟩] := by
  intro st
  refine ⟨_, rfl, rfl, rfl, by simp, fun pool _ => ?_⟩
  simp [Code.emitAt, Draft.resolve]

/-- One operation before others. -/
theorem step {i : Instruction} {x : Emit α} (rest : Emits x a drafts) :
    Emits (instruction i >>= fun _ => x) a (⟨i, none⟩ :: drafts) := one.andThen rest

theorem line {line : Nat} : Emits (atLine line) () [] := fun _ => ⟨_, rfl, rfl, rfl, by simp, by simp⟩

theorem atLine {line : Nat} {x : Emit α} (rest : Emits x a drafts) :
    Emits (atLine line >>= fun _ => x) a drafts := Emits.line.andThen rest

theorem draft_eq {x : Emit α} {drafts' : List Draft} (emits : Emits x a drafts)
    (same : drafts = drafts') : Emits x a drafts' := same ▸ emits

end Emits

namespace Emit

theorem required_emits {γ : Type} {crash : Crash} {x : Option γ} {a : γ} (found : x = some a) :
    Emits (required crash x) a [] := by
  subst found
  exact .pure a

/-- Adding a string places it, and leaves the others where they are. -/
theorem addString_spec (c : Code) (s : Bytes) :
    (c.addString s).1.instructions = c.instructions ∧ (c.addString s).1.strings = withText c.strings s ∧
      placeOf? (c.addString s).1.strings s = some (c.addString s).2 := by
  unfold Code.addString withText placeOf?
  cases found : c.strings.findIdx? (· == s) with
  | some i => exact ⟨rfl, rfl, found⟩
  | none =>
    refine ⟨rfl, rfl, ?_⟩
    change placeOf? (c.strings.push s) s = some c.strings.size
    rw [placeOf?, Array.findIdx?_push, found]
    simp

/-- An operation on a string: the string gets its place, and the operation its index. -/
theorem pooled_emits (s : Bytes) (make : Int64 → Instruction) {d : Draft} (isText : d.text = some s)
    (resolved : ∀ pool, d.resolve pool = make (pool s)) :
    Emits (do instruction (make (← pooled s))) () [d] := by
  intro st
  obtain ⟨same, grown, placed⟩ := addString_spec st.code s
  refine ⟨_, rfl, rfl, ?_, ?_, ?_⟩
  · rw [withTexts, List.filterMap_cons, isText]
    exact grown
  · intro d' member s' isText'
    obtain rfl := List.mem_singleton.mp member
    obtain rfl := Option.mem_unique isText isText'
    change (placeOf? (st.code.addString s).1.strings s).isSome = true
    rw [placed]
    rfl
  · intro pool agrees
    have index : pool s = Int64.ofNat (st.code.addString s).2 := agrees s _ placed
    simp only [List.map_singleton, resolved, index]
    change ((st.code.addString s).1.instructions.push _).toList = _
    rw [same, Array.toList_push]
    rfl

theorem constant_emits (k : Word) : Emits (constant k) () [.constant k] := by
  unfold constant Draft.constant
  split
  · exact pooled_emits k.text (fun a => { op := .lsc, a }) rfl fun _ => rfl
  · exact .one

end Emit

end LyaLang
