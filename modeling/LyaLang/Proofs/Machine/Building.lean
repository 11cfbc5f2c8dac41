import LyaLang.Proofs.Emit.Draft
import LyaLang.Proofs.Number

/-! # Building programs

Whatever is added to a program leaves what it has where it is: its instructions, their lines and the texts of
its pool. A step adds an instruction with its line, or a text that the pool does not have yet; appending a
program is a run of such steps in which every instruction goes on to refer to its text.
-/

namespace LyaLang

variable {i : Instruction} {n : Nat}

private theorem getElem?_of_isPrefix {α : Type} {xs ys : Array α} (front : xs.toList <+: ys.toList) {i : Nat} {x : α}
    (here : xs[i]? = some x) : ys[i]? = some x := by
  obtain ⟨inside, rfl⟩ := Array.getElem?_eq_some_iff.mp here
  rw [← Array.getElem?_toList]
  exact List.prefix_iff_getElem?.mp front i inside

private theorem clamp_of_toInt_eq {k : Int64} (exact' : k.toInt = n) : 0 ≤ k ∧ k.toNatClampNeg = n := by
  rw [Int64.le_iff_toInt_le, Int64.toNatClampNeg, exact']
  exact ⟨Int.natCast_nonneg n, rfl⟩

/-- The text of a pool that an instruction refers to. -/
def Instruction.usedText? (pool : Array Bytes) (i : Instruction) : Option Bytes :=
  if i.op.usesPool && 0 ≤ i.a then pool[i.a.toNatClampNeg]? else none

namespace Code

theorem lineOf_eq (c : Code) {k : Int64} (exact' : k.toInt = n) : c.lineOf k = c.lines.getD n 0 := by
  obtain ⟨nonneg, clamp⟩ := clamp_of_toInt_eq exact'
  rw [lineOf, if_neg (Int64.not_lt.mpr nonneg), clamp]

/-- An instruction stands at a position of a program, with a line unless that is below zero. -/
structure At (c : Code) (n : Nat) (i : Instruction) (line : Int64) : Prop where
  instruction : c.instructions[n]? = some i
  line : ∀ k : Int64, k.toInt = n → 0 ≤ line → c.lineOf k = line

/-- A program after more was added: what was there stays where it is, and the pool has got none but the given
texts, and none of them twice. -/
structure Extends (c c' : Code) (texts : List Bytes) : Prop where
  instructions : c.instructions.toList <+: c'.instructions.toList
  strings : c.strings.toList <+: c'.strings.toList
  added : ∀ s ∈ c'.strings, s ∈ c.strings ∨ s ∈ texts
  nodup : c.strings.toList.Nodup → c'.strings.toList.Nodup
  lines : c.lines.size ≤ c.instructions.size → c'.lines.size ≤ c'.instructions.size ∧
    ∀ k : Int64, k.toInt < c.instructions.size → c'.lineOf k = c.lineOf k

namespace Extends

variable {a b c : Code} {texts more : List Bytes}

theorem refl (c : Code) : c.Extends c texts :=
  ⟨List.prefix_rfl, List.prefix_rfl, fun _ => .inl, id, fun short => ⟨short, fun _ _ => rfl⟩⟩

theorem trans (first : a.Extends b texts) (second : b.Extends c more) : a.Extends c (texts ++ more) := by
  refine ⟨first.instructions.trans second.instructions, first.strings.trans second.strings, ?_,
    second.nodup ∘ first.nodup, ?_⟩
  · intro s member
    rcases second.added s member with old | new
    · exact (first.added s old).imp_right (List.mem_append_left _)
    · exact .inr (List.mem_append_right _ new)
  · intro short
    obtain ⟨short', same⟩ := first.lines short
    obtain ⟨short'', same'⟩ := second.lines short'
    have grown : a.instructions.size ≤ b.instructions.size := first.instructions.length_le
    exact ⟨short'', fun k inside => (same' k (by omega)).trans (same k inside)⟩

theorem at' (extended : a.Extends b texts) (short : a.lines.size ≤ a.instructions.size) {line : Int64} (here : a.At n i line) : b.At n i line := by
  obtain ⟨inside, -⟩ := Array.getElem?_eq_some_iff.mp here.instruction
  refine ⟨getElem?_of_isPrefix extended.instructions here.instruction, fun k isK nonneg => ?_⟩
  rw [(extended.lines short).2 k (by omega), here.line k isK nonneg]

end Extends

theorem addString_extends (c : Code) (s : Bytes) : c.Extends (c.addString s).1 [s] := by
  unfold addString
  cases found : c.strings.findIdx? (· == s) with
  | some i => exact .refl c
  | none =>
    have fresh : s ∉ c.strings.toList := by
      intro member
      have other := Array.findIdx?_eq_none_iff.mp found s (Array.mem_toList_iff.mp member)
      exact Bool.false_ne_true (other.symm.trans (beq_self_eq_true s))
    refine ⟨List.prefix_rfl, ?_, ?_, ?_, fun short => ⟨short, fun _ _ => rfl⟩⟩
    · exact ⟨[s], (Array.toList_push ..).symm⟩
    · intro t member
      exact (Array.mem_push.mp member).imp_right List.mem_singleton.mpr
    · intro distinct
      rw [Array.toList_push]
      exact List.nodup_append_comm.mp (List.nodup_cons.mpr ⟨fresh, distinct⟩)

/-- Lines that are filled up with zeros read as before. -/
private theorem padded (lines : Array Int64) {count : Nat} (short : lines.size ≤ count) :
    (lines ++ Array.replicate (count - lines.size) 0).size = count ∧
      ∀ i, (lines ++ Array.replicate (count - lines.size) 0).getD i 0 = lines.getD i 0 := by
  refine ⟨by simp; omega, fun i => ?_⟩
  simp only [Array.getD_eq_getD_getElem?, Array.getElem?_append, Array.getElem?_replicate]
  split
  · rfl
  · rw [Array.getElem?_eq_none (by omega)]
    split <;> rfl

/-- The lines after an instruction was emitted: those before it stay, and its own is there unless it is below zero. -/
private theorem emitAt_lines (c : Code) (i : Instruction) (line : Int64) (short : c.lines.size ≤ c.instructions.size) :
    (c.emitAt i line).lines.size ≤ c.instructions.size + 1 ∧
      (∀ j < c.instructions.size, (c.emitAt i line).lines.getD j 0 = c.lines.getD j 0) ∧
      (0 ≤ line → (c.emitAt i line).lines.getD c.instructions.size 0 = line) := by
  obtain ⟨size, same⟩ := padded c.lines short
  simp only [emitAt]
  generalize c.lines ++ Array.replicate (c.instructions.size - c.lines.size) 0 = full at size same
  split
  case isTrue =>
    refine ⟨(Array.size_push ..).trans_le (by omega), fun j inside => ?_, fun _ => ?_⟩
    · rw [← same j, Array.getD_eq_getD_getElem?, Array.getD_eq_getD_getElem?, Array.getElem?_push_lt (by omega),
        Array.getElem?_eq_getElem]
    · rw [← size, Array.getD_eq_getD_getElem?, Array.getElem?_push_size]
      rfl
  case isFalse none =>
    refine ⟨by omega, fun _ _ => rfl, fun nonneg => ?_⟩
    -- No line has been recorded yet, and this one is zero.
    simp only [Bool.or_eq_true, decide_eq_true_eq, not_or, Bool.not_eq_true, Bool.not_eq_false', Int64.not_lt,
      Array.isEmpty_iff] at none
    rw [none.2, Int64.le_antisymm none.1 nonneg]
    rfl

theorem emitAt_extends (c : Code) (i : Instruction) (line : Int64) : c.Extends (c.emitAt i line) [] := by
  refine ⟨⟨[i], (Array.toList_push ..).symm⟩, List.prefix_rfl, fun _ => .inl, id, fun short => ?_⟩
  obtain ⟨short', same, -⟩ := c.emitAt_lines i line short
  refine ⟨short'.trans_eq (Array.size_push ..).symm, fun k inside => ?_⟩
  by_cases below : k < 0
  · rw [lineOf, lineOf, if_pos below, if_pos below]
  · have exact' := Int64.toInt_eq_toNatClampNeg (Int64.not_lt.mp below)
    rw [lineOf_eq _ exact', lineOf_eq _ exact', same _ (by omega)]

theorem emitAt_at (c : Code) (i : Instruction) (line : Int64) (short : c.lines.size ≤ c.instructions.size) :
    (c.emitAt i line).At c.instructions.size i line := by
  refine ⟨Array.getElem?_push_size, fun k isK nonneg => ?_⟩
  rw [lineOf_eq _ isK, (c.emitAt_lines i line short).2.2 nonneg]

/-! ## Steps -/

/-- One step of building a program. -/
inductive Step where
  | text (s : Bytes)
  | instruction (i : Instruction)
  | instructionAt (i : Instruction) (line : Int64)

namespace Step

def apply (c : Code) : Step → Code
  | text s => (c.addString s).1
  | instruction i => c.emit i
  | instructionAt i line => c.emitAt i line

/-- The texts that a step may add. -/
def texts : Step → List Bytes
  | text s => [s]
  | _ => []

/-- The instruction that a step emits, with its line. -/
def emitted? : Step → Option (Instruction × Int64)
  | text _ => none
  | instruction i => some (i, 0)
  | instructionAt i line => some (i, line)

theorem apply_eq_emitAt {step : Step} {line : Int64} (emits : step.emitted? = some (i, line))
    (c : Code) : step.apply c = c.emitAt i line := by
  cases step <;> cases emits <;> rfl

theorem extends_apply (c : Code) (step : Step) : c.Extends (step.apply c) step.texts := by
  cases step with
  | text s => exact c.addString_extends s
  | instruction i => exact c.emitAt_extends i 0
  | instructionAt i line => exact c.emitAt_extends i line

end Step

/-- A program after steps. -/
def build (c : Code) (steps : List Step) : Code := steps.foldl Step.apply c

theorem extends_build (c : Code) (steps : List Step) : c.Extends (c.build steps) (steps.flatMap Step.texts) := by
  induction steps generalizing c with
  | nil => exact .refl c
  | cons step rest ih => exact (step.extends_apply c).trans (ih (step.apply c))

/-! ## Appending -/

/-- An instruction moved to another pool, where it refers to the same text. -/
structure Moved (pool pool' : Array Bytes) (i i' : Instruction) : Prop where
  same : i' = { i with a := i'.a }
  operand : i.op.usesPool = false → i' = i
  text : i'.usedText? pool' = i.usedText? pool

/-- Appending one instruction: its text gets its place, and the instruction its index. -/
private theorem appendFrom_cons (pool : Array Bytes) (c : Code) (line : Int64)
    (rest : List (Instruction × Int64)) (isPooled : i.op.usesPool = true → (i.usedText? pool).isSome = true) :
    ∃ i' before, appendFrom pool c ((i, line) :: rest) = appendFrom pool (before.emitAt i' line) rest ∧
      before.instructions = c.instructions ∧ c.Extends before (i.usedText? pool).toList ∧
      ∀ pool', before.strings.toList <+: pool'.toList → pool'.size < 2 ^ 63 → Moved pool pool' i i' := by
  cases uses : i.op.usesPool with
  | false =>
    refine ⟨i, c, by rw [appendFrom, uses]; rfl, rfl, .refl c, fun pool' _ _ => ⟨rfl, fun _ => rfl, ?_⟩⟩
    simp only [Instruction.usedText?, uses, Bool.false_and, Bool.false_eq_true, if_false]
  | true =>
    obtain ⟨s, isText⟩ := Option.isSome_iff_exists.mp (isPooled uses)
    have found := isText
    simp only [Instruction.usedText?, uses, Bool.true_and, decide_eq_true_eq] at found
    split at found
    case isFalse => cases found
    case isTrue nonneg =>
      obtain ⟨same, -, placed⟩ := Emit.addString_spec c s
      refine ⟨{ i with a := Int64.ofNat (c.addString s).2 }, (c.addString s).1, ?_, same, ?_, ?_⟩
      · rw [appendFrom, uses, if_pos rfl, if_neg (Int64.not_lt.mpr nonneg), found]
      · rw [isText]
        exact c.addString_extends s
      · intro pool' front fits
        have here := getElem?_of_isPrefix front (getElem?_of_placeOf? placed)
        obtain ⟨inside, -⟩ := Array.getElem?_eq_some_iff.mp here
        obtain ⟨nonneg', exact'⟩ := clamp_of_toInt_eq (Int64.toInt_ofNat_of_lt (inside.trans fits))
        refine ⟨rfl, fun none => absurd (uses.symm.trans none) Bool.true_eq_false.mp, ?_⟩
        rw [isText]
        simp only [Instruction.usedText?, uses, nonneg', exact', here, Bool.true_and, decide_true, if_true]

/-- Appending instructions whose pool operands lie in their pool. -/
theorem extends_appendFrom (pool : Array Bytes) {items : List (Instruction × Int64)} (c : Code)
    (pooled : ∀ item ∈ items, item.1.op.usesPool = true → (item.1.usedText? pool).isSome = true) :
    (appendFrom pool c items).2 = true ∧
      c.Extends (appendFrom pool c items).1 (items.flatMap fun item => (item.1.usedText? pool).toList) ∧
      (appendFrom pool c items).1.instructions.size = c.instructions.size + items.length ∧
      ((appendFrom pool c items).1.strings.size < 2 ^ 63 → c.lines.size ≤ c.instructions.size →
        ∀ j item, items[j]? = some item → ∃ i', (appendFrom pool c items).1.At (c.instructions.size + j) i' item.2 ∧
          Moved pool (appendFrom pool c items).1.strings item.1 i') := by
  induction items generalizing c with
  | nil => exact ⟨rfl, .refl c, rfl, fun _ _ j item here => by cases here⟩
  | cons item rest ih =>
    obtain ⟨i, line⟩ := item
    obtain ⟨isPooled, pooled⟩ := List.forall_mem_cons.mp pooled
    obtain ⟨i', before, step, same, grown, moved⟩ := appendFrom_cons pool c line rest isPooled
    obtain ⟨all, extended, count, placed⟩ := ih (before.emitAt i' line) pooled
    have emitted := before.emitAt_extends i' line
    have size : (before.emitAt i' line).instructions.size = c.instructions.size + 1 := by
      rw [emitAt, Array.size_push, same]
    rw [step]
    refine ⟨all, ?_, ?_, fun fits short j item here => ?_⟩
    · have texts := (grown.trans emitted).trans extended
      rwa [List.append_nil] at texts
    · rw [count, size, List.length_cons, Nat.add_right_comm, Nat.add_assoc]
    · have short' := ((grown.trans emitted).lines short).1
      cases j with
      | zero =>
        obtain rfl := Option.some.inj here
        refine ⟨i', extended.at' short' ?_, moved _ (emitted.strings.trans extended.strings) fits⟩
        rw [← same]
        exact before.emitAt_at i' line (grown.lines short).1
      | succ j =>
        have found := placed fits short' j item here
        rwa [size, Nat.add_right_comm] at found

/-- The instructions of a program with their lines, in the order in which they are appended. -/
private theorem getElem?_zip_lines {q : Code} {j : Nat} (here : q.instructions[j]? = some i) :
    (q.instructions.toList.zip ((List.range q.instructions.size).map fun i => q.lineOf (Int64.ofNat i)))[j]? =
      some (i, q.lineOf (Int64.ofNat j)) := by
  obtain ⟨inside, rfl⟩ := Array.getElem?_eq_some_iff.mp here
  simp [inside]

/-- Building keeps what programs mean. Appending a program leaves the instructions, lines and texts that are there;
behind them stand its own with their lines, each referring to the text it referred to, and the pool gets only
texts that they use. The same holds of every sequence of steps: an instruction keeps its place and the line that
it was emitted with, and the index of a text goes on to denote it. -/
theorem building_keeps_meaning :
    (∀ p q : Code, p.lines.size ≤ p.instructions.size →
      (∀ i ∈ q.instructions, i.op.usesPool = true → (i.usedText? q.strings).isSome = true) →
      (∀ line ∈ q.lines, 0 ≤ line) → (p.append q).1.strings.size < 2 ^ 63 →
      (p.append q).2 = true ∧
      p.Extends (p.append q).1 (q.instructions.toList.flatMap fun i => (i.usedText? q.strings).toList) ∧
      (p.append q).1.instructions.size = p.instructions.size + q.instructions.size ∧
      ∀ (j : Nat) (i : Instruction), q.instructions[j]? = some i → ∃ i',
        (p.append q).1.instructions[p.instructions.size + j]? = some i' ∧
        Moved q.strings (p.append q).1.strings i i' ∧
        ∀ k l : Int64, k.toInt = p.instructions.size + j → l.toInt = j → (p.append q).1.lineOf k = q.lineOf l) ∧
    ∀ (c : Code) (steps : List Step), c.lines.size ≤ c.instructions.size →
      c.Extends (c.build steps) (steps.flatMap Step.texts) ∧
      ∀ front step back, steps = front ++ step :: back →
        (∀ s, step = .text s → (c.build steps).strings[((c.build front).addString s).2]? = some s) ∧
        ∀ i line, step.emitted? = some (i, line) → (c.build steps).At (c.build front).instructions.size i line := by
  refine ⟨fun p q short pooled nonneg fits => ?_, fun c steps short => ⟨c.extends_build steps, ?_⟩⟩
  · let items := q.instructions.toList.zip ((List.range q.instructions.size).map fun i => q.lineOf (Int64.ofNat i))
    have firsts : items.map Prod.fst = q.instructions.toList := List.map_fst_zip (by simp)
    have isPooled : ∀ item ∈ items, item.1.op.usesPool = true → (item.1.usedText? q.strings).isSome = true := by
      intro item member
      exact pooled item.1 (Array.mem_toList_iff.mp (firsts ▸ List.mem_map_of_mem member))
    obtain ⟨all, extended, count, placed⟩ := extends_appendFrom q.strings p isPooled
    refine ⟨all, ?_, ?_, fun j i here => ?_⟩
    · rw [← firsts, List.flatMap_map]
      exact extended
    · rw [append, count, ← List.length_map, firsts, Array.length_toList]
    · obtain ⟨i', found, moved⟩ := placed fits short j _ (getElem?_zip_lines here)
      refine ⟨i', found.instruction, moved, fun k l isK isL => ?_⟩
      have same : Int64.ofNat j = l := by
        rw [← Int64.toInt_inj, isL, Int64.toInt_ofNat_of_lt]
        have := l.toInt_lt
        omega
      rw [← same] at isL ⊢
      refine found.line k isK ?_
      rw [lineOf_eq q isL, Array.getD_eq_getD_getElem?]
      cases at' : q.lines[j]? with
      | none => exact Int64.le_refl 0
      | some line => exact nonneg line (Array.mem_of_getElem? at')
  · rintro front step back rfl
    have before := ((c.extends_build front).lines short).1
    have split : c.build (front ++ step :: back) = (step.apply (c.build front)).build back := List.foldl_append
    have rest := (step.apply (c.build front)).extends_build back
    rw [split]
    refine ⟨?_, fun i line emits => ?_⟩
    · rintro s rfl
      exact getElem?_of_isPrefix rest.strings (getElem?_of_placeOf? (Emit.addString_spec _ s).2.2)
    · refine rest.at' ((step.extends_apply _).lines before).1 ?_
      rw [Step.apply_eq_emitAt emits]
      exact (c.build front).emitAt_at i line before

/-- A program that prints two texts, appended to one that has the second: it goes on to print it. -/
theorem appended_print_refers_to_text : ∃ r i',
    append ⟨#[{ op := .prc }], #[[98]], #[]⟩ ⟨#[{ op := .prc }, { op := .prc, a := 1 }], #[[97], [98]], #[3, 4]⟩ = r ∧
      r.1.instructions[2]? = some i' ∧ i'.usedText? r.1.strings = some [98] := by
  obtain ⟨-, -, -, each⟩ := building_keeps_meaning.1 ⟨#[{ op := .prc }], #[[98]], #[]⟩
    ⟨#[{ op := .prc }, { op := .prc, a := 1 }], #[[97], [98]], #[3, 4]⟩ (by decide) (by decide +kernel) (by simp)
    (by decide +kernel)
  obtain ⟨i', found, moved, -⟩ := each 1 _ rfl
  exact ⟨_, i', rfl, found, moved.text.trans (by decide +kernel)⟩

end Code

end LyaLang
