import Mathlib
import LyaLang.Machine.Program

/-! # Resolving labels

The label table of code lists the position of every label. It exists exactly if no label is defined twice,
and then the position of a label is that of its only definition. The labels of code check exactly if the
table exists and has the label of every jump.
-/

namespace LyaLang

variable {table : LabelTable} {l : Int64}

variable {k : Nat}

namespace LabelTable

/-- The labels of a table. -/
def keys (table : LabelTable) : List Int64 := table.map (·.1)

theorem get?_eq_none_iff : table.get? l = none ↔ l ∉ table.keys := by
  rw [get?, Option.map_eq_none_iff, List.find?_eq_none, keys, List.mem_map]
  exact ⟨fun none ⟨entry, member, same⟩ => none entry member (beq_iff_eq.mpr same),
    fun none entry member same => none ⟨entry, member, beq_iff_eq.mp same⟩⟩

theorem get?_of_mem (nodup : table.keys.Nodup) (member : (l, k) ∈ table) : table.get? l = some k := by
  induction table with
  | nil => cases member
  | cons entry rest ih =>
    obtain ⟨fresh, nodup⟩ := List.nodup_cons.mp nodup
    rcases List.mem_cons.mp member with rfl | member
    · simp [get?]
    · have known : l ∈ rest.map (·.1) := List.mem_map_of_mem member
      have other : entry.1 ≠ l := by
        rintro rfl
        exact fresh known
      rw [get?, List.find?_cons_of_neg (by simpa using other)]
      exact ih nodup member

theorem mem_of_get? (found : table.get? l = some k) : (l, k) ∈ table := by
  obtain ⟨⟨l', k'⟩, isEntry, rfl⟩ := Option.map_eq_some_iff.mp found
  have same : l' = l := by simpa using List.find?_some isEntry
  exact same ▸ List.mem_of_find?_eq_some isEntry

end LabelTable

namespace Instruction

/-- The label that an instruction defines. -/
def label? (i : Instruction) : Option Int64 := if i.op == .lbl then some i.a else none

theorem label?_eq_some_iff {i : Instruction} : i.label? = some l ↔ i.op = .lbl ∧ i.a = l := by
  simp [label?]

end Instruction

/-- The labels that instructions define from a position on, with their positions. -/
def labelTable : Nat → List Instruction → LabelTable
  | _, [] => []
  | position, i :: rest => (i.label?.toList.map (·, position)) ++ labelTable (position + 1) rest

theorem keys_labelTable (position : Nat) (is : List Instruction) :
    (labelTable position is).keys = is.filterMap Instruction.label? := by
  induction is generalizing position with
  | nil => rfl
  | cons i rest ih =>
    have rest := ih (position + 1)
    rw [LabelTable.keys] at rest
    rw [labelTable, LabelTable.keys, List.map_append, rest, List.filterMap_cons]
    cases i.label? <;> rfl

theorem mem_labelTable {position : Nat} {is : List Instruction} :
    (l, k) ∈ labelTable position is ↔ ∃ j i, is[j]? = some i ∧ i.op = .lbl ∧ i.a = l ∧ k = position + j := by
  induction is generalizing position with
  | nil => simp [labelTable]
  | cons first rest ih =>
    have here : (l, k) ∈ first.label?.toList.map (·, position) ↔ first.op = .lbl ∧ first.a = l ∧ k = position := by
      simp [Instruction.label?_eq_some_iff, and_assoc, eq_comm (a := k)]
    rw [labelTable, List.mem_append, here, ih]
    constructor
    · rintro (⟨isLabel, same, rfl⟩ | ⟨j, i, found, isLabel, same, rfl⟩)
      · exact ⟨0, first, rfl, isLabel, same, rfl⟩
      · exact ⟨j + 1, i, by simpa using found, isLabel, same, by omega⟩
    · rintro ⟨_ | j, i, found, isLabel, same, rfl⟩
      · obtain rfl : first = i := by simpa using found
        exact .inl ⟨isLabel, same, rfl⟩
      · exact .inr ⟨j, i, by simpa using found, isLabel, same, by omega⟩

namespace Code

/-- Collecting labels succeeds exactly if none occurs twice. -/
theorem labelsFrom_spec (is : List Instruction) (found : LabelTable) (position : Nat) (nodup : found.keys.Nodup) :
    ((found ++ labelTable position is).keys.Nodup →
      labelsFrom found position is = .ok (found ++ labelTable position is)) ∧
    (¬ (found ++ labelTable position is).keys.Nodup → ∃ d, labelsFrom found position is = .error d) := by
  induction is generalizing found position with
  | nil => simp [labelTable, labelsFrom, nodup]
  | cons i rest ih =>
    by_cases isLabel : i.op = .lbl
    · have label : i.label? = some i.a := Instruction.label?_eq_some_iff.mpr ⟨isLabel, rfl⟩
      have table : found ++ labelTable position (i :: rest) =
          (found ++ [(i.a, position)]) ++ labelTable (position + 1) rest := by simp [labelTable, label]
      rw [labelsFrom, table]
      simp only [isLabel, beq_self_eq_true, if_true]
      cases earlier : found.get? i.a with
      | none =>
        refine ih (found ++ [(i.a, position)]) (position + 1) ?_
        have fresh : i.a ∉ found.keys := LabelTable.get?_eq_none_iff.mp earlier
        rw [LabelTable.keys, List.map_append]
        exact List.nodup_append.mpr ⟨nodup, List.nodup_singleton _, by
          rintro l member l' single rfl
          have same : l = i.a := List.mem_singleton.mp single
          exact fresh (same ▸ member)⟩
      | some first =>
        have twice : ¬ ((found ++ [(i.a, position)]) ++ labelTable (position + 1) rest).keys.Nodup := by
          intro unique
          have known : i.a ∈ found.keys := List.mem_map_of_mem (LabelTable.mem_of_get? earlier)
          rw [LabelTable.keys, List.map_append, List.map_append] at unique
          have front := (List.nodup_append.mp unique).1
          exact (List.nodup_append.mp front).2.2 _ known _ (List.mem_singleton_self _) rfl
        exact ⟨fun unique => absurd unique twice, fun _ => ⟨_, rfl⟩⟩
    · have none : i.label? = none := by simp [Instruction.label?, isLabel]
      have table : labelTable position (i :: rest) = labelTable (position + 1) rest := by simp [labelTable, none]
      rw [labelsFrom, if_neg (by simpa using isLabel), table]
      exact ih found (position + 1) nodup

/-- The labels that a program defines, in their order. -/
def definitions (c : Code) : List Int64 := c.instructions.toList.filterMap Instruction.label?

theorem labels_spec (c : Code) :
    (c.definitions.Nodup → c.labels = .ok (labelTable 0 c.instructions.toList)) ∧
      (¬ c.definitions.Nodup → ∃ d, c.labels = .error d) := by
  have spec := labelsFrom_spec c.instructions.toList [] 0 List.nodup_nil
  rw [List.nil_append, keys_labelTable] at spec
  exact spec

theorem missingFrom_eq_nil_iff {position : Nat} {is : List Instruction} :
    missingFrom table position is = [] ↔ ∀ i ∈ is, i.op.isJump = true → i.a ∈ table.keys := by
  induction is generalizing position with
  | nil => simp [missingFrom]
  | cons i rest ih =>
    rw [missingFrom, List.forall_mem_cons, ← @ih (position + 1)]
    by_cases jumps : i.op.isJump = true
    · by_cases known : i.a ∈ table.keys
      · have isSome : (table.get? i.a).isNone = false := by
          rw [← Bool.not_eq_true, Option.isNone_iff_eq_none, LabelTable.get?_eq_none_iff]
          exact not_not_intro known
        simp [isSome, known]
      · have isNone : table.get? i.a = none := LabelTable.get?_eq_none_iff.mpr known
        simp [jumps, isNone, known]
    · simp [jumps]

/-- The labels of a program check exactly if none is defined twice and those of all jumps are defined. -/
theorem checkLabels_eq_ok_iff {c : Code} : c.checkLabels = .ok () ↔
    c.definitions.Nodup ∧ ∀ i ∈ c.instructions, i.op.isJump = true → i.a ∈ c.definitions := by
  by_cases nodup : c.definitions.Nodup
  · have resolved : missingFrom (labelTable 0 c.instructions.toList) 0 c.instructions.toList = [] ↔ _ :=
      missingFrom_eq_nil_iff
    rw [keys_labelTable] at resolved
    rw [checkLabels, c.labels_spec.1 nodup]
    simp only [nodup, true_and, ← Array.mem_toList_iff]
    cases missing : missingFrom (labelTable 0 c.instructions.toList) 0 c.instructions.toList with
    | nil => exact ⟨fun _ => resolved.mp missing, fun _ => rfl⟩
    | cons jump jumps =>
      refine ⟨fun fails => by simp at fails, fun known => ?_⟩
      rw [resolved.mpr known] at missing
      cases missing
  · obtain ⟨d, error⟩ := c.labels_spec.2 nodup
    rw [checkLabels, error]
    simp [nodup]

/-- The position of a label in a program whose labels check is that of its definition. -/
theorem get?_labels_iff {c : Code} (labels : c.labels = .ok table) :
    table.get? l = some k ↔ ∃ i, c.instructions[k]? = some i ∧ i.op = .lbl ∧ i.a = l := by
  have nodup : c.definitions.Nodup := by
    by_contra twice
    obtain ⟨d, error⟩ := c.labels_spec.2 twice
    rw [labels] at error
    cases error
  have same : table = labelTable 0 c.instructions.toList := by
    have ok := c.labels_spec.1 nodup
    rw [labels] at ok
    exact Except.ok.inj ok
  have keys : table.keys.Nodup := by rw [same, keys_labelTable]; exact nodup
  have entry : table.get? l = some k ↔ (l, k) ∈ table :=
    ⟨LabelTable.mem_of_get?, LabelTable.get?_of_mem keys⟩
  rw [entry, same, mem_labelTable]
  simp only [Array.getElem?_toList, Nat.zero_add]
  exact ⟨fun ⟨j, i, found, isLabel, sameLabel, isPlace⟩ => ⟨i, isPlace ▸ found, isLabel, sameLabel⟩,
    fun ⟨i, found, isLabel, sameLabel⟩ => ⟨k, i, found, isLabel, sameLabel, rfl⟩⟩

end Code

end LyaLang
