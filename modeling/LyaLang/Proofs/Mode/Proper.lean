import LyaLang.Machine.Word
import LyaLang.Mode.Basic

/-! # Proper modes and their constants

A mode that a program can declare is proper: the bounds of its ranges and index domains are in order,
and its ranges are over types that have constants: scalars and strings.
-/

namespace LyaLang

variable {m : Mode} {t : ValueType}

namespace ValueType

/-- The types that have constants. -/
def IsBasic : ValueType → Prop
  | int | bool | char | string => True
  | _ => False

end ValueType

namespace Mode

/-- The modes that a declaration can describe. -/
def Proper : Mode → Prop
  | int | bool | char | string | void | chars _ => True
  | range base lower upper => base.Proper ∧ base.type.IsBasic ∧ lower ≤ upper
  | array lower upper elem => lower ≤ upper ∧ elem.Proper
  | ref target => target.Proper
  | named _ mode => mode.Proper

/-- An array mode has elements. -/
theorem Proper.elem_of_isArray (proper : m.Proper) (array : m.type.isArray = true) :
    ∃ elem, m.elem? = some elem ∧ elem.Proper ∧ m.type = .array elem.type := by
  induction m with
  | array lower upper elem _ => exact ⟨elem, rfl, proper.2, rfl⟩
  | named _ mode ih => exact ih proper array
  | range base lower upper _ =>
    have basic := proper.2.1
    change base.type.isArray = true at array
    revert basic array
    cases base.type <;> simp [ValueType.IsBasic, ValueType.isArray]
  | _ => simp [type, ValueType.isArray] at array

/-- A reference mode has a target. -/
theorem Proper.target_of_isReference (proper : m.Proper) (reference : m.type.isReference = true) :
    ∃ target, m.elem? = some target ∧ target.Proper ∧ m.type = .reference target.type := by
  induction m with
  | ref target _ => exact ⟨target, rfl, proper, rfl⟩
  | named _ mode ih => exact ih proper reference
  | range base lower upper _ =>
    have basic := proper.2.1
    change base.type.isReference = true at reference
    revert basic reference
    cases base.type <;> simp [ValueType.IsBasic, ValueType.isReference]
  | _ => simp [type, ValueType.isReference] at reference

theorem Proper.lower_le_upper (proper : m.Proper) (range : m.isRange = true) : m.lower ≤ m.upper := by
  induction m with
  | range base lower upper _ => exact proper.2.2
  | named _ mode ih => exact ih proper range
  | _ => simp [isRange] at range

theorem type_isKnown (m : Mode) : m.type.isKnown = true := by
  induction m with
  | range base _ _ ih => exact ih
  | named _ mode ih => exact ih
  | _ => rfl

/-- The predefined mode of a type with constants. -/
theorem ofScalar?_of_isBasic (basic : t.IsBasic) :
    ∃ m, ofScalar? t = some m ∧ m.Proper ∧ m.type = t := by
  cases t with
  | int => exact ⟨.int, rfl, trivial, rfl⟩
  | bool => exact ⟨.bool, rfl, trivial, rfl⟩
  | char => exact ⟨.char, rfl, trivial, rfl⟩
  | string => exact ⟨.string, rfl, trivial, rfl⟩
  | _ => exact basic.elim

/-- The mode of an array with the given index modes, the outermost first. -/
def arrayOf (elem : Mode) : List Mode → Mode
  | [] => elem
  | index :: rest => .array index.lower index.upper (arrayOf elem rest)

theorem Proper.arrayOf {elem : Mode} (proper : elem.Proper) {indexes : List Mode}
    (ranges : ∀ m ∈ indexes, m.Proper ∧ m.isRange = true) : (elem.arrayOf indexes).Proper := by
  induction indexes with
  | nil => exact proper
  | cons index rest ih =>
    obtain ⟨⟨properIndex, range⟩, ranges⟩ := List.forall_mem_cons.mp ranges
    exact ⟨properIndex.lower_le_upper range, ih ranges⟩

end Mode

/-- The words that are constants of a type. -/
def Word.Fits (k : Word) : ValueType → Prop
  | .int => ∃ n, k = .int n
  | .bool => ∃ b, k = .bool b
  | .char => ∃ c, k = .ofChar c
  | .string => ∃ t, k = .ofText t
  | _ => False

theorem Word.Fits.isBasic {k : Word} (fits : k.Fits t) : t.IsBasic := by
  cases t <;> trivial

theorem Word.Fits.kind_text_iff {k : Word} (fits : k.Fits t) : k.kind = .text ↔ t = .string := by
  cases t with
  | int | bool | char | string =>
    obtain ⟨_, rfl⟩ := fits
    simp [Word.int, Word.bool, Word.ofChar, Word.char, Word.ofText]
  | _ => exact fits.elim

end LyaLang
