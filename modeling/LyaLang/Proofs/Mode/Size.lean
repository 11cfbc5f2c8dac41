import Mathlib
import LyaLang.Proofs.Mode.Proper

/-! # Sizes of modes

The number of words of a mode, computed without a bound. The size that the language works with is this number in a
word: the two agree exactly if the number fits.
-/

namespace LyaLang.Mode

/-- The number of words that a variable of a mode takes, as an integer. -/
def exactSize : Mode → Int
  | int | bool | char | range _ _ _ | ref _ => 1
  | string => stringCapacity.toInt + 1
  | void => 0
  | chars length => length.toInt + 1
  | array lower upper elem => (upper.toInt - lower.toInt + 1) * elem.exactSize
  | named _ mode => mode.exactSize

/-- The size of a mode is its exact size, wrapped around. -/
theorem size_eq (m : Mode) : m.size = Int64.ofInt m.exactSize := by
  induction m with
  | string => decide
  | chars length => rw [exactSize, Int64.ofInt_add, Int64.ofInt_toInt]; rfl
  | array lower upper elem ih =>
    rw [size, exactSize, ih, Int64.ofInt_mul, Int64.ofInt_add, Int64.ofInt_sub, Int64.ofInt_toInt, Int64.ofInt_toInt]
    rfl
  | named _ mode ih => exact ih
  | _ => rfl

/-- The size of a mode is exact exactly if it fits in a word. -/
theorem toInt_size_eq_iff (m : Mode) : m.size.toInt = m.exactSize ↔ -2 ^ 63 ≤ m.exactSize ∧ m.exactSize < 2 ^ 63 := by
  constructor
  · intro same
    rw [← same]
    exact ⟨Int64.le_toInt _, Int64.toInt_lt _⟩
  · rintro ⟨low, high⟩
    rw [size_eq, Int64.toInt_ofInt_of_le low high]

/-- The modes whose lengths and index domains are not empty. -/
def Sized : Mode → Prop
  | chars length => 1 ≤ length
  | array lower upper elem => lower ≤ upper ∧ elem.Sized
  | named _ mode => mode.Sized
  | _ => True

theorem Sized.exactSize_nonneg {m : Mode} (sized : m.Sized) : 0 ≤ m.exactSize := by
  induction m with
  | chars length =>
    have long := Int64.le_iff_toInt_le.mp sized
    have one : (1 : Int64).toInt = 1 := by decide
    rw [exactSize]
    omega
  | array lower upper elem ih =>
    have ordered := Int64.le_iff_toInt_le.mp sized.1
    exact mul_nonneg (by omega) (ih sized.2)
  | named _ mode ih => exact ih sized
  | _ => exact Int.natCast_nonneg _

/-- A mode that takes words takes at least one. -/
theorem Sized.one_le_exactSize {m : Mode} (sized : m.Sized) (some : m.size ≠ 0) : 1 ≤ m.exactSize := by
  have nonneg := sized.exactSize_nonneg
  have positive : m.exactSize ≠ 0 := by
    intro none
    rw [size_eq, none] at some
    exact some rfl
  omega

theorem Sized.arrayOf {elem : Mode} (sized : elem.Sized) {indexes : List Mode}
    (ranges : ∀ m ∈ indexes, m.Proper ∧ m.isRange = true) : (elem.arrayOf indexes).Sized := by
  induction indexes with
  | nil => exact sized
  | cons index rest ih =>
    obtain ⟨⟨proper, range⟩, ranges⟩ := List.forall_mem_cons.mp ranges
    exact ⟨proper.lower_le_upper range, ih ranges⟩

end LyaLang.Mode
