import Mathlib
import LyaLang.Machine.Word

/-! # Machine numbers

Sums and differences of machine numbers are exact as long as they fit in a word; what does not fit wraps
around.
-/

namespace LyaLang

variable {a b : Int64}

theorem toInt_nonneg (nonneg : 0 ≤ a) : 0 ≤ a.toInt := by
  rw [Int64.le_iff_toInt_le] at nonneg
  exact nonneg

theorem toInt_add_of_fits (low : -2 ^ 63 ≤ a.toInt + b.toInt) (high : a.toInt + b.toInt < 2 ^ 63) :
    (a + b).toInt = a.toInt + b.toInt := by
  rw [Int64.toInt_add]
  exact Int.bmod_eq_of_le (by omega) (by omega)

theorem toInt_sub_of_fits (low : -2 ^ 63 ≤ a.toInt - b.toInt) (high : a.toInt - b.toInt < 2 ^ 63) :
    (a - b).toInt = a.toInt - b.toInt := by
  rw [Int64.toInt_sub]
  exact Int.bmod_eq_of_le (by omega) (by omega)

/-- Adding a number that is not negative makes a number smaller exactly if the sum does not fit. -/
theorem add_lt_self_iff (nonneg : 0 ≤ b) : a + b < a ↔ 2 ^ 63 ≤ a.toInt + b.toInt := by
  have nonneg' := toInt_nonneg nonneg
  have below' := Int64.toInt_lt b
  rw [Int64.lt_iff_toInt_lt, Int64.toInt_add, Int.bmod_eq_emod]
  split <;> omega

end LyaLang
