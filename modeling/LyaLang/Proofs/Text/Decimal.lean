import LyaLang.Text.Decimal
import LyaLang.Text.Utf8

/-! # Reading back numerals

The decimal numeral of a machine integer reads back as that integer.
-/

namespace LyaLang.Text

variable {c : Char}

theorem digit_code (digit : c.isDigit = true) : 48 ≤ c.toNat ∧ c.toNat ≤ 57 := by
  simp only [Char.isDigit, Bool.and_eq_true, decide_eq_true_eq, UInt32.le_iff_toNat_le] at digit
  exact digit

theorem digit_byte (digit : c.isDigit = true) : c.toNat.toUInt8.toNat = c.toNat := by
  have bounds := digit_code digit
  rw [UInt8.toNat_ofNat', Nat.mod_eq_of_lt (by omega)]

theorem digit?_byte (digit : c.isDigit = true) : digit? c.toNat.toUInt8 = some (c.toNat - 48) := by
  have bounds := digit_code digit
  have byte := digit_byte digit
  have within : (0x30 ≤ c.toNat.toUInt8 && c.toNat.toUInt8 ≤ 0x39) = true := by
    simp only [Bool.and_eq_true, decide_eq_true_eq, UInt8.le_iff_toNat_le, byte]
    exact bounds
  rw [digit?, if_pos within, byte]

theorem digitsValue?_digits (cs : List Char) (digits : ∀ c ∈ cs, c.isDigit = true) (value : Nat) :
    digitsValue? value (cs.map fun c => c.toNat.toUInt8) = some (Nat.ofDigitChars 10 cs value) := by
  induction cs generalizing value with
  | nil => rfl
  | cons c cs ih =>
    rw [List.map_cons, digitsValue?, digit?_byte (digits c List.mem_cons_self)]
    change digitsValue? (value * 10 + (c.toNat - 48)) _ = _
    rw [ih fun d mem => digits d (List.mem_cons_of_mem c mem), Nat.mul_comm value 10]
    rfl

theorem isDigit_toDigits {n : Nat} : ∀ c ∈ Nat.toDigits 10 n, c.isDigit = true :=
  fun _ mem => Nat.isDigit_of_mem_toDigits (by decide) (by decide) mem

theorem parseNat?_ofNat (n : Nat) : parseNat? (ofNat n) = some n := by
  have filled : (ofNat n).isEmpty = false := by
    rw [ofNat, List.isEmpty_map, List.isEmpty_eq_false_iff]
    exact Nat.toDigits_ne_nil
  rw [parseNat?, filled, if_neg Bool.false_ne_true, ofNat, digitsValue?_digits _ isDigit_toDigits,
    Nat.ofDigitChars_ten_toDigits]

/-- A numeral without a sign starts with a digit. -/
theorem parseInt?_ofNat (n : Nat) : parseInt? (ofNat n) = some (n : Int) := by
  have read := parseNat?_ofNat n
  have digits := @isDigit_toDigits n
  have filled : Nat.toDigits 10 n ≠ [] := Nat.toDigits_ne_nil
  unfold ofNat at read ⊢
  cases shape : Nat.toDigits 10 n with
  | nil => exact absurd shape filled
  | cons c cs =>
    rw [shape] at read digits
    have bounds := digit_code (digits c List.mem_cons_self)
    have byte := digit_byte (digits c List.mem_cons_self)
    rw [parseInt?, read]
    · rfl
    · intro rest minus
      have code := congrArg UInt8.toNat (List.cons.inj minus).1
      rw [byte] at code
      exact absurd code (by change c.toNat ≠ 45; omega)
    · intro rest plus
      have code := congrArg UInt8.toNat (List.cons.inj plus).1
      rw [byte] at code
      exact absurd code (by change c.toNat ≠ 43; omega)

theorem parseInt?_ofInt (i : Int) : parseInt? (ofInt i) = some i := by
  unfold ofInt
  split
  · rw [parseInt?, parseNat?_ofNat]
    change some (-(i.natAbs : Int)) = some i
    exact congrArg some (by omega)
  · rw [parseInt?_ofNat]
    exact congrArg some (by omega)

/-- Machine integers survive writing and reading. -/
theorem parseInt64?_ofInt64 (i : Int64) : parseInt64? (ofInt64 i) = some i := by
  have low := i.le_toInt
  have high := i.toInt_lt
  have fits : fitsInt64 i.toInt = true := by
    simp only [fitsInt64, Bool.and_eq_true, decide_eq_true_eq]
    omega
  rw [parseInt64?, ofInt64, parseInt?_ofInt]
  change (if fitsInt64 i.toInt = true then some (Int64.ofInt i.toInt) else none) = some i
  rw [if_pos fits, Int64.ofInt_toInt]

/-- A numeral without a sign is the text of its digits. -/
theorem ofNat_eq_encode (n : Nat) : ofNat n = encode (Nat.toDigits 10 n) := by
  have digits := @isDigit_toDigits n
  unfold ofNat encode
  generalize Nat.toDigits 10 n = cs at digits
  induction cs with
  | nil => rfl
  | cons c cs ih =>
    have bounds := digit_code (digits c List.mem_cons_self)
    have one : String.utf8EncodeChar c = [c.toNat.toUInt8] := by
      have small : c.val.toNat ≤ 127 := by change c.toNat ≤ 127; omega
      exact if_pos small
    rw [List.map_cons, List.flatMap_cons, one, ih fun d mem => digits d (List.mem_cons_of_mem c mem)]
    rfl

end LyaLang.Text
