import LyaLang.Proofs.Text.Utf8

/-! # Lower case of lower case

No row of the case mapping covers a code point that a row maps to, so a text in lower case stays as it is.
-/

namespace LyaLang.Text

namespace CaseRow

/-- The least code point that a row maps to. -/
def low (row : CaseRow) : Nat := Int.toNat (row.first + row.shift)

/-- The greatest code point that a row maps to. -/
def high (row : CaseRow) : Nat := Int.toNat (row.last + row.shift)

/-- The second row covers nothing that the first one maps to: it lies apart, or it covers every other code point
and the first one maps to those between. -/
def clears (row other : CaseRow) : Bool :=
  row.high < other.first || other.last < row.low ||
    ((row.stride == 2 || row.first == row.last) && other.stride == 2 && other.first ≤ row.low &&
      (row.low - other.first) % 2 == 1)

theorem image?_of_clears {row other : CaseRow} {code image : Nat} (apart : row.clears other = true)
    (_positive : 0 ≤ row.first + row.shift) (maps : row.image? code = some image) : other.image? image = none := by
  obtain ⟨covered, moved⟩ := Option.ite_none_right_eq_some.mp maps
  obtain rfl : Int.toNat (code + row.shift) = image := Option.some.inj moved
  simp only [Bool.and_eq_true, decide_eq_true_eq, beq_iff_eq] at covered
  simp only [clears, Bool.or_eq_true, Bool.and_eq_true, decide_eq_true_eq, beq_iff_eq] at apart
  unfold low high at apart
  refine if_neg fun covers => ?_
  simp only [Bool.and_eq_true, decide_eq_true_eq, beq_iff_eq] at covers
  rcases apart with (below | above) | ⟨⟨⟨regular, stride⟩, inside⟩, odd⟩
  · omega
  · omega
  · rw [stride] at covers
    rcases regular with stride | single
    · rw [stride] at covered
      omega
    · omega

end CaseRow

theorem lowerRows_apart : ∀ row ∈ lowerRows, 0 ≤ row.first + row.shift ∧ ∀ other ∈ lowerRows, row.clears other = true := by
  decide +kernel

theorem mapCode_idem (code : Nat) : mapCode lowerRows (mapCode lowerRows code) = mapCode lowerRows code := by
  unfold mapCode
  cases found : lowerRows.findSome? (·.image? code) with
  | none => rw [Option.getD_none, found, Option.getD_none]
  | some image =>
    obtain ⟨row, member, maps⟩ := List.exists_of_findSome?_eq_some found
    obtain ⟨positive, apart⟩ := lowerRows_apart row member
    have settled : lowerRows.findSome? (·.image? image) = none :=
      List.findSome?_eq_none_iff.mpr fun other among => CaseRow.image?_of_clears (apart other among) positive maps
    rw [Option.getD_some, settled, Option.getD_none]

/-- A code point that lower case leaves alone is no capital letter. -/
theorem lowerChar_of_fixed {c : Char} (fixed : mapCode lowerRows c.toNat = c.toNat) : lowerChar c = c := by
  have small (n : Fin 128) : mapCode lowerRows n = n → (Char.ofNat n).toLower = Char.ofNat n := by
    revert n
    decide +kernel
  unfold lowerChar
  split
  case isTrue ascii =>
    have same := small ⟨c.toNat, ascii⟩ fixed
    rwa [Char.ofNat_toNat] at same
  case isFalse => rw [fixed, Char.ofNat_toNat]

theorem lowerChar_idem (c : Char) : lowerChar (lowerChar c) = lowerChar c := by
  have small (n : Fin 128) : lowerChar (Char.ofNat n).toLower = (Char.ofNat n).toLower := by
    revert n
    decide +kernel
  by_cases ascii : c.toNat < 0x80
  · have same := small ⟨c.toNat, ascii⟩
    rw [Char.ofNat_toNat] at same
    rw [show lowerChar c = c.toLower from if_pos ascii, same]
  rw [show lowerChar c = Char.ofNat (mapCode lowerRows c.toNat) from if_neg ascii]
  by_cases valid : (mapCode lowerRows c.toNat).isValidChar
  · refine lowerChar_of_fixed ?_
    rw [Char.ofNat, dif_pos valid]
    exact mapCode_idem c.toNat
  · rw [Char.ofNat, dif_neg valid]
    decide

/-- A text in lower case stays as it is. -/
theorem toLower_idem (text : Bytes) : toLower (toLower text) = toLower text := by
  rw [toLower, toLower, chars_encode, List.map_map]
  exact congrArg encode (List.map_congr_left fun c _ => lowerChar_idem c)

end LyaLang.Text
