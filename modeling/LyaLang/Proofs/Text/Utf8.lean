import LyaLang.Text.Utf8

/-! # Reading back encoded characters

The UTF-8 text of a list of characters is cut into exactly these characters, each with its own bytes. So
encoding loses nothing, and a text that was encoded is told apart character by character.
-/

namespace LyaLang.Text

variable {b c lead : UInt8}

/-- A character with the bytes of its encoding. -/
def Glyph.of (c : Char) : Glyph := ⟨c, String.utf8EncodeChar c⟩

theorem toNat_byte {n : Nat} (small : n < 256) : (UInt8.ofNat n).toNat = n := by
  rw [UInt8.toNat_ofNat', Nat.mod_eq_of_lt (by omega)]

theorem isTail_iff : isTail b = true ↔ 0x80 ≤ b.toNat ∧ b.toNat ≤ 0xBF := by
  simp [isTail, UInt8.le_iff_toNat_le]

theorem byteWithin_iff {low high : UInt8} :
    byteWithin (low, high) b = true ↔ low.toNat ≤ b.toNat ∧ b.toNat ≤ high.toNat := by
  simp [byteWithin, UInt8.le_iff_toNat_le]

theorem isTail_byte (n : Nat) : isTail (UInt8.ofNat (n % 64 + 128)) = true := by
  rw [isTail_iff, toNat_byte (by omega)]
  omega

theorem tailBits_byte (n : Nat) : tailBits (UInt8.ofNat (n % 64 + 128)) = n % 64 := by
  rw [tailBits, toNat_byte (by omega)]
  omega

/-! ## Sequences by their first byte -/

theorem not_lt_byte (le : c.toNat ≤ b.toNat) : ¬b < c := by
  exact Nat.not_lt.mpr le

theorem firstGlyph_one (rest : Bytes) (small : lead.toNat < 0x80) :
    firstGlyph lead rest = ⟨Char.ofNat lead.toNat, [lead]⟩ :=
  if_pos (UInt8.lt_iff_toNat_lt.mpr small)

theorem firstGlyph_two (rest : Bytes) (low : 0xC2 ≤ lead.toNat) (high : lead.toNat < 0xE0)
    (second : isTail b = true) :
    firstGlyph lead (b :: rest) = ⟨Char.ofNat ((lead.toNat - 0xC0) * 0x40 + tailBits b), [lead, b]⟩ := by
  have notOne : ¬lead < 0x80 := not_lt_byte (Nat.le_trans (by decide) low)
  have notBad : ¬lead < 0xC2 := not_lt_byte low
  have isTwo : lead < 0xE0 := UInt8.lt_iff_toNat_lt.mpr high
  simp only [firstGlyph, if_neg notOne, if_neg notBad, if_pos isTwo, if_pos second]

theorem firstGlyph_three (rest : Bytes) (low : 0xE0 ≤ lead.toNat) (high : lead.toNat < 0xF0)
    (second : byteWithin (secondOfThree lead) b = true) (third : isTail c = true) :
    firstGlyph lead (b :: c :: rest) =
      ⟨Char.ofNat ((lead.toNat - 0xE0) * 0x1000 + tailBits b * 0x40 + tailBits c), [lead, b, c]⟩ := by
  have notOne : ¬lead < 0x80 := not_lt_byte (Nat.le_trans (by decide) low)
  have notBad : ¬lead < 0xC2 := not_lt_byte (Nat.le_trans (by decide) low)
  have notTwo : ¬lead < 0xE0 := not_lt_byte low
  have isThree : lead < 0xF0 := UInt8.lt_iff_toNat_lt.mpr high
  simp only [firstGlyph, if_neg notOne, if_neg notBad, if_neg notTwo, if_pos isThree, second, third, Bool.and_self,
    if_true]

theorem firstGlyph_four {d : UInt8} (rest : Bytes) (low : 0xF0 ≤ lead.toNat) (high : lead.toNat < 0xF5)
    (second : byteWithin (secondOfFour lead) b = true) (third : isTail c = true) (fourth : isTail d = true) :
    firstGlyph lead (b :: c :: d :: rest) =
      ⟨Char.ofNat ((lead.toNat - 0xF0) * 0x40000 + tailBits b * 0x1000 + tailBits c * 0x40 + tailBits d),
        [lead, b, c, d]⟩ := by
  have notOne : ¬lead < 0x80 := not_lt_byte (Nat.le_trans (by decide) low)
  have notBad : ¬lead < 0xC2 := not_lt_byte (Nat.le_trans (by decide) low)
  have notTwo : ¬lead < 0xE0 := not_lt_byte (Nat.le_trans (by decide) low)
  have notThree : ¬lead < 0xF0 := not_lt_byte low
  have isFour : lead < 0xF5 := UInt8.lt_iff_toNat_lt.mpr high
  simp only [firstGlyph, if_neg notOne, if_neg notBad, if_neg notTwo, if_neg notThree, if_pos isFour, second, third,
    fourth, Bool.and_self, if_true]

theorem within_secondOfThree : byteWithin (secondOfThree lead) b = true ↔
    isTail b = true ∧ (lead.toNat = 0xE0 → 0xA0 ≤ b.toNat) ∧ (lead.toNat = 0xED → b.toNat ≤ 0x9F) := by
  simp only [secondOfThree, beq_iff_eq, ← UInt8.toNat_inj, isTail_iff, UInt8.reduceToNat]
  split
  · simp only [byteWithin_iff, UInt8.reduceToNat]
    omega
  · split <;> simp only [byteWithin_iff, UInt8.reduceToNat] <;> omega

theorem within_secondOfFour : byteWithin (secondOfFour lead) b = true ↔
    isTail b = true ∧ (lead.toNat = 0xF0 → 0x90 ≤ b.toNat) ∧ (lead.toNat = 0xF4 → b.toNat ≤ 0x8F) := by
  simp only [secondOfFour, beq_iff_eq, ← UInt8.toNat_inj, isTail_iff, UInt8.reduceToNat]
  split
  · simp only [byteWithin_iff, UInt8.reduceToNat]
    omega
  · split <;> simp only [byteWithin_iff, UInt8.reduceToNat] <;> omega

/-- The glyph in front of an encoded character and more bytes is that character. -/
theorem firstGlyph_encode (c : Char) (rest : Bytes) :
    ∃ lead tail, String.utf8EncodeChar c = lead :: tail ∧ firstGlyph lead (tail ++ rest) = ⟨c, lead :: tail⟩ := by
  have back : Char.ofNat c.val.toNat = c := Char.ofNat_toNat c
  have valid : c.val.toNat < 0xD800 ∨ 0xDFFF < c.val.toNat ∧ c.val.toNat < 0x110000 := c.valid
  unfold String.utf8EncodeChar
  generalize c.val.toNat = v at back valid
  by_cases one : v ≤ 127
  · refine ⟨_, _, if_pos one, ?_⟩
    have lead : (UInt8.ofNat v).toNat = v := toNat_byte (by omega)
    rw [firstGlyph_one _ (by omega), lead, back]
  by_cases two : v ≤ 2047
  · refine ⟨_, _, (if_neg one).trans (if_pos two), ?_⟩
    have lead : (UInt8.ofNat (v / 64 % 32 + 192)).toNat = v / 64 % 32 + 192 := toNat_byte (by omega)
    have value : (v / 64 % 32 + 192 - 0xC0) * 0x40 + v % 64 = v := by omega
    rw [List.cons_append, firstGlyph_two _ (by omega) (by omega) (isTail_byte v), lead, tailBits_byte, value, back]
  by_cases three : v ≤ 65535
  · refine ⟨_, _, (if_neg one).trans ((if_neg two).trans (if_pos three)), ?_⟩
    have lead : (UInt8.ofNat (v / 4096 % 16 + 224)).toNat = v / 4096 % 16 + 224 := toNat_byte (by omega)
    have second : (UInt8.ofNat (v / 64 % 64 + 128)).toNat = v / 64 % 64 + 128 := toNat_byte (by omega)
    have value : (v / 4096 % 16 + 224 - 0xE0) * 0x1000 + v / 64 % 64 * 0x40 + v % 64 = v := by omega
    have within : byteWithin (secondOfThree (UInt8.ofNat (v / 4096 % 16 + 224))) (UInt8.ofNat (v / 64 % 64 + 128)) :=
      within_secondOfThree.mpr ⟨isTail_byte (v / 64), by omega, by omega⟩
    rw [List.cons_append, List.cons_append, firstGlyph_three _ (by omega) (by omega) within (isTail_byte v), lead,
      tailBits_byte, tailBits_byte, value, back]
  · refine ⟨_, _, (if_neg one).trans ((if_neg two).trans (if_neg three)), ?_⟩
    have lead : (UInt8.ofNat (v / 262144 % 8 + 240)).toNat = v / 262144 % 8 + 240 := toNat_byte (by omega)
    have second : (UInt8.ofNat (v / 4096 % 64 + 128)).toNat = v / 4096 % 64 + 128 := toNat_byte (by omega)
    have value : (v / 262144 % 8 + 240 - 0xF0) * 0x40000 + v / 4096 % 64 * 0x1000 + v / 64 % 64 * 0x40 + v % 64 = v := by
      omega
    have within : byteWithin (secondOfFour (UInt8.ofNat (v / 262144 % 8 + 240))) (UInt8.ofNat (v / 4096 % 64 + 128)) :=
      within_secondOfFour.mpr ⟨isTail_byte (v / 4096), by omega, by omega⟩
    rw [List.cons_append, List.cons_append, List.cons_append,
      firstGlyph_four _ (by omega) (by omega) within (isTail_byte (v / 64)) (isTail_byte v), lead, tailBits_byte,
      tailBits_byte, tailBits_byte, value, back]

/-- Bytes of a glyph that was read are passed. -/
theorem glyphsAfter_append (front rest : Bytes) : glyphsAfter front.length (front ++ rest) = glyphs rest := by
  induction front with
  | nil => rfl
  | cons b front ih => exact ih

theorem glyphs_encode_cons (c : Char) (rest : Bytes) :
    glyphs (String.utf8EncodeChar c ++ rest) = Glyph.of c :: glyphs rest := by
  obtain ⟨lead, tail, bytes, front⟩ := firstGlyph_encode c rest
  rw [Glyph.of, bytes, List.cons_append, glyphs, glyphsAfter, front]
  exact congrArg (_ :: ·) (glyphsAfter_append tail rest)

/-- An encoded text reads back as its characters. -/
theorem glyphs_encode (cs : List Char) : glyphs (encode cs) = cs.map Glyph.of := by
  induction cs with
  | nil => rfl
  | cons c cs ih =>
    change glyphs (String.utf8EncodeChar c ++ encode cs) = _
    rw [glyphs_encode_cons, ih, List.map_cons]

theorem chars_encode (cs : List Char) : chars (encode cs) = cs := by
  rw [chars, glyphs_encode, List.map_map]
  exact List.map_id cs

/-! ## Well-formed texts -/

theorem ofNat_eq_byte {n : Nat} (same : n = b.toNat) : UInt8.ofNat n = b := by
  rw [same, UInt8.ofNat_toNat]

theorem utf8EncodeChar_ofNat {v : Nat} (valid : v.isValidChar) :
    String.utf8EncodeChar (Char.ofNat v) =
      if v ≤ 127 then [UInt8.ofNat v]
      else if v ≤ 2047 then [UInt8.ofNat (v / 64 % 32 + 192), UInt8.ofNat (v % 64 + 128)]
      else if v ≤ 65535 then
        [UInt8.ofNat (v / 4096 % 16 + 224), UInt8.ofNat (v / 64 % 64 + 128), UInt8.ofNat (v % 64 + 128)]
      else [UInt8.ofNat (v / 262144 % 8 + 240), UInt8.ofNat (v / 4096 % 64 + 128), UInt8.ofNat (v / 64 % 64 + 128),
        UInt8.ofNat (v % 64 + 128)] := by
  have same : (Char.ofNat v).val.toNat = v := by
    rw [Char.ofNat, dif_pos valid]
    rfl
  unfold String.utf8EncodeChar
  rw [same]

/-- A glyph is a byte outside every well-formed sequence, or a character with its encoding. -/
theorem firstGlyph_malformed_or (lead : UInt8) (rest : Bytes) :
    (firstGlyph lead rest).isMalformed = true ∨ firstGlyph lead rest = Glyph.of (firstGlyph lead rest).char := by
  unfold firstGlyph Glyph.of
  simp only [UInt8.lt_iff_toNat_lt, UInt8.reduceToNat]
  split
  · right
    rw [utf8EncodeChar_ofNat (.inl (by omega)), if_pos (by omega), UInt8.ofNat_toNat]
  · split
    · exact .inl rfl
    · split
      · split
        · split
          · rename_i b _ tail
            right
            rw [isTail_iff] at tail
            rw [tailBits, utf8EncodeChar_ofNat (.inl (by omega)), if_neg (by omega), if_pos (by omega),
              ofNat_eq_byte (b := lead) (by omega), ofNat_eq_byte (b := b) (by omega)]
          · exact .inl rfl
        · exact .inl rfl
      · split
        · split
          · split
            · rename_i b c _ tail
              right
              rw [Bool.and_eq_true, within_secondOfThree, isTail_iff, isTail_iff] at tail
              rw [tailBits, tailBits, utf8EncodeChar_ofNat (by omega), if_neg (by omega),
                if_neg (by omega), if_pos (by omega), ofNat_eq_byte (b := lead) (by omega),
                ofNat_eq_byte (b := b) (by omega), ofNat_eq_byte (b := c) (by omega)]
            · exact .inl rfl
          · exact .inl rfl
        · split
          · split
            · split
              · rename_i b c d _ tail
                right
                rw [Bool.and_eq_true, Bool.and_eq_true, within_secondOfFour, isTail_iff, isTail_iff, isTail_iff] at tail
                rw [tailBits, tailBits, tailBits, utf8EncodeChar_ofNat (by omega),
                  if_neg (by omega), if_neg (by omega), if_neg (by omega), ofNat_eq_byte (b := lead) (by omega),
                  ofNat_eq_byte (b := b) (by omega), ofNat_eq_byte (b := c) (by omega), ofNat_eq_byte (b := d) (by omega)]
              · exact .inl rfl
            · exact .inl rfl
          · exact .inl rfl

theorem exists_firstGlyph {pending : Nat} {text : Bytes} {g : Glyph} (member : g ∈ glyphsAfter pending text) :
    ∃ lead rest, g = firstGlyph lead rest := by
  fun_induction glyphsAfter pending text with
  | case1 => cases member
  | case2 _ _ _ ih => exact ih member
  | case3 lead rest _ ih =>
    rcases List.mem_cons.mp member with rfl | member
    · exact ⟨lead, rest, rfl⟩
    · exact ih member

/-- The glyphs of a well-formed text are its characters with their encodings. -/
theorem glyphs_of_isUtf8 {text : Bytes} (utf8 : isUtf8 text = true) : glyphs text = (chars text).map Glyph.of := by
  have each : ∀ g ∈ glyphs text, (Glyph.of ∘ (·.char)) g = g := by
    intro g member
    obtain ⟨lead, rest, rfl⟩ := exists_firstGlyph member
    have fine := List.all_eq_true.mp utf8 _ member
    rcases firstGlyph_malformed_or lead rest with malformed | whole
    · rw [malformed] at fine
      cases fine
    · exact whole.symm
  rw [chars, List.map_map, List.map_congr_left each, List.map_id']

end LyaLang.Text
