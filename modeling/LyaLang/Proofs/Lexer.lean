import Mathlib
import LyaLang.Source.Lexer
import LyaLang.Proofs.Text.Utf8

/-! # Where tokens stand

The lexer only moves forward. A call passes the gap before a token and then the token, which holds at least one
character unless the input has ended, so the end of input is reached after at most as many tokens as there are
bytes. A position is the place behind the characters passed so far: its offset counts their bytes, its line their
newlines, and its column the characters behind the last newline.
-/

namespace LyaLang

open Text (Glyph glyphs rawText firstGlyph)

variable {source : Bytes} {rest : List Glyph} {d : Cursor} {g : Glyph} {p : Position}
  {given : Option Position × Cursor}

namespace Text

theorem firstGlyph_raw (lead : UInt8) (rest : Bytes) :
    ∃ tail behind, (firstGlyph lead rest).raw = lead :: tail ∧ rest = tail ++ behind := by
  unfold firstGlyph
  repeat' split
  all_goals exact ⟨_, _, rfl, rfl⟩

/-- Bytes behind a glyph do not change it. -/
theorem firstGlyph_append (lead : UInt8) (xs ys : Bytes) (inside : (firstGlyph lead (xs ++ ys)).width ≤ xs.length + 1) :
    firstGlyph lead xs = firstGlyph lead (xs ++ ys) := by
  unfold firstGlyph at inside ⊢
  rcases xs with _ | ⟨b, _ | ⟨c, _ | ⟨d, xs⟩⟩⟩ <;> rcases ys with _ | ⟨b', _ | ⟨c', _ | ⟨d', ys⟩⟩⟩ <;>
    dsimp only [List.nil_append, List.cons_append, List.append_nil] at inside ⊢ <;>
    (repeat' split) <;> simp_all [Glyph.width]

/-- A cut between two glyphs is a cut of the text, and both parts are read as before. -/
theorem glyphs_split {text : Bytes} {front back : List Glyph} (cut : glyphs text = front ++ back) :
    ∃ rest, text = rawText front ++ rest ∧ glyphs (rawText front) = front ∧ glyphs rest = back := by
  induction front generalizing text with
  | nil => exact ⟨text, rfl, rfl, cut⟩
  | cons g front ih =>
    cases text with
    | nil => cases cut
    | cons lead text =>
      obtain ⟨tail, behind, raw, rfl⟩ := firstGlyph_raw lead text
      obtain ⟨rfl, after⟩ := List.cons.inj cut
      have width : (firstGlyph lead (tail ++ behind)).width - 1 = tail.length := by rw [Glyph.width, raw]; rfl
      rw [width, glyphsAfter_append] at after
      obtain ⟨rest, rfl, whole, left⟩ := ih after
      have bytes : rawText (firstGlyph lead (tail ++ (rawText front ++ rest)) :: front) = lead :: (tail ++ rawText front) := by
        rw [rawText, List.flatMap_cons, raw]; rfl
      have same : firstGlyph lead (tail ++ rawText front) = firstGlyph lead (tail ++ (rawText front ++ rest)) := by
        rw [← List.append_assoc]
        refine firstGlyph_append lead _ rest ?_
        rw [List.append_assoc, Glyph.width, raw, List.length_cons, List.length_append]
        omega
      refine ⟨rest, by rw [bytes, List.cons_append, List.append_assoc], ?_, left⟩
      rw [bytes, glyphs, glyphsAfter, same, width, glyphsAfter_append, whole]

theorem length_glyphsAfter (pending : Nat) (text : Bytes) : (glyphsAfter pending text).length ≤ text.length := by
  fun_induction glyphsAfter pending text with
  | case1 => exact Nat.le_refl _
  | case2 _ _ _ ih => exact Nat.le_succ_of_le ih
  | case3 _ _ _ ih => exact Nat.succ_le_succ ih

end Text

/-! ## Positions behind characters -/

/-- The position behind glyphs. -/
def Position.after (p : Position) (gs : List Glyph) : Position := gs.foldl (fun q g => q.next g.char g.width) p

theorem Position.after_append (p : Position) (gs hs : List Glyph) : p.after (gs ++ hs) = (p.after gs).after hs :=
  List.foldl_append

theorem Position.after_offset (p : Position) (gs : List Glyph) :
    (p.after gs).offset = p.offset + (rawText gs).length := by
  induction gs generalizing p with
  | nil => rfl
  | cons g gs ih =>
    have step : (p.next g.char g.width).offset = p.offset + g.raw.length := by unfold Position.next; split <;> rfl
    rw [rawText, List.flatMap_cons, List.length_append, ← Nat.add_assoc, ← step]
    exact ih _

/-- A position is where `source` says: a byte of it, its line and its column. -/
structure Position.In (p : Position) (source : Bytes) : Prop where
  within : p.offset ≤ source.length
  line : p.line = 1 + (Text.chars (source.take p.offset)).count '\n'
  column : p.column = 1 + ((Text.chars (source.take p.offset)).reverse.takeWhile (· != '\n')).length

/-- Lines and columns are those of the characters passed. -/
theorem Position.after_place (gs : List Glyph) :
    (Position.first.after gs).line = 1 + (gs.map (·.char)).count '\n' ∧
      (Position.first.after gs).column = 1 + ((gs.map (·.char)).reverse.takeWhile (· != '\n')).length := by
  induction gs using List.reverseRecOn with
  | nil => exact ⟨rfl, rfl⟩
  | append_singleton gs g ih =>
    obtain ⟨line, column⟩ := ih
    rw [Position.after_append]
    change ((Position.first.after gs).next g.char g.width).line = _ ∧ ((Position.first.after gs).next g.char g.width).column = _
    unfold Position.next
    by_cases newline : g.char = '\n'
    · simp [newline, line, Nat.add_assoc]
    · simp [newline, line, column, Nat.add_comm]

theorem Position.after_in {passed : List Glyph} (cut : glyphs source = passed ++ rest) :
    (Position.first.after passed).In source := by
  obtain ⟨behind, rfl, whole, _⟩ := Text.glyphs_split cut
  have offset : (Position.first.after passed).offset = (rawText passed).length := by
    rw [Position.after_offset]
    exact Nat.zero_add _
  have front : Text.chars ((rawText passed ++ behind).take (Position.first.after passed).offset) = passed.map (·.char) := by
    rw [offset, List.take_left, Text.chars, whole]
  obtain ⟨line, column⟩ := Position.after_place passed
  refine ⟨?_, front ▸ line, front ▸ column⟩
  rw [offset, List.length_append]
  exact Nat.le_add_right _ _

/-! ## Cursors move forward -/

/-- A cursor further on in the same text. -/
def Cursor.Reaches (c d : Cursor) : Prop := ∃ passed, c.rest = passed ++ d.rest ∧ d.position = c.position.after passed

namespace Cursor.Reaches

theorem refl (c : Cursor) : c.Reaches c := ⟨[], rfl, rfl⟩

theorem trans {b c : Cursor} (first : b.Reaches c) (second : c.Reaches d) : b.Reaches d := by
  obtain ⟨front, rest, place⟩ := first
  obtain ⟨back, rest', place'⟩ := second
  refine ⟨front ++ back, ?_, ?_⟩
  · rw [rest, rest', List.append_assoc]
  · rw [place', place, Position.after_append]

theorem step (more : Cursor.Reaches ⟨rest, p.next g.char g.width⟩ d) : Cursor.Reaches ⟨g :: rest, p⟩ d :=
  trans ⟨[g], rfl, rfl⟩ more

theorem length_le {c : Cursor} (reaches : c.Reaches d) : d.rest.length ≤ c.rest.length := by
  obtain ⟨passed, rest, _⟩ := reaches
  rw [rest, List.length_append]
  exact Nat.le_add_left _ _

end Cursor.Reaches

/-- What a call of the lexer at `c` gives: a token that starts at a cursor further on, and the cursor behind it. -/
def Cursor.Gives (c : Cursor) (given : Token × Cursor) : Prop :=
  ∃ start, c.Reaches start ∧ given.1.position = start.position ∧ start.Reaches given.2 ∧
    (given.1.kind ≠ .endOfInput → given.2.rest.length < start.rest.length)

namespace Lexer

theorem takeRun_reaches (class? : Char → Bool) (gs : List Glyph) (p : Position) :
    Cursor.Reaches ⟨gs, p⟩ (takeRun class? gs p).2 := by
  fun_induction takeRun class? gs p with
  | case1 => exact .refl _
  | case2 _ _ _ _ _ _ same ih =>
    rw [same] at ih
    exact .step ih
  | case3 => exact .refl _

theorem scanString_reaches (gs : List Glyph) (p : Position) : Cursor.Reaches ⟨gs, p⟩ (scanString gs p).2 := by
  fun_induction scanString gs p
  all_goals first
    | exact .refl _
    | exact .step (.refl _)
    | (rename_i same ih; rw [same] at ih; first | exact .step ih | exact .step (.step ih))

theorem closeCharacter_reaches (c : Char) (gs : List Glyph) (p : Position) :
    Cursor.Reaches ⟨gs, p⟩ (closeCharacter c gs p).2 := by
  fun_cases closeCharacter c gs p
  all_goals first
    | exact .refl _
    | exact .step (.refl _)

theorem scanCharacter_reaches (gs : List Glyph) (p : Position) : Cursor.Reaches ⟨gs, p⟩ (scanCharacter gs p).2 := by
  fun_cases scanCharacter gs p
  all_goals first
    | exact .refl _
    | exact .step (.refl _)
    | exact .step (closeCharacter_reaches _ _ _)
    | exact .step (.step (closeCharacter_reaches _ _ _))

theorem operator_reaches {gs : List Glyph} {kind : TokenKind} {text : Bytes} {after : Cursor}
    (found : operator? g gs p = some (kind, text, after)) : Cursor.Reaches ⟨gs, p.next g.char g.width⟩ after := by
  unfold operator? at found
  dsimp only at found
  split at found
  · rename_i two same
    cases found
    split at same
    · cases same
    · obtain ⟨_, _, same⟩ := Option.map_eq_some_iff.mp same
      cases same
      exact .step (.refl _)
  · obtain ⟨_, _, same⟩ := Option.map_eq_some_iff.mp found
    cases same
    exact .refl _

theorem scanToken_gives (c : Cursor) : c.Gives (scanToken c) := by
  obtain ⟨gs, p⟩ := c
  -- A token that starts with `g` and ends behind it passes `g`.
  have starts {g : Glyph} {rest : List Glyph} {given : Token × Cursor} (place : given.1.position = p)
      (more : Cursor.Reaches ⟨rest, p.next g.char g.width⟩ given.2) : Cursor.Gives ⟨g :: rest, p⟩ given :=
    ⟨_, .refl _, place, .step more, fun _ => Nat.lt_succ_of_le more.length_le⟩
  unfold scanToken
  cases gs with
  | nil => exact ⟨_, .refl _, rfl, .refl _, fun more => absurd rfl more⟩
  | cons g rest =>
    dsimp only
    split
    · exact ⟨_, .refl _, rfl, .refl _, fun more => absurd rfl more⟩
    split
    · rename_i found
      exact starts rfl (operator_reaches found)
    have text := scanString_reaches rest (p.next g.char g.width)
    have character := scanCharacter_reaches rest (p.next g.char g.width)
    split
    · split <;> rename_i scanned <;> rw [scanned] at text <;> exact starts rfl text
    split
    · split <;> rename_i scanned <;> rw [scanned] at character <;> exact starts rfl character
    split
    · exact starts rfl (takeRun_reaches _ _ _)
    split
    · exact starts rfl (takeRun_reaches _ _ _)
    · exact starts rfl (.refl _)

/-- What the gap at `c` gives: a comment without an end is the one that was open, or it starts further on. -/
def Gap.Gives (gap : Gap) (c : Cursor) (given : Option Position × Cursor) : Prop :=
  c.Reaches given.2 ∧ ∀ opened, given.1 = some opened →
    gap = .block opened ∨ c.Gives (⟨.lexicalError, "unterminated comment", opened⟩, given.2)

theorem Gap.Gives.step {gap gap' : Gap} (open? : ∀ opened, gap' = .block opened → gap = .block opened)
    (more : gap'.Gives ⟨rest, p.next g.char g.width⟩ given) : gap.Gives ⟨g :: rest, p⟩ given := by
  refine ⟨.step more.1, fun opened found => ?_⟩
  obtain same | ⟨start, reaches, others⟩ := more.2 opened found
  · exact .inl (open? opened same)
  · exact .inr ⟨start, .step reaches, others⟩

/-- A comment that opens here is the first thing that the gap passes. -/
theorem Gap.Gives.opens (more : (Gap.block p).Gives ⟨rest, p.next g.char g.width⟩ given) : Gap.blank.Gives ⟨g :: rest, p⟩ given := by
  refine ⟨.step more.1, fun opened found => .inr ?_⟩
  obtain same | ⟨start, reaches, others⟩ := more.2 opened found
  · cases same
    exact ⟨_, .refl _, rfl, .step more.1, fun _ => Nat.lt_succ_of_le more.1.length_le⟩
  · exact ⟨start, .step reaches, others⟩

theorem skipGap_gives (gap : Gap) (gs : List Glyph) (p : Position) : gap.Gives ⟨gs, p⟩ (skipGap gap gs p) := by
  fun_induction skipGap gap gs p
  all_goals first
    | exact ⟨.refl _, by simp⟩
    | exact ⟨.step (.refl _), by simp⟩
    | (rename_i ih; exact .step (by simp) ih)
    | (rename_i ih; exact .opens (.step (fun _ => id) ih))
    | (rename_i ih; exact .step (by simp) (.step (fun _ => id) ih))

/-- The lexer moves forward, and every token but the end of input passes a character. -/
theorem nextToken_gives (c : Cursor) : c.Gives (nextToken c) := by
  obtain ⟨reaches, opens⟩ := skipGap_gives .blank c.rest c.position
  unfold nextToken
  split
  · rename_i opened after same
    rw [same] at opens
    exact (opens opened rfl).resolve_left (by simp)
  · rename_i after same
    rw [same] at reaches
    obtain ⟨start, onward, others⟩ := scanToken_gives after
    exact ⟨start, reaches.trans onward, others⟩

/-! ## Call after call -/

/-- The cursor after `k` calls. -/
def cursorAt (c : Cursor) (k : Nat) : Cursor := (fun c => (nextToken c).2)^[k] c

/-- The token of the call after `k` calls. -/
def call (c : Cursor) (k : Nat) : Token := (nextToken (cursorAt c k)).1

theorem cursorAt_reaches (c : Cursor) (k : Nat) : c.Reaches (cursorAt c k) := by
  induction k with
  | zero => exact .refl c
  | succ k ih =>
    obtain ⟨start, before, _, behind, _⟩ := nextToken_gives (cursorAt c k)
    rw [cursorAt, Function.iterate_succ_apply']
    exact ih.trans (before.trans behind)

/-- The calls reach the end of input, after at most as many other tokens as characters. -/
theorem calls_end (c : Cursor) : ∃ count ≤ c.rest.length, (call c count).kind = .endOfInput ∧
    (∀ k < count, (call c k).kind ≠ .endOfInput) ∧
    ∀ fuel > count, tokensFrom fuel c = (List.range (count + 1)).map (call c) := by
  induction size : c.rest.length using Nat.strong_induction_on generalizing c with
  | _ size ih =>
    subst size
    by_cases ends : (nextToken c).1.kind = .endOfInput
    · refine ⟨0, Nat.zero_le _, ends, fun k => (Nat.not_lt_zero k).elim, fun fuel more => ?_⟩
      obtain ⟨fuel, rfl⟩ := Nat.exists_eq_succ_of_ne_zero (Nat.ne_of_gt more)
      simp [tokensFrom, ends, call, cursorAt]
    · obtain ⟨start, before, _, _, passes⟩ := nextToken_gives c
      have shorter := Nat.lt_of_lt_of_le (passes ends) before.length_le
      obtain ⟨count, few, last, others, listed⟩ := ih _ shorter (nextToken c).2 rfl
      refine ⟨count + 1, Nat.lt_of_le_of_lt few shorter, last, fun k less => ?_, fun fuel more => ?_⟩
      · cases k with
        | zero => exact ends
        | succ k => exact others k (Nat.lt_of_succ_lt_succ less)
      · obtain ⟨fuel, rfl⟩ := Nat.exists_eq_succ_of_ne_zero (Nat.ne_of_gt (Nat.zero_lt_of_lt more))
        rw [List.range_succ_eq_map, List.map_cons, List.map_map, tokensFrom]
        simp only [beq_iff_eq, ends, if_false, listed fuel (Nat.lt_of_succ_lt_succ more)]
        rfl

theorem call_offset_lt {k : Nat} (more : (call (.ofSource source) k).kind ≠ .endOfInput) :
    (call (.ofSource source) k).position.offset < (call (.ofSource source) (k + 1)).position.offset := by
  obtain ⟨start, before, place, ⟨body, rest, behind⟩, passes⟩ := nextToken_gives (cursorAt (.ofSource source) k)
  obtain ⟨start', ⟨gap, _, onward⟩, place', _⟩ := nextToken_gives (cursorAt (.ofSource source) (k + 1))
  obtain ⟨passed, cut, _⟩ := (cursorAt_reaches (.ofSource source) k).trans before
  obtain ⟨bytes, _, _, left⟩ := Text.glyphs_split cut
  -- The token has a character, and so a byte.
  obtain ⟨_, _, whole, _⟩ := Text.glyphs_split (left.trans rest)
  have some : 0 < (rawText body).length := by
    refine List.length_pos_iff.mpr fun none => ?_
    rw [none] at whole
    have short := passes more
    rw [rest, ← whole] at short
    exact Nat.lt_irrefl _ short
  have next : cursorAt (.ofSource source) (k + 1) = (nextToken (cursorAt (.ofSource source) k)).2 :=
    Function.iterate_succ_apply' _ k _
  rw [call, call, place, place', onward, Position.after_offset, next, behind, Position.after_offset]
  omega

theorem call_in (source : Bytes) (k : Nat) : (call (.ofSource source) k).position.In source := by
  obtain ⟨start, before, place, _⟩ := nextToken_gives (cursorAt (.ofSource source) k)
  obtain ⟨passed, cut, behind⟩ := (cursorAt_reaches (.ofSource source) k).trans before
  rw [call, place, behind]
  exact Position.after_in cut

/-- Offsets increase up to the end of input. -/
theorem calls_increase {count : Nat}
    (others : ∀ k < count, (call (.ofSource source) k).kind ≠ .endOfInput) :
    ((List.range (count + 1)).map (call (.ofSource source))).Pairwise (·.position.offset < ·.position.offset) := by
  have less {j k : Nat} (before : j < k) (within : k ≤ count) :
      (call (.ofSource source) j).position.offset < (call (.ofSource source) k).position.offset := by
    induction k, before using Nat.le_induction with
    | base => exact call_offset_lt (others j within)
    | succ k _ ih => exact (ih (Nat.le_of_succ_le within)).trans (call_offset_lt (others k within))
  rw [List.pairwise_map]
  refine List.pairwise_lt_range.imp_of_mem fun _ member before => less before ?_
  exact Nat.le_of_lt_succ (List.mem_range.mp member)

end Lexer

/-- The tokens of a text are the calls up to the end of input. -/
theorem tokens_calls (source : Bytes) : ∃ count ≤ source.length, (Lexer.call (.ofSource source) count).kind = .endOfInput ∧
    (∀ k < count, (Lexer.call (.ofSource source) k).kind ≠ .endOfInput) ∧
    tokens source = (List.range (count + 1)).map (Lexer.call (.ofSource source)) := by
  obtain ⟨count, few, last, others, listed⟩ := Lexer.calls_end (.ofSource source)
  exact ⟨count, few.trans (Text.length_glyphsAfter 0 source), last, others, listed _ (Nat.lt_succ_of_le few)⟩

theorem tokens_increase (source : Bytes) : (tokens source).Pairwise (·.position.offset < ·.position.offset) := by
  obtain ⟨count, _, _, others, listed⟩ := tokens_calls source
  exact listed ▸ Lexer.calls_increase others

/-- Calling the lexer again and again, also past lexical errors, reaches the end of input after at most as many
other tokens as there are bytes, and `tokens` lists the calls up to there. Their offsets increase, and the line and
column of every token are those of its offset. -/
theorem calls_reach_end_in_place (source : Bytes) : ∃ count ≤ source.length,
    (Lexer.call (.ofSource source) count).kind = .endOfInput ∧
    (∀ k < count, (Lexer.call (.ofSource source) k).kind ≠ .endOfInput) ∧
    tokens source = (List.range (count + 1)).map (Lexer.call (.ofSource source)) ∧
    (tokens source).Pairwise (·.position.offset < ·.position.offset) ∧
    ∀ k, (Lexer.call (.ofSource source) k).position.In source := by
  obtain ⟨count, few, last, others, listed⟩ := tokens_calls source
  exact ⟨count, few, last, others, listed, tokens_increase source, Lexer.call_in source⟩

/-- The tokens of a text end with the one end of input, and there are at most as many before it as bytes. -/
theorem tokens_end (source : Bytes) : ∃ front last, tokens source = front ++ [last] ∧ last.kind = .endOfInput ∧
    (∀ token ∈ front, token.kind ≠ .endOfInput) ∧ front.length ≤ source.length := by
  obtain ⟨count, few, isLast, others, listed⟩ := tokens_calls source
  refine ⟨(List.range count).map (Lexer.call (.ofSource source)), Lexer.call (.ofSource source) count, ?_, isLast, ?_, ?_⟩
  · rw [listed, List.range_succ, List.map_append, List.map_singleton]
  · intro token member
    obtain ⟨k, less, rfl⟩ := List.mem_map.mp member
    exact others k (List.mem_range.mp less)
  · rw [List.length_map, List.length_range]
    exact few

end LyaLang
