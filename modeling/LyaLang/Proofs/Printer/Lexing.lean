import LyaLang.Proofs.Number
import LyaLang.Proofs.Printer.Basic
import LyaLang.Proofs.Text.Decimal
import LyaLang.Proofs.Text.Utf8

/-! # Reading back printed tokens

A printed line is cut into the tokens it was made of: each token ends at the blank behind it.
-/

namespace LyaLang

open Text (Glyph encode chars)

variable {c : Char} {gs : List Glyph} {p : Position} {k : TokenKind}

variable {cs : List Char} {g : Sign}

namespace Lexer

/-- The glyphs of characters. -/
abbrev glyphsOf (cs : List Char) : List Glyph := cs.map Glyph.of

theorem skipGap_space (gs : List Glyph) (p : Position) :
    skipGap .blank (Glyph.of ' ' :: gs) p = skipGap .blank gs (p.next ' ' (Glyph.of ' ').width) := by
  rw [skipGap.eq_def]
  rfl

theorem tokensFrom_space (fuel : Nat) (gs : List Glyph) (p : Position) :
    tokensFrom fuel ⟨Glyph.of ' ' :: gs, p⟩ = tokensFrom fuel ⟨gs, p.next ' ' (Glyph.of ' ').width⟩ := by
  cases fuel with
  | zero => rfl
  | succ fuel =>
    unfold tokensFrom nextToken
    rw [skipGap_space]

/-- A token starts at a character that is neither blank nor a slash. -/
theorem nextToken_start (filled : isBlank c = false) (noSlash : c ≠ '/') :
    nextToken ⟨Glyph.of c :: gs, p⟩ = scanToken ⟨Glyph.of c :: gs, p⟩ := by
  have gap : skipGap .blank (Glyph.of c :: gs) p = (none, ⟨Glyph.of c :: gs, p⟩) := by
    rw [skipGap.eq_def]
    have blank : isBlank (Glyph.of c).char = false := filled
    have slash : ((Glyph.of c).char == '/') = false := beq_eq_false_iff_ne.mpr noSlash
    simp only [blank, slash, Bool.false_eq_true, if_false]
  rw [nextToken, gap]

/-- The longest run of a class in front of a blank. -/
theorem takeRun_append {p : Char → Bool} (all : ∀ c ∈ cs, p c = true) (stop : p ' ' = false)
    (rest : List Glyph) (q : Position) :
    ∃ after, takeRun p (glyphsOf cs ++ Glyph.of ' ' :: rest) q = (cs, ⟨Glyph.of ' ' :: rest, after⟩) := by
  induction cs generalizing q with
  | nil =>
    refine ⟨q, ?_⟩
    change takeRun p (Glyph.of ' ' :: rest) q = _
    rw [takeRun]
    have ends : p (Glyph.of ' ').char = false := stop
    rw [if_neg (by rw [ends]; exact Bool.false_ne_true)]
  | cons c cs ih =>
    obtain ⟨after, run⟩ := ih (fun d mem => all d (List.mem_cons_of_mem c mem)) (q.next c (Glyph.of c).width)
    refine ⟨after, ?_⟩
    change takeRun p (Glyph.of c :: (glyphsOf cs ++ Glyph.of ' ' :: rest)) q = _
    have first : p (Glyph.of c).char = true := all c List.mem_cons_self
    rw [takeRun, if_pos first]
    have later : takeRun p (glyphsOf cs ++ Glyph.of ' ' :: rest) (q.next (Glyph.of c).char (Glyph.of c).width) = _ := run
    rw [later]
    rfl

/-- Characters that neither names nor numerals start with. -/
def specials : List Char :=
  [nul, ' ', '\t', '\n', '\r', '"', '\'', '(', ')', '[', ']', ',', ';', ':', '=', '+', '-', '*', '/', '%', '!', '<',
    '>', '&', '|']

theorem single?_plain (plain : c ∉ specials) : single? c = none := by
  unfold single?
  split
  all_goals first | exact absurd (by decide) plain | rfl

theorem double?_plain (plain : c ∉ specials) (d : Char) : double? c d = none := by
  unfold double?
  split
  all_goals first | exact absurd (by decide) plain | rfl

theorem operator?_none (one : single? c = none) (two : ∀ d, double? c d = none) (gs : List Glyph)
    (p : Position) : operator? (Glyph.of c) gs p = none := by
  have one : single? (Glyph.of c).char = none := one
  have two (d : Char) : double? (Glyph.of c).char d = none := two d
  unfold operator?
  cases gs with
  | nil => simp only [one, Option.map_none]
  | cons g gs => simp only [one, two, Option.map_none]

/-- A token that starts with a plain character is a word or a numeral. -/
theorem nextToken_plain (plain : c ∉ specials) : nextToken ⟨Glyph.of c :: gs, p⟩ =
      if isDigit c then
        (⟨.integer, encode (c :: (takeRun isDigit gs (p.next c (Glyph.of c).width)).1), p⟩,
          (takeRun isDigit gs (p.next c (Glyph.of c).width)).2)
      else if isNameStart c then
        (⟨.ofWord (encode (c :: (takeRun isNamePart gs (p.next c (Glyph.of c).width)).1)),
          encode (c :: (takeRun isNamePart gs (p.next c (Glyph.of c).width)).1), p⟩,
          (takeRun isNamePart gs (p.next c (Glyph.of c).width)).2)
      else (⟨.lexicalError, ("illegal character ") ++ Text.quoteChar c, p⟩,
        ⟨gs, p.next c (Glyph.of c).width⟩) := by
  have ne {d : Char} (mem : d ∈ specials) : c ≠ d := fun same => plain (same ▸ mem)
  have noBlank : isBlank c = false := by
    simp only [isBlank, Bool.or_eq_false_iff, beq_eq_false_iff_ne]
    exact ⟨⟨⟨ne (by decide), ne (by decide)⟩, ne (by decide)⟩, ne (by decide)⟩
  rw [nextToken_start noBlank (ne (by decide))]
  have noNul : ((Glyph.of c).char == nul) = false := beq_eq_false_iff_ne.mpr (ne (by decide))
  have noQuote : ((Glyph.of c).char == '"') = false := beq_eq_false_iff_ne.mpr (ne (by decide))
  have noTick : ((Glyph.of c).char == '\'') = false := beq_eq_false_iff_ne.mpr (ne (by decide))
  have noOperator : operator? (Glyph.of c) gs p = none :=
    operator?_none (single?_plain plain) (double?_plain plain) gs p
  unfold scanToken
  simp only [noNul, noOperator, noQuote, noTick, Bool.false_eq_true, if_false]
  rfl

theorem nextToken_quote {body : List Char} {after : Cursor}
    (scan : scanString gs (p.next '"' (Glyph.of '"').width) = (.ok body, after)) :
    nextToken ⟨Glyph.of '"' :: gs, p⟩ = (⟨.text, encode body, p⟩, after) := by
  have noNul : ((Glyph.of '"').char == nul) = false := by decide
  have quote : ((Glyph.of '"').char == '"') = true := by decide
  have scan : scanString gs (p.next (Glyph.of '"').char (Glyph.of '"').width) = (.ok body, after) := scan
  rw [nextToken_start (by decide) (by decide), scanToken]
  simp only [noNul, quote, operator?_none (c := '"') rfl fun _ => rfl, scan, Bool.false_eq_true, if_false, if_true]

theorem nextToken_tick {after : Cursor}
    (scan : scanCharacter gs (p.next '\'' (Glyph.of '\'').width) = (.ok c, after)) :
    nextToken ⟨Glyph.of '\'' :: gs, p⟩ = (⟨.character, encode [c], p⟩, after) := by
  have noNul : ((Glyph.of '\'').char == nul) = false := by decide
  have noQuote : ((Glyph.of '\'').char == '"') = false := by decide
  have tick : ((Glyph.of '\'').char == '\'') = true := by decide
  have scan : scanCharacter gs (p.next (Glyph.of '\'').char (Glyph.of '\'').width) = (.ok c, after) := scan
  rw [nextToken_start (by decide) (by decide), scanToken]
  simp only [noNul, noQuote, tick, operator?_none (c := '\'') rfl fun _ => rfl, scan, Bool.false_eq_true, if_false,
    if_true]

end Lexer

namespace Sign

open Lexer

variable {gs : List Sign}

/-- The token is read back where it is written with a blank behind it. -/
structure Lexes (g : Sign) : Prop where
  read : ∀ (rest : List Glyph) (p : Position), ∃ q,
    nextToken ⟨glyphsOf g.spelling ++ Glyph.of ' ' :: rest, p⟩ = (⟨g.kind, g.text, p⟩, ⟨Glyph.of ' ' :: rest, q⟩)
  inside : g.kind ≠ .endOfInput
  clean : g.kind ≠ .lexicalError

theorem spelling_plain (noChar : g.kind ≠ .character) (noText : g.kind ≠ .text) :
    g.spelling = chars g.text := by
  unfold spelling
  split
  · exact absurd ‹_› noChar
  · exact absurd ‹_› noText
  · rfl

/-! ## Words and numerals -/

theorem plain_of_isNameStart (start : isNameStart c = true) : c ∉ specials := by
  have others : specials.all (fun d => !isNameStart d) = true := by decide +kernel
  intro mem
  have none := List.all_eq_true.mp others c mem
  rw [start] at none
  exact Bool.false_ne_true none

theorem plain_of_isDigit (digit : Lexer.isDigit c = true) : c ∉ specials := by
  have others : specials.all (fun d => !Lexer.isDigit d) = true := by decide
  intro mem
  have none := List.all_eq_true.mp others c mem
  rw [digit] at none
  exact Bool.false_ne_true none

theorem isDigit_isNameStart (start : isNameStart c = true) : Lexer.isDigit c = false := by
  have others : ∀ n < 58, 48 ≤ n → isNameStart (Char.ofNat n) = false := by decide +kernel
  cases digit : Lexer.isDigit c with
  | false => rfl
  | true =>
    have bounds : 48 ≤ c.toNat ∧ c.toNat ≤ 57 := Text.digit_code digit
    have none := others c.toNat (by omega) bounds.1
    rw [Char.ofNat_toNat, start] at none
    exact none

/-- A word is read back as its class. -/
theorem lexes_word (text : g.text = encode (c :: cs))
    (start : isNameStart c = true) (parts : ∀ d ∈ cs, isNamePart d = true) (kind : TokenKind.ofWord g.text = g.kind)
    (spelled : g.spelling = chars g.text) (inside : g.kind ≠ .endOfInput) (clean : g.kind ≠ .lexicalError) :
    g.Lexes := by
  refine ⟨fun rest p => ?_, inside, clean⟩
  obtain ⟨after, run⟩ := takeRun_append parts (by decide +kernel) rest (p.next c (Glyph.of c).width)
  refine ⟨after, ?_⟩
  rw [spelled, text, Text.chars_encode]
  change nextToken ⟨Glyph.of c :: (glyphsOf cs ++ Glyph.of ' ' :: rest), p⟩ = _
  rw [nextToken_plain (plain_of_isNameStart start), run, isDigit_isNameStart start, start, if_neg Bool.false_ne_true,
    if_pos rfl, ← text, kind]

/-- A numeral is read back. -/
theorem lexes_numeral (n : Nat) : (Sign.mk .integer (Text.ofNat n)).Lexes := by
  refine ⟨fun rest p => ?_, nofun, nofun⟩
  have digits : ∀ c ∈ Nat.toDigits 10 n, Lexer.isDigit c = true := Text.isDigit_toDigits
  have spelled : (Sign.mk .integer (Text.ofNat n)).spelling = Nat.toDigits 10 n := by
    change chars (Text.ofNat n) = _
    rw [Text.ofNat_eq_encode, Text.chars_encode]
  rw [spelled, Text.ofNat_eq_encode]
  cases shape : Nat.toDigits 10 n with
  | nil => exact absurd shape Nat.toDigits_ne_nil
  | cons c cs =>
    rw [shape] at digits
    have first := digits c List.mem_cons_self
    obtain ⟨after, run⟩ := takeRun_append (fun d mem => digits d (List.mem_cons_of_mem c mem)) (by decide) rest
      (p.next c (Glyph.of c).width)
    refine ⟨after, ?_⟩
    change nextToken ⟨Glyph.of c :: (glyphsOf cs ++ Glyph.of ' ' :: rest), p⟩ = _
    rw [nextToken_plain (plain_of_isDigit first), run, if_pos first]

/-! ## Literals -/

/-- A character is written as an escape that stands for it, or as itself if nothing ends a literal there. -/
theorem escape_cases (c : Char) :
    (∃ letter, escape c = ['\\', letter] ∧ unescape? letter = some c) ∨
      escape c = [c] ∧ c ≠ '\n' ∧ c ≠ '\\' ∧ c ≠ '"' ∧ c ≠ nul := by
  unfold escape
  split
  · rename_i same
    exact .inl ⟨'n', rfl, by rw [same]; rfl⟩
  split
  · rename_i same
    exact .inl ⟨'\\', rfl, by rw [same]; rfl⟩
  split
  · rename_i same
    exact .inl ⟨'"', rfl, by rw [same]; rfl⟩
  split
  · rename_i same
    exact .inl ⟨'\'', rfl, by rw [same]; rfl⟩
  split
  · rename_i same
    exact .inl ⟨'0', rfl, by rw [same]; rfl⟩
  · rename_i noLine noSlash noQuote _ noNul
    exact .inr ⟨rfl, noLine, noSlash, noQuote, noNul⟩

theorem scanString_escape (c : Char) (gs : List Glyph) (p : Position) :
    ∃ q, scanString (glyphsOf (escape c) ++ gs) p = ((scanString gs q).1.map (c :: ·), (scanString gs q).2) := by
  obtain ⟨letter, spelled, meaning⟩ | ⟨spelled, noLine, noSlash, noQuote, noNul⟩ := escape_cases c
  · refine ⟨(p.next '\\' (Glyph.of '\\').width).next letter (Glyph.of letter).width, ?_⟩
    have meaning : unescape? (Glyph.of letter).char = some c := meaning
    rw [spelled]
    change scanString (Glyph.of '\\' :: Glyph.of letter :: gs) p = _
    rw [scanString.eq_def]
    simp only [meaning]
    rfl
  · refine ⟨p.next c (Glyph.of c).width, ?_⟩
    have quote : ((Glyph.of c).char == '"') = false := beq_eq_false_iff_ne.mpr noQuote
    have nul : ((Glyph.of c).char == Lexer.nul) = false := beq_eq_false_iff_ne.mpr noNul
    have newline : ((Glyph.of c).char == '\n') = false := beq_eq_false_iff_ne.mpr noLine
    have slash : ((Glyph.of c).char == '\\') = false := beq_eq_false_iff_ne.mpr noSlash
    rw [spelled]
    change scanString (Glyph.of c :: gs) p = _
    rw [scanString.eq_def]
    simp only [quote, nul, newline, slash, Bool.false_eq_true, if_false, Bool.or_self]
    rfl

theorem scanString_escapes (cs : List Char) (rest : List Glyph) (p : Position) :
    ∃ q, scanString (glyphsOf (cs.flatMap escape) ++ Glyph.of '"' :: rest) p = (.ok cs, ⟨rest, q⟩) := by
  induction cs generalizing p with
  | nil =>
    refine ⟨p.next '"' (Glyph.of '"').width, ?_⟩
    rw [scanString.eq_def]
    rfl
  | cons c cs ih =>
    obtain ⟨q, front⟩ := scanString_escape c (glyphsOf (cs.flatMap escape) ++ Glyph.of '"' :: rest) p
    obtain ⟨q', behind⟩ := ih q
    refine ⟨q', ?_⟩
    rw [List.flatMap_cons, glyphsOf, List.map_append, List.append_assoc, front, behind]
    rfl

theorem lexes_text (cs : List Char) : (Sign.mk .text (encode cs)).Lexes := by
  refine ⟨fun rest p => ?_, nofun, nofun⟩
  obtain ⟨q, scan⟩ := scanString_escapes cs (Glyph.of ' ' :: rest) (p.next '"' (Glyph.of '"').width)
  refine ⟨q, ?_⟩
  have spelled : (Sign.mk .text (encode cs)).spelling = '"' :: (cs.flatMap escape ++ ['"']) := by
    change '"' :: ((chars (encode cs)).flatMap escape ++ ['"']) = _
    rw [Text.chars_encode]
  rw [spelled, glyphsOf, List.map_cons, List.map_append, List.cons_append, List.append_assoc]
  exact nextToken_quote scan

theorem scanCharacter_escape (c : Char) (rest : List Glyph) (p : Position) :
    ∃ q, scanCharacter (glyphsOf (escape c) ++ Glyph.of '\'' :: rest) p = (.ok c, ⟨rest, q⟩) := by
  obtain ⟨letter, spelled, meaning⟩ | ⟨spelled, noLine, noSlash, -, noNul⟩ := escape_cases c
  · refine ⟨((p.next '\\' (Glyph.of '\\').width).next letter (Glyph.of letter).width).next '\''
      (Glyph.of '\'').width, ?_⟩
    have meaning : unescape? (Glyph.of letter).char = some c := meaning
    rw [spelled]
    change scanCharacter (Glyph.of '\\' :: Glyph.of letter :: Glyph.of '\'' :: rest) p = _
    rw [scanCharacter.eq_def]
    simp only [meaning]
    rfl
  · refine ⟨(p.next c (Glyph.of c).width).next '\'' (Glyph.of '\'').width, ?_⟩
    have nul : ((Glyph.of c).char == Lexer.nul) = false := beq_eq_false_iff_ne.mpr noNul
    have newline : ((Glyph.of c).char == '\n') = false := beq_eq_false_iff_ne.mpr noLine
    have slash : ((Glyph.of c).char == '\\') = false := beq_eq_false_iff_ne.mpr noSlash
    rw [spelled]
    change scanCharacter (Glyph.of c :: Glyph.of '\'' :: rest) p = _
    rw [scanCharacter.eq_def]
    simp only [nul, newline, slash, Bool.false_eq_true, if_false, Bool.or_self]
    rfl

theorem lexes_character (c : Char) : (Sign.mk .character (encode [c])).Lexes := by
  refine ⟨fun rest p => ?_, nofun, nofun⟩
  obtain ⟨q, scan⟩ := scanCharacter_escape c (Glyph.of ' ' :: rest) (p.next '\'' (Glyph.of '\'').width)
  refine ⟨q, ?_⟩
  have spelled : (Sign.mk .character (encode [c])).spelling = '\'' :: (escape c ++ ['\'']) := by
    change '\'' :: ((chars (encode [c])).flatMap escape ++ ['\'']) = _
    rw [Text.chars_encode, List.flatMap_cons, List.flatMap_nil, List.append_nil]
  rw [spelled, glyphsOf, List.map_cons, List.map_append, List.cons_append, List.append_assoc]
  exact nextToken_tick scan

/-! ## Printed tokens -/

/-- The classes of operators and delimiters. -/
def operatorKinds : List TokenKind :=
  [.leftParen, .rightParen, .leftBracket, .rightBracket, .comma, .semicolon, .colon, .arrow,
   .assign, .plusAssign, .minusAssign, .starAssign, .slashAssign, .percentAssign,
   .plus, .minus, .star, .slash, .percent, .equal, .notEqual, .less, .lessEqual, .greater, .greaterEqual,
   .andAlso, .orElse, .bang]

theorem lexes_reserved (mem : k ∈ TokenKind.reserved) : (word k).Lexes := by
  have shapes : ∀ k ∈ TokenKind.reserved, k.name.toList.head?.any isNameStart = true ∧
      k.name.toList.tail.all isNamePart = true ∧ TokenKind.ofWord (k.name) = k ∧
      k ≠ .character ∧ k ≠ .text ∧ k ≠ .endOfInput ∧ k ≠ .lexicalError := by
    decide +kernel
  obtain ⟨start, parts, kind, noChar, noText, inside, clean⟩ := shapes k mem
  cases name : k.name.toList with
  | nil =>
    rw [name] at start
    cases start
  | cons c cs =>
    rw [name] at start parts
    exact lexes_word (congrArg encode name) start (List.all_eq_true.mp parts) kind (spelling_plain noChar noText) inside
      clean

theorem lexes_operator (mem : k ∈ operatorKinds) : (word k).Lexes := by
  simp only [operatorKinds, List.mem_cons, List.not_mem_nil, or_false] at mem
  rcases mem with rfl | rfl | rfl | rfl | rfl | rfl | rfl | rfl | rfl | rfl | rfl | rfl | rfl | rfl | rfl | rfl | rfl |
    rfl | rfl | rfl | rfl | rfl | rfl | rfl | rfl | rfl | rfl | rfl
  all_goals exact ⟨fun _ _ => ⟨_, rfl⟩, ne_of_beq_false rfl, ne_of_beq_false rfl⟩

/-- Reserved words, operators and delimiters. -/
def isFixed (k : TokenKind) : Bool := TokenKind.reserved.contains k || operatorKinds.contains k

theorem lexes_fixed (fixed : isFixed k = true) : (word k).Lexes := by
  rcases Bool.or_eq_true_iff.mp fixed with reserved | operator
  · exact lexes_reserved (List.contains_iff_mem.mp reserved)
  · exact lexes_operator (List.contains_iff_mem.mp operator)

/-! ## Lines -/

/-- A printed line is read back as its tokens and the end of input. -/
theorem tokensFrom_line (gs : List Sign) (lexes : ∀ g ∈ gs, g.Lexes) (fuel : Nat) (enough : gs.length < fuel)
    (p : Position) : (tokensFrom fuel ⟨glyphsOf (line gs), p⟩).map Token.sign = gs ++ [finish] := by
  induction gs generalizing fuel p with
  | nil =>
    obtain ⟨fuel, rfl⟩ : ∃ n, fuel = n + 1 := ⟨fuel - 1, by omega⟩
    rfl
  | cons g gs ih =>
    obtain ⟨fuel, rfl⟩ : ∃ n, fuel = n + 1 := ⟨fuel - 1, by omega⟩
    obtain ⟨read, inside, -⟩ := lexes g List.mem_cons_self
    obtain ⟨q, read⟩ := read (glyphsOf (line gs)) p
    have split : glyphsOf (line (g :: gs)) = glyphsOf g.spelling ++ Glyph.of ' ' :: glyphsOf (line gs) := by
      simp [line]
    rw [split, tokensFrom, read]
    dsimp only
    rw [if_neg (by simpa using inside), tokensFrom_space, List.map_cons,
      ih (fun h mem => lexes h (List.mem_cons_of_mem g mem)) fuel (by simpa using enough)]
    rfl

theorem length_line (gs : List Sign) : gs.length ≤ (line gs).length := by
  induction gs with
  | nil => exact Nat.le_refl _
  | cons g gs ih =>
    simp only [line, List.flatMap_cons, List.length_append, List.length_cons, List.length_nil] at ih ⊢
    omega

theorem tokens_line (lexes : ∀ g ∈ gs, g.Lexes) :
    (tokens (encode (line gs))).map Token.sign = gs ++ [finish] := by
  unfold tokens Cursor.ofSource
  rw [Text.glyphs_encode]
  exact tokensFrom_line gs lexes _ (by
    rw [List.length_map]
    exact Nat.lt_succ_of_le (length_line gs)) _

/-! ## Tokens of a tree -/

/-- All tokens of a list are read back. -/
def AllLex (gs : List Sign) : Prop := ∀ g ∈ gs, g.Lexes

theorem AllLex.nil : AllLex [] := nofun

theorem AllLex.cons (first : g.Lexes) (rest : AllLex gs) : AllLex (g :: gs) :=
  List.forall_mem_cons.mpr ⟨first, rest⟩

theorem AllLex.word (fixed : isFixed k = true) (rest : AllLex gs) : AllLex (word k :: gs) :=
  .cons (lexes_fixed fixed) rest

theorem AllLex.append {hs : List Sign} (front : AllLex gs) (rest : AllLex hs) : AllLex (gs ++ hs) :=
  List.forall_mem_append.mpr ⟨front, rest⟩

theorem AllLex.parens (inner : AllLex gs) : AllLex (parens gs) :=
  .word rfl (inner.append (.word rfl .nil))

theorem AllLex.parensIf {wanted : Bool} (inner : AllLex gs) : AllLex (parensIf wanted gs) := by
  cases wanted with
  | false => exact inner
  | true => exact .parens inner

theorem AllLex.commas : ∀ {phrases : List (List Sign)}, (∀ gs ∈ phrases, AllLex gs) → AllLex (commas phrases)
  | [], _ => nofun
  | [gs], each => each gs List.mem_cons_self
  | gs :: _ :: _, each =>
    (each gs List.mem_cons_self).append (.word rfl
      (AllLex.commas fun phrase mem => each phrase (List.mem_cons_of_mem gs mem)))

end Sign

namespace Ast

open Sign

variable {α : Type}

theorem Ident.IsName.lexes {i : Ident α} (isName : i.IsName) : (Sign.name i).Lexes := by
  obtain ⟨c, cs, text, start, parts, kind⟩ := isName
  exact lexes_word text start parts kind (spelling_plain nofun nofun) nofun nofun

theorem lexes_unaryOp (op : UnaryOp) : (word op.token).Lexes := by
  cases op <;> exact lexes_fixed rfl

theorem lexes_binaryOp (op : BinaryOp) : (word op.token).Lexes := by
  cases op <;> exact lexes_fixed rfl

theorem ofInt64_of_nonneg {value : Int64} (nonneg : 0 ≤ value) : Text.ofInt64 value = Text.ofNat value.toInt.natAbs := by
  have nonneg : 0 ≤ value.toInt := toInt_nonneg nonneg
  rw [Text.ofInt64, Text.ofInt, if_neg (by omega)]

section

variable {wrap : Nat → Expr α → Bool}

mutual

theorem Expr.layout_lex : ∀ {e : Expr α}, Writable e.nodes → AllLex (e.layout wrap)
  | int _ value, ok => by
    rw [Expr.layout, ofInt64_of_nonneg ok.head]
    exact .cons (lexes_numeral _) .nil
  | bool _ value, _ => by
    cases value <;> exact .word rfl .nil
  | char _ value, _ => .cons (lexes_character value) .nil
  | text _ value, ok => by
    obtain ⟨cs, rfl⟩ := ok.head
    exact .cons (lexes_text cs) .nil
  | ident id, ok => .cons (Ident.IsName.lexes ok.head) .nil
  | unary _ op x, ok => .cons (lexes_unaryOp op) (.parensIf (Expr.layout_lex ok.tail))
  | binary _ op x y, ok => .append (.parensIf (Expr.layout_lex ok.tail.left))
    (.cons (lexes_binaryOp op) (.parensIf (Expr.layout_lex ok.tail.right)))
  | cond _ arms otherwise, ok => .append (Expr.armLayout_lex rfl ok.tail.left)
    (.word rfl (.append (.parensIf (Expr.layout_lex ok.tail.right)) (.word rfl .nil)))
  | call _ callee args, ok => .cons (Ident.IsName.lexes ok.tail.head) (.parens (.commas (Expr.listLayout_lex ok.tail.tail)))
  | index _ x indexes, ok => .append (.parensIf (Expr.layout_lex ok.tail.left)) (.word rfl
    (.append (.commas (Expr.listLayout_lex ok.tail.right)) (.word rfl .nil)))
  | deref _ x, ok => .append (.parensIf (Expr.layout_lex ok.tail)) (.word rfl .nil)
  | ref _ x, ok => .word rfl (.parensIf (Expr.layout_lex ok.tail))

theorem Expr.listLayout_lex : ∀ {es : List (Expr α)}, Writable (Expr.listNodes es) →
    ∀ gs ∈ Expr.listLayout wrap es, AllLex gs
  | [], _, _, mem => nomatch mem
  | x :: rest, ok, gs, mem => by
    cases mem with
    | head => exact .parensIf (Expr.layout_lex ok.left)
    | tail _ mem => exact Expr.listLayout_lex ok.right gs mem

theorem Expr.armLayout_lex {lead : TokenKind} (fixed : isFixed lead = true) :
    ∀ {arms : List (CondValue α)}, Writable (Expr.armNodes arms) → AllLex (Expr.armLayout wrap lead arms)
  | [], _ => nofun
  | .mk _ _ _ :: _, ok => .word fixed (.append (.parensIf (Expr.layout_lex ok.tail.left.left)) (.word rfl
    (.append (.parensIf (Expr.layout_lex ok.tail.left.right)) (Expr.armLayout_lex rfl ok.tail.right))))

end

end

theorem Expr.signs_lex {e : Expr α} (ok : Writable e.nodes) : AllLex e.signs :=
  e.layout_all ▸ Expr.layout_lex ok

theorem Expr.listSigns_lex {es : List (Expr α)} (ok : Writable (Expr.listNodes es)) : ∀ gs ∈ Expr.listSigns es, AllLex gs :=
  Expr.listLayout_all es ▸ Expr.listLayout_lex ok

theorem boundSigns_lex {lo hi : Expr α} (low : Writable lo.nodes) (high : Writable hi.nodes) :
    AllLex (boundSigns lo hi) :=
  .append (.parens (Expr.signs_lex low)) (.word rfl (.parens (Expr.signs_lex high)))

mutual

theorem ModeExpr.signs_lex : ∀ {m : ModeExpr α}, Writable m.nodes → AllLex m.signs
  | name m, ok => .cons (Ident.IsName.lexes ok.tail.head) .nil
  | range _ none lo hi, ok => boundSigns_lex ok.tail.left ok.tail.right
  | range _ (some base) lo hi, ok => by
    obtain ⟨named, low⟩ := List.forall_mem_append.mp ok.tail.left
    exact .cons (Ident.IsName.lexes (Writable.tail named).head) (.parens (boundSigns_lex low ok.tail.right))
  | ref _ elem, ok => .word rfl (ModeExpr.signs_lex ok.tail)
  | chars _ len, ok => .word rfl (.word rfl (.append (.parens (Expr.signs_lex ok.tail)) (.word rfl .nil)))
  | array _ indexes elem, ok => .word rfl (.word rfl (.append (.commas (ModeExpr.listSigns_lex ok.tail.left))
    (.word rfl (ModeExpr.signs_lex ok.tail.right))))

theorem ModeExpr.listSigns_lex : ∀ {ms : List (ModeExpr α)}, Writable (ModeExpr.listNodes ms) →
    ∀ gs ∈ ModeExpr.listSigns ms, AllLex gs
  | [], _, _, mem => nomatch mem
  | m :: rest, ok, gs, mem => by
    cases mem with
    | head => exact ModeExpr.signs_lex ok.left
    | tail _ mem => exact ModeExpr.listSigns_lex ok.right gs mem

end

theorem nameSigns_lex {names : List (Ident α)} (ok : Writable (identNodes names)) : AllLex (nameSigns names) := by
  refine .commas fun gs mem => ?_
  obtain ⟨i, member, rfl⟩ := List.mem_map.mp mem
  exact .cons (Ident.IsName.lexes (ok (.ident i) (List.mem_map_of_mem member))) .nil

theorem wordIf_lex {there : Bool} (fixed : isFixed k = true) : AllLex (wordIf there k) := by
  cases there with
  | false => exact .nil
  | true => exact .word fixed .nil

theorem introduced_lex {x : Option (Expr α)} (fixed : isFixed k = true)
    (ok : Writable (optionalNodes x)) : AllLex (introduced k x) := by
  cases x with
  | none => exact .nil
  | some x => exact .word fixed (.parens (Expr.signs_lex ok))

theorem Declaration.signs_lex {d : Declaration α} (ok : Writable d.nodes) : AllLex d.signs :=
  .append (nameSigns_lex ok.tail.left.left) (.append (ModeExpr.signs_lex ok.tail.left.right)
    (.append (wordIf_lex rfl) (introduced_lex rfl ok.tail.right)))

theorem SynonymDef.signs_lex {d : SynonymDef α} (ok : Writable d.nodes) : AllLex d.signs := by
  have mode := ok.tail.left.right
  refine .append (nameSigns_lex ok.tail.left.left) (.append ?_ (.word rfl (.parens (Expr.signs_lex ok.tail.right))))
  cases given : d.mode with
  | none => exact .nil
  | some m =>
    rw [given] at mode
    exact ModeExpr.signs_lex mode

theorem ModeDef.signs_lex {d : ModeDef α} (ok : Writable d.nodes) : AllLex d.signs :=
  .append (nameSigns_lex ok.tail.left) (.word rfl (ModeExpr.signs_lex ok.tail.right))

theorem FormalParam.signs_lex {p : FormalParam α} (ok : Writable p.nodes) : AllLex p.signs :=
  .append (nameSigns_lex ok.tail.left) (.append (ModeExpr.signs_lex ok.tail.right) (wordIf_lex rfl))

theorem ResultSpec.signs_lex {r : ResultSpec α} (ok : Writable r.nodes) : AllLex r.signs :=
  .word rfl (.parens (.append (ModeExpr.signs_lex ok.tail) (wordIf_lex rfl)))

theorem ForControl.signs_lex {c : ForControl α} (ok : Writable c.nodes) : AllLex c.signs := by
  have clauses := ok.tail.tail
  exact .word rfl (.cons (Ident.IsName.lexes ok.tail.head) (.word rfl (.append (.parens (Expr.signs_lex clauses.left.left))
    (.append (introduced_lex rfl clauses.left.right) (.append (wordIf_lex rfl)
      (.word rfl (.parens (Expr.signs_lex clauses.right))))))))

theorem lexes_assignToken (op : Option BinaryOp) : (word (assignToken op)).Lexes := by
  cases op with
  | none => exact lexes_fixed rfl
  | some op => cases op <;> exact lexes_fixed rfl

theorem loopSigns_lex {control : Option (ForControl α)} {whilst : Option (Expr α)}
    (ok : Writable ((control.map ForControl.nodes).getD [] ++ optionalNodes whilst)) :
    AllLex (loopSigns control whilst) := by
  refine .append ?_ (.append (introduced_lex rfl ok.right) (wordIf_lex rfl))
  cases control with
  | none => exact .nil
  | some c => exact ForControl.signs_lex ok.left

/-- Phrases of a list are read back if those of each member are. -/
theorem map_lex {γ : Type} {nodes : γ → List (Node α)} {signs : γ → List Sign}
    (each : ∀ {x : γ}, Writable (nodes x) → AllLex (signs x)) {xs : List γ} (ok : Writable (xs.flatMap nodes)) :
    AllLex (commas (xs.map signs)) := by
  refine .commas fun gs mem => ?_
  obtain ⟨x, member, rfl⟩ := List.mem_map.mp mem
  exact each fun node part => ok node (List.mem_flatMap.mpr ⟨x, member, part⟩)

mutual

theorem Stmt.signs_lex : ∀ {s : Stmt α}, Writable s.nodes → AllLex s.signs
  | declare _ decls, ok => .word rfl (map_lex Declaration.signs_lex ok.tail)
  | synonym _ defs, ok => .word rfl (map_lex SynonymDef.signs_lex ok.tail)
  | modes _ defs, ok => .word rfl (map_lex ModeDef.signs_lex ok.tail)
  | proc _ id params spec body, ok => by
    have parts := ok.tail.tail
    refine .cons (Ident.IsName.lexes ok.tail.head) (.word rfl (.word rfl
      (.append (.parens (map_lex FormalParam.signs_lex parts.left.left)) (.append ?_ (.word rfl
        (.append (Stmt.listSigns_lex parts.right) (.word rfl .nil)))))))
    cases spec with
    | none => exact .nil
    | some r => exact ResultSpec.signs_lex parts.left.right
  | assign _ _ op _, ok => .append (.parens (Expr.signs_lex ok.tail.left))
    (.cons (lexes_assignToken op) (.parens (Expr.signs_lex ok.tail.right)))
  | branch _ _ none, ok => .append (Stmt.armSigns_lex rfl ok.tail.left) (.word rfl .nil)
  | branch _ _ (some _), ok => .append (Stmt.armSigns_lex rfl ok.tail.left)
    (.append (.word rfl (Stmt.listSigns_lex ok.tail.right)) (.word rfl .nil))
  | loop _ _ _ _, ok => .word rfl (.append (loopSigns_lex ok.tail.left)
    (.append (Stmt.listSigns_lex ok.tail.right) (.word rfl .nil)))
  | call _ _ _ _, ok => .cons (Ident.IsName.lexes ok.tail.tail.head)
    (.parens (.commas (Expr.listSigns_lex ok.tail.tail.tail)))
  | ret _ none, _ => .word rfl .nil
  | ret _ (some value), ok => .word rfl (.parens (Expr.signs_lex ok.tail))
  | result _ value, ok => .word rfl (.parens (Expr.signs_lex ok.tail))

theorem Stmt.listSigns_lex : ∀ {ss : List (Stmt α)}, Writable (Stmt.listNodes ss) → AllLex (Stmt.listSigns ss)
  | [], _ => nofun
  | _ :: _, ok => .append (Stmt.signs_lex ok.left) (.word rfl (Stmt.listSigns_lex ok.right))

theorem Stmt.armSigns_lex {lead : TokenKind} (fixed : isFixed lead = true) :
    ∀ {arms : List (CondBranch α)}, Writable (Stmt.armNodes arms) → AllLex (Stmt.armSigns lead arms)
  | [], _ => nofun
  | .mk _ _ _ :: _, ok => .word fixed (.append (.parens (Expr.signs_lex ok.tail.left.left)) (.word rfl
    (.append (Stmt.listSigns_lex ok.tail.left.right) (Stmt.armSigns_lex rfl ok.tail.right))))

end

end Ast

end LyaLang
