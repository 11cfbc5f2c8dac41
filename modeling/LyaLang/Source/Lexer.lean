import LyaLang.Source.Token
import LyaLang.Text.Letter

/-! # Lexical analysis

A cursor walks over the glyphs of a source text and keeps its position. A NUL character ends the
input like the end of the text does. Lexical errors are tokens of their own, and reading goes on
after them; every token other than the end of input passes at least one character.
-/

namespace LyaLang

open Text (Glyph)

/-- The unread part of a source text and its position. -/
structure Cursor where
  rest : List Glyph
  position : Position
deriving Repr

namespace Cursor

def ofSource (source : Bytes) : Cursor := ⟨Text.glyphs source, .first⟩

def past (position : Position) (glyph : Glyph) (rest : List Glyph) : Cursor :=
  ⟨rest, position.next glyph.char glyph.width⟩

end Cursor

namespace Lexer

def isBlank (c : Char) : Bool := c == ' ' || c == '\t' || c == '\n' || c == '\r'

def isDigit (c : Char) : Bool := '0' ≤ c && c ≤ '9'

def isNameStart (c : Char) : Bool := Text.isLetter c || c == '_'

/-- Characters that continue an identifier. -/
def isNamePart (c : Char) : Bool := isNameStart c || isDigit c

/-- The character that ends a source text before its last byte. -/
def nul : Char := Char.ofNat 0

/-- Where the text between two tokens stands: between comments, in a line comment, or in a block
comment that opened at a position. -/
inductive Gap where
  | blank
  | line
  | block (opened : Position)

/-- Pass blanks and comments. A block comment without an end gives the position where it opened. -/
def skipGap : Gap → List Glyph → Position → Option Position × Cursor
  | .block opened, [], p => (some opened, ⟨[], p⟩)
  | _, [], p => (none, ⟨[], p⟩)
  | .blank, g :: rest, p =>
    let q := p.next g.char g.width
    if isBlank g.char then skipGap .blank rest q
    else if g.char == '/' then
      match rest with
      | [] => (none, ⟨[g], p⟩)
      | h :: rest =>
        if h.char == '/' then skipGap .line rest (q.next h.char h.width)
        else if h.char == '*' then skipGap (.block p) rest (q.next h.char h.width)
        else (none, ⟨g :: h :: rest, p⟩)
    else (none, ⟨g :: rest, p⟩)
  | .line, g :: rest, p =>
    if g.char == '\n' then skipGap .blank rest (p.next g.char g.width)
    else if g.char == nul then (none, ⟨g :: rest, p⟩)
    else skipGap .line rest (p.next g.char g.width)
  | .block opened, g :: rest, p =>
    let q := p.next g.char g.width
    if g.char == nul then (some opened, ⟨g :: rest, p⟩)
    else if g.char == '*' then
      match rest with
      | [] => (some opened, ⟨[], q⟩)
      | h :: rest' =>
        if h.char == '/' then skipGap .blank rest' (q.next h.char h.width)
        else skipGap (.block opened) (h :: rest') q
    else skipGap (.block opened) rest q

def takeRun (p : Char → Bool) : List Glyph → Position → List Char × Cursor
  | [], position => ([], ⟨[], position⟩)
  | g :: rest, position =>
    if p g.char then
      let (run, cursor) := takeRun p rest (position.next g.char g.width)
      (g.char :: run, cursor)
    else ([], ⟨g :: rest, position⟩)

/-- The character that an escape letter stands for. -/
def unescape? : Char → Option Char
  | 'n' => some '\n'
  | 't' => some '\t'
  | '\\' => some '\\'
  | '"' => some '"'
  | '\'' => some '\''
  | '0' => some nul
  | _ => none

def badEscape (letter : Char) : Bytes := ("bad escape code \\" : Bytes) ++ Text.encode [letter]

/-- The rest of a string literal after its opening quote: its characters, or a message. The cursor
stands after the closing quote, or at the character that stopped it. -/
def scanString : List Glyph → Position → Except Bytes (List Char) × Cursor
  | [], p => (.error "unterminated string", ⟨[], p⟩)
  | g :: rest, p =>
    let q := p.next g.char g.width
    if g.char == '"' then (.ok [], ⟨rest, q⟩)
    else if g.char == nul || g.char == '\n' then (.error "unterminated string", ⟨g :: rest, p⟩)
    else if g.char == '\\' then
      match rest with
      | [] => (.error (badEscape nul), ⟨[], q⟩)
      | h :: rest =>
        match unescape? h.char with
        | none => (.error (badEscape h.char), ⟨h :: rest, q⟩)
        | some c =>
          let (body, cursor) := scanString rest (q.next h.char h.width)
          (body.map (c :: ·), cursor)
    else
      let (body, cursor) := scanString rest q
      (body.map (g.char :: ·), cursor)

def closeCharacter (c : Char) : List Glyph → Position → Except Bytes Char × Cursor
  | [], p => (.error "unterminated character literal", ⟨[], p⟩)
  | g :: rest, p =>
    if g.char == '\'' then (.ok c, Cursor.past p g rest)
    else (.error "unterminated character literal", ⟨g :: rest, p⟩)

/-- The rest of a character literal after its opening quote. -/
def scanCharacter : List Glyph → Position → Except Bytes Char × Cursor
  | [], p => (.error "unterminated character literal", ⟨[], p⟩)
  | g :: rest, p =>
    let q := p.next g.char g.width
    if g.char == nul || g.char == '\n' then
      (.error "unterminated character literal", ⟨g :: rest, p⟩)
    else if g.char == '\\' then
      match rest with
      | [] => (.error (badEscape nul), ⟨[], q⟩)
      | h :: rest =>
        match unescape? h.char with
        | none => (.error (badEscape h.char), ⟨h :: rest, q⟩)
        | some c => closeCharacter c rest (q.next h.char h.width)
    else closeCharacter g.char rest q

/-- The operator or delimiter of one character. -/
def single? : Char → Option TokenKind
  | '(' => some .leftParen | ')' => some .rightParen | '[' => some .leftBracket
  | ']' => some .rightBracket | ',' => some .comma | ';' => some .semicolon | ':' => some .colon
  | '=' => some .assign | '+' => some .plus | '-' => some .minus | '*' => some .star
  | '/' => some .slash | '%' => some .percent | '!' => some .bang | '<' => some .less
  | '>' => some .greater | _ => none

/-- The operator of two characters. -/
def double? : Char → Char → Option TokenKind
  | ':', '=' => some .assign | '=', '=' => some .equal | '+', '=' => some .plusAssign
  | '-', '=' => some .minusAssign | '*', '=' => some .starAssign | '/', '=' => some .slashAssign
  | '%', '=' => some .percentAssign | '!', '=' => some .notEqual | '<', '=' => some .lessEqual
  | '>', '=' => some .greaterEqual | '-', '>' => some .arrow | '&', '&' => some .andAlso
  | '|', '|' => some .orElse | _, _ => none

/-- The operator at the front of a text: two characters if they form one, else one character. -/
def operator? (g : Glyph) (rest : List Glyph) (p : Position) : Option (TokenKind × Bytes × Cursor) :=
  let q := p.next g.char g.width
  let two? : Option (TokenKind × Bytes × Cursor) :=
    match rest with
    | [] => none
    | h :: rest =>
      (double? g.char h.char).map fun kind => (kind, Text.encode [g.char, h.char], Cursor.past q h rest)
  match two? with
  | some found => some found
  | none => (single? g.char).map fun kind => (kind, Text.encode [g.char], ⟨rest, q⟩)

/-- The token at a cursor that stands on no blank or comment, and the cursor after it. -/
def scanToken (c : Cursor) : Token × Cursor :=
  let p := c.position
  match c.rest with
  | [] => (⟨.endOfInput, [], p⟩, c)
  | g :: rest =>
    if g.char == nul then (⟨.endOfInput, [], p⟩, c)
    else match operator? g rest p with
    | some (kind, text, after) => (⟨kind, text, p⟩, after)
    | none =>
      let q := p.next g.char g.width
      if g.char == '"' then
        match scanString rest q with
        | (.ok body, after) => (⟨.text, Text.encode body, p⟩, after)
        | (.error message, after) => (⟨.lexicalError, message, p⟩, after)
      else if g.char == '\'' then
        match scanCharacter rest q with
        | (.ok body, after) => (⟨.character, Text.encode [body], p⟩, after)
        | (.error message, after) => (⟨.lexicalError, message, p⟩, after)
      else if isDigit g.char then
        let (run, after) := takeRun isDigit rest q
        (⟨.integer, Text.encode (g.char :: run), p⟩, after)
      else if isNameStart g.char then
        let (run, after) := takeRun isNamePart rest q
        let word := Text.encode (g.char :: run)
        (⟨.ofWord word, word, p⟩, after)
      else (⟨.lexicalError, ("illegal character " : Bytes) ++ Text.quoteChar g.char, p⟩, ⟨rest, q⟩)

def nextToken (c : Cursor) : Token × Cursor :=
  match skipGap .blank c.rest c.position with
  | (some opened, after) => (⟨.lexicalError, "unterminated comment", opened⟩, after)
  | (none, after) => scanToken after

/-- At most `fuel` tokens up to the end of input. -/
def tokensFrom : Nat → Cursor → List Token
  | 0, _ => []
  | fuel + 1, c =>
    let (token, after) := nextToken c
    if token.kind == .endOfInput then [token] else token :: tokensFrom fuel after

end Lexer

/-- Every token of a source text, lexical errors included, up to the end of input. -/
def tokens (source : Bytes) : List Token :=
  let c := Cursor.ofSource source
  Lexer.tokensFrom (c.rest.length + 1) c

def tokensUntilError (source : Bytes) : List Token :=
  let all := tokens source
  let clean := all.takeWhile fun token => token.kind != .lexicalError
  clean ++ (all.drop clean.length).take 1

end LyaLang
