import LyaLang.Text.Base64
import LyaLang.Yaml.Reading

/-! # Text in YAML

A text stands in YAML as it is if a reader takes it for text and for one that ends where it does. Text
with line breaks stands in a block of its own. Otherwise it stands in quotes: in double quotes if it
would be read as another type or has characters that need escapes, else in single quotes. What is not
UTF-8 stands in base 64.
-/

namespace LyaLang.Yaml

/-- Whether a character ends a line. -/
def isBreak (c : Char) : Bool := ['\n', '\r', '\u0085', '\u2028', '\u2029'].contains c

/-- Whether a character may be written without an escape. -/
def isPlain (c : Char) : Bool :=
  let n := c.toNat
  n == 0x0A || (0x20 ≤ n && n ≤ 0x7E) || (0xA0 ≤ n && n ≤ 0xD7FF) || (0xE000 ≤ n && n ≤ 0xFFFD && n != 0xFEFF)

/-- Characters that mean something else at the start of a text. -/
def isIndicator (c : Char) : Bool := "#,[]\x7b\x7d&*!|>'\"%@`".toList.contains c

/-- Neighbours in a text. -/
def pairs (cs : List Char) : List (Char × Char) := cs.zip cs.tail

/-- Whether a text cannot be told from markup when it stands as it is. -/
def looksLikeMarkup (cs : List Char) : Bool :=
  let blankNext (rest : List Char) : Bool := rest.head?.all fun c => c == ' ' || c == '\t'
  let start := match cs with
    | '-' :: '-' :: '-' :: _ | '.' :: '.' :: '.' :: _ => true
    | c :: rest => isIndicator c || ((c == '?' || c == ':' || c == '-') && blankNext rest)
    | [] => false
  start || cs.getLast? == some ':' ||
    (pairs cs).any fun (a, b) =>
      (a == ':' && (b == ' ' || b == '\t')) || (b == '#' && (a == ' ' || a == '\t' || isBreak a))

/-- Whether a blank stands at either end of a text. -/
def hasOuterBlank (cs : List Char) : Bool := cs.head? == some ' ' || cs.getLast? == some ' '

/-- Whether a text has characters that single quotes cannot hold. -/
def needsEscapes (cs : List Char) : Bool :=
  cs.any (fun c => !isPlain c) ||
    (pairs cs).any fun (a, b) => (isBreak a && b == ' ') || (a == ' ' && isBreak b)

/-- Whether a text may stand in a block of lines. -/
def fitsBlock (cs : List Char) : Bool :=
  cs.getLast? != some ' ' && !(cs.any fun c => !isPlain c && c != '\t') &&
    !(pairs cs).any fun (a, b) => a == ' ' && isBreak b

def escapeLetter? (code : Nat) : Option Char :=
  match code with
  | 0x00 => some '0'
  | 0x07 => some 'a'
  | 0x08 => some 'b'
  | 0x09 => some 't'
  | 0x0A => some 'n'
  | 0x0B => some 'v'
  | 0x0C => some 'f'
  | 0x0D => some 'r'
  | 0x1B => some 'e'
  | 0x22 => some '"'
  | 0x5C => some '\\'
  | 0x85 => some 'N'
  | 0xA0 => some '_'
  | 0x2028 => some 'L'
  | 0x2029 => some 'P'
  | _ => none

def escape (c : Char) : Bytes :=
  match escapeLetter? c.toNat with
  | some letter => Text.encode ['\\', letter]
  | none =>
    let upper (width : Nat) : Bytes := Text.toUpper (Text.hex width c.toNat)
    if c.toNat ≤ 0xFF then ("\\x" : Bytes) ++ upper 2
    else if c.toNat ≤ 0xFFFF then ("\\u" : Bytes) ++ upper 4
    else ("\\U" : Bytes) ++ upper 8

def standsInQuotes (c : Char) : Bool := isPlain c && !isBreak c && c != '"' && c != '\\'

/-- A text in double quotes. If it starts with a byte order mark, every character is escaped. -/
def doubleQuoted (cs : List Char) : Bytes :=
  let escapesAll := cs.head? == some '\uFEFF'
  let written := cs.flatMap fun c => if standsInQuotes c && !escapesAll then Text.encode [c] else escape c
  (0x22 :: written) ++ [0x22]

/-- Characters with an indent in front of each line; the flag tells whether they start a line. -/
def indented (indent : Nat) (write : Char → Bytes) : Bool → List Char → Bytes
  | _, [] => []
  | startsLine, c :: rest =>
    if isBreak c then Text.encode [c] ++ indented indent write true rest
    else (if startsLine then List.replicate indent 0x20 else []) ++ write c ++ indented indent write false rest

def singleQuoted (indent : Nat) (cs : List Char) : Bytes :=
  let write (c : Char) : Bytes := if c == '\'' then "''" else Text.encode [c]
  (0x27 :: indented indent write false cs) ++ [0x27]

/-- The mark in front of a block. It tells whether the text starts with a blank, and how many line breaks
it ends in: none, one, or more. -/
def blockMark (cs : List Char) : Bytes :=
  let lead : Bytes := if cs.head?.any fun c => c == ' ' || isBreak c then "2" else []
  let tail : Bytes := match cs.reverse with
    | [] => "-"
    | [last] => if isBreak last then "+" else "-"
    | last :: before :: _ => if !isBreak last then "-" else if isBreak before then "+" else []
  ("|" : Bytes) ++ lead ++ tail

def lineEnd : Bytes := "\n"

/-- A text as a block of lines, with the line of the mark and the end of the last line. A line break at
the front of the text is the end of the line of the mark. -/
def block (indent : Nat) (cs : List Char) : Bytes :=
  blockMark cs ++ (if cs.head?.any isBreak then [] else lineEnd) ++
    indented indent (fun c => Text.encode [c]) true cs ++
    if cs.getLast?.any isBreak then [] else lineEnd

/-- The longest line of base 64. -/
def binaryWidth : Nat := 70

def cutLines : Nat → List Char → List Char
  | 0, _ => []
  | fuel + 1, cs =>
    if cs.isEmpty then [] else cs.take binaryWidth ++ '\n' :: cutLines fuel (cs.drop binaryWidth)

/-- Bytes as a value: base 64 in one line, or in a block if it is long. -/
def binary (indent : Nat) (data : Bytes) : Bytes :=
  let digits := Text.base64 data
  let cs := Text.chars digits
  ("!!binary " : Bytes) ++
    if digits.length < binaryWidth then digits ++ lineEnd else block indent (cutLines cs.length cs)

/-- A text as a value, up to the end of its line. The lines of a block are indented. -/
def scalar (indent : Nat) (text : Bytes) : Bytes :=
  let cs := Text.chars text
  if !Text.isUtf8 text then binary indent text
  else if text.contains 0x0A then
    if fitsBlock cs then block indent cs else doubleQuoted cs ++ lineEnd
  else if readsAsOther text || needsEscapes cs then doubleQuoted cs ++ lineEnd
  else if looksLikeMarkup cs || hasOuterBlank cs || cs.any isBreak then singleQuoted indent cs ++ lineEnd
  else text ++ lineEnd

end LyaLang.Yaml
