import LyaLang.Text.Decimal
import LyaLang.Text.Printable
import LyaLang.Text.Utf8

/-! # Quoted text

A quoted text shows printable characters as they are and writes all else as an escape: the quote and
the backslash after a backslash, seven control characters by letter, a byte outside every
well-formed sequence as `\x` with two digits, and other characters by code. Reading accepts these
escapes, octal escapes, and raw text between grave accents.
-/

namespace LyaLang.Text

def controlLetter? (code : Nat) : Option Char :=
  match code with
  | 0x07 => some 'a'
  | 0x08 => some 'b'
  | 0x0C => some 'f'
  | 0x0A => some 'n'
  | 0x0D => some 'r'
  | 0x09 => some 't'
  | 0x0B => some 'v'
  | _ => none

def escapeChar (quote : Char) (c : Char) : Bytes :=
  if c == quote || c == '\\' then encode ['\\', c]
  else if isPrintable c then encode [c]
  else match controlLetter? c.toNat with
    | some letter => encode ['\\', letter]
    | none =>
      if c.toNat < 0x20 || c.toNat == 0x7F then ("\\x" : Bytes) ++ hex 2 c.toNat
      else if c.toNat < 0x10000 then ("\\u" : Bytes) ++ hex 4 c.toNat
      else ("\\U" : Bytes) ++ hex 8 c.toNat

/-- A glyph inside quotes; a stray byte is written by value. -/
def escapeGlyph (quote : Char) (g : Glyph) : Bytes :=
  if g.isMalformed then ("\\x" : Bytes) ++ hexText g.raw else escapeChar quote g.char

def quote (text : Bytes) : Bytes :=
  (0x22 :: (glyphs text).flatMap (escapeGlyph '"')) ++ [0x22]

def quoteChar (c : Char) : Bytes :=
  (0x27 :: escapeChar '\'' c) ++ [0x27]

/-- One element of a quoted text: a character, or a single byte given by value. -/
inductive QuotedUnit where
  | char (c : Char)
  | byte (b : UInt8)
deriving DecidableEq, Repr

namespace QuotedUnit

def bytes : QuotedUnit → Bytes
  | char c => encode [c]
  | byte b => [b]

/-- The code that the element stands for when it is read as a character. -/
def code : QuotedUnit → Nat
  | char c => c.toNat
  | byte b => b.toNat

end QuotedUnit

/-- The number that the first `count` hexadecimal digits spell, and the text after them. -/
def readHex? : Nat → Nat → Bytes → Option (Nat × Bytes)
  | 0, value, rest => some (value, rest)
  | _ + 1, _, [] => none
  | count + 1, value, byte :: rest => do readHex? count (value * 16 + (← hexValue? byte)) rest

def readCode? (count : Nat) (rest : Bytes) : Option (QuotedUnit × Bytes) := do
  let (value, rest) ← readHex? count 0 rest
  if value.isValidChar then some (.char (Char.ofNat value), rest) else none

def octal? (byte : UInt8) : Option Nat :=
  if 0x30 ≤ byte && byte ≤ 0x37 then some (byte.toNat - 0x30) else none

/-- The element after a backslash, and the text after it. -/
def readEscape? (quote : UInt8) : Bytes → Option (QuotedUnit × Bytes)
  | [] => none
  | letter :: rest =>
    match Char.ofNat letter.toNat with
    | 'a' => some (.char (Char.ofNat 0x07), rest)
    | 'b' => some (.char (Char.ofNat 0x08), rest)
    | 'f' => some (.char (Char.ofNat 0x0C), rest)
    | 'n' => some (.char '\n', rest)
    | 'r' => some (.char '\r', rest)
    | 't' => some (.char '\t', rest)
    | 'v' => some (.char (Char.ofNat 0x0B), rest)
    | '\\' => some (.char '\\', rest)
    | 'x' => (readHex? 2 0 rest).map fun (value, rest) => (.byte value.toUInt8, rest)
    | 'u' => readCode? 4 rest
    | 'U' => readCode? 8 rest
    | _ =>
      if letter == 0x27 || letter == 0x22 then
        if letter == quote then some (.byte letter, rest) else none
      else match octal? letter, rest with
        | some high, middle :: low :: rest => do
          let value := high * 64 + (← octal? middle) * 8 + (← octal? low)
          if value ≤ 255 then some (.byte value.toUInt8, rest) else none
        | _, _ => none

def readUnit? (quote : UInt8) : Bytes → Option (QuotedUnit × Bytes)
  | [] => none
  | byte :: rest =>
    if byte == quote then none
    else if byte == 0x5C then readEscape? quote rest
    else
      let glyph := firstGlyph byte rest
      some (.char glyph.char, (byte :: rest).drop glyph.width)

/-- The content up to the closing quote, which must end the text. At most `fuel` elements are read. -/
def readQuoted? (quote : UInt8) : Nat → Bytes → Option Bytes
  | 0, _ => none
  | _ + 1, [] => none
  | fuel + 1, byte :: rest =>
    if byte == quote then if rest.isEmpty then some [] else none
    else if byte == 0x0A then none
    else do
      let (unit, rest) ← readUnit? quote (byte :: rest)
      return unit.bytes ++ (← readQuoted? quote fuel rest)

def readSingle? (rest : Bytes) : Option Bytes :=
  if rest == [0x27] then some []
  else if rest.head? == some 0x0A then none
  else do
    let (unit, rest) ← readUnit? 0x27 rest
    if rest == [0x27] then some unit.bytes else none

/-- The content of a raw text: everything up to the closing grave accent, less carriage returns. -/
def readRaw? (rest : Bytes) : Option Bytes :=
  let content := rest.takeWhile (· != 0x60)
  if rest.drop content.length == [0x60] then some (content.filter (· != 0x0D)) else none

def unquote? : Bytes → Option Bytes
  | 0x22 :: rest => readQuoted? 0x22 (rest.length + 1) rest
  | 0x27 :: rest => readSingle? rest
  | 0x60 :: rest => readRaw? rest
  | _ => none

end LyaLang.Text
