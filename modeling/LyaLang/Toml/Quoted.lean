import LyaLang.Toml.Literal

/-! # Quoted text in TOML

A text in double quotes has escapes and a text in single quotes has none. Text in three quotes may go
over several lines; a line break right after the opening is not part of it, and in double quotes a
backslash at the end of a line takes away the white space that follows. Such a text may end in up to
two quotes of its own, and after an escaped backslash in three.
-/

namespace LyaLang.Toml

def isBreak (c : Char) : Bool := c == '\n' || c == '\r'

def escaped? : Char → Option Char
  | 'b' => some '\x08'
  | 't' => some '\t'
  | 'n' => some '\n'
  | 'f' => some '\x0c'
  | 'r' => some '\r'
  | 'e' => some '\x1b'
  | '"' => some '"'
  | '\\' => some '\\'
  | _ => none

def coded? (digits : List Char) : Option Char :=
  if digits.all isHexDigit then
    let code := digitsIn 16 digits
    if code.isValidChar then some (Char.ofNat code) else none
  else none

/-- Put a character, if there is one, in front of a text that was read. -/
def cons? (c : Option Char) (rest : Option (List Char × List Char)) : Option (List Char × List Char) := do
  let (text, after) ← rest
  return ((← c) :: text, after)

/-- Read a text after its opening double quote. -/
def basic? : List Char → Option (List Char × List Char)
  | [] => none
  | '"' :: rest => some ([], rest)
  | '\\' :: 'x' :: a :: b :: rest => cons? (coded? [a, b]) (basic? rest)
  | '\\' :: 'u' :: a :: b :: c :: d :: rest => cons? (coded? [a, b, c, d]) (basic? rest)
  | '\\' :: 'U' :: a :: b :: c :: d :: e :: f :: g :: h :: rest =>
    cons? (coded? [a, b, c, d, e, f, g, h]) (basic? rest)
  | '\\' :: c :: rest => cons? (escaped? c) (basic? rest)
  | c :: rest => if isBreak c then none else cons? (some c) (basic? rest)

/-- Read a text after its opening single quote. -/
def raw? : List Char → Option (List Char × List Char)
  | [] => none
  | '\'' :: rest => some ([], rest)
  | c :: rest => if isBreak c then none else cons? (some c) (raw? rest)

/-- The place in a text over several lines: among its characters, or after a backslash before or after
the end of the line. -/
inductive Fold where
  | plain | opened | broken
deriving DecidableEq, Repr

/-- Read a text after its three opening double quotes. -/
def basicLines? : Fold → List Char → Option (List Char × List Char)
  | _, [] => none
  | .opened, '\n' :: rest => basicLines? .broken rest
  | .opened, ' ' :: rest | .opened, '\t' :: rest | .opened, '\r' :: rest => basicLines? .opened rest
  | .opened, _ => none
  | .broken, ' ' :: rest | .broken, '\t' :: rest | .broken, '\r' :: rest | .broken, '\n' :: rest =>
    basicLines? .broken rest
  | _, '"' :: '"' :: '"' :: '"' :: '"' :: '"' :: _ => none
  | _, '"' :: '"' :: '"' :: '"' :: '"' :: rest => some (['"', '"'], rest)
  | _, '"' :: '"' :: '"' :: '"' :: rest => some (['"'], rest)
  | _, '"' :: '"' :: '"' :: rest => some ([], rest)
  | _, '\\' :: ' ' :: rest | _, '\\' :: '\t' :: rest | _, '\\' :: '\r' :: rest => basicLines? .opened rest
  | _, '\\' :: '\n' :: rest => basicLines? .broken rest
  | _, '\\' :: '\\' :: '"' :: '"' :: '"' :: '"' :: '"' :: '"' :: rest =>
    if rest.head? == some '"' then none else some (['\\', '"', '"', '"'], rest)
  | _, '\\' :: 'x' :: a :: b :: rest => cons? (coded? [a, b]) (basicLines? .plain rest)
  | _, '\\' :: 'u' :: a :: b :: c :: d :: rest => cons? (coded? [a, b, c, d]) (basicLines? .plain rest)
  | _, '\\' :: 'U' :: a :: b :: c :: d :: e :: f :: g :: h :: rest =>
    cons? (coded? [a, b, c, d, e, f, g, h]) (basicLines? .plain rest)
  | _, '\\' :: c :: rest => cons? (escaped? c) (basicLines? .plain rest)
  | _, c :: rest => cons? (some c) (basicLines? .plain rest)

/-- Read a text after its three opening single quotes. -/
def rawLines? : List Char → Option (List Char × List Char)
  | [] => none
  | '\'' :: '\'' :: '\'' :: '\'' :: '\'' :: '\'' :: _ => none
  | '\'' :: '\'' :: '\'' :: '\'' :: '\'' :: rest => some (['\'', '\''], rest)
  | '\'' :: '\'' :: '\'' :: '\'' :: rest => some (['\''], rest)
  | '\'' :: '\'' :: '\'' :: rest => some ([], rest)
  | c :: rest => cons? (some c) (rawLines? rest)

/-- What follows a line break at the front of a text. -/
def dropBreak : List Char → List Char
  | '\n' :: rest => rest
  | '\r' :: '\n' :: rest => rest
  | rest => rest

def quoted? : List Char → Option (List Char × List Char)
  | '"' :: '"' :: '"' :: rest => basicLines? .plain (dropBreak rest)
  | '"' :: rest => basic? rest
  | '\'' :: '\'' :: '\'' :: rest => rawLines? (dropBreak rest)
  | '\'' :: rest => raw? rest
  | _ => none

def escape (b : UInt8) : Bytes :=
  match b with
  | 0x22 => "\\\""
  | 0x5C => "\\\\"
  | 0x08 => "\\b"
  | 0x09 => "\\t"
  | 0x0A => "\\n"
  | 0x0C => "\\f"
  | 0x0D => "\\r"
  | b => if b < 0x20 || b == 0x7F then ("\\u" : Bytes) ++ Text.hex 4 b.toNat else [b]

def quote (text : Bytes) : Bytes := (0x22 :: text.flatMap escape) ++ [0x22]

def Key.text (key : Key) : Bytes :=
  Bytes.join "." (key.map fun part =>
    if !part.isEmpty && (Text.chars part).all isBare then part else quote part)

end LyaLang.Toml
