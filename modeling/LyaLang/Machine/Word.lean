import LyaLang.Text.Quoted

/-! # Machine words

A word of memory is tagged with the kind of value it holds. Integers, booleans and characters are
64-bit numbers; a text word holds text itself. Decoded programs may hold words of other kinds, and a
number and a text at once; both parts are kept.
-/

namespace LyaLang

/-- What a word holds. -/
inductive WordKind where
  | int | bool | char | text
  | other (tag : UInt8)
deriving DecidableEq, Repr, Inhabited

namespace WordKind

def ofTag (tag : UInt8) : WordKind :=
  if tag == 0 then int else if tag == 1 then bool else if tag == 2 then char
  else if tag == 3 then text else other tag

def tag : WordKind → UInt8
  | int => 0 | bool => 1 | char => 2 | text => 3 | other tag => tag

def name : WordKind → Bytes
  | int => "int" | bool => "bool" | char => "char" | text => "text"
  | other tag => ("kind(" : Bytes) ++ Text.ofNat tag.toNat ++ (")" : Bytes)

end WordKind

/-- One word of memory. The default is the integer zero. -/
structure Word where
  kind : WordKind := .int
  number : Int64 := 0
  text : Bytes := []
deriving DecidableEq, Repr, Inhabited

namespace Word

def int (n : Int64) : Word := { kind := .int, number := n }

def bool (b : Bool) : Word := { kind := .bool, number := if b then 1 else 0 }

def char (code : Int32) : Word := { kind := .char, number := code.toInt64 }

def ofChar (c : Char) : Word := char (Int32.ofNat c.toNat)

def ofText (t : Bytes) : Word := { kind := .text, text := t }

/-- The number a word stands for; text that is no numeral stands for zero. -/
def toInt (w : Word) : Int64 :=
  match w.kind with
  | .text => (Text.parseInt64? (Text.trim w.text)).getD 0
  | _ => w.number

def isTrue (w : Word) : Bool :=
  match w.kind with
  | .text => !w.text.isEmpty
  | _ => w.number != 0

/-- The character of a word's number, cut to 32 bits. -/
def toChar (w : Word) : Char := Text.charOfInt w.toInt.toInt32.toInt

def display (w : Word) : Bytes :=
  match w.kind with
  | .bool => if w.number != 0 then "true" else "false"
  | .char => Text.encode [Text.charOfInt w.number.toInt32.toInt]
  | .text => w.text
  | _ => Text.ofInt64 w.number

/-- Words are equal when they print alike if either is text, and when their numbers agree otherwise. -/
def same (v w : Word) : Bool :=
  if v.kind == .text || w.kind == .text then v.display == w.display else v.number == w.number

def literal (w : Word) : Bytes :=
  match w.kind with
  | .char => Text.quoteChar (Text.charOfInt w.number.toInt32.toInt)
  | .text => Text.quote w.text
  | _ => w.display

/-- The word that a line of console input stands for: a truth value in any case, an integer, or the
text itself without the white space around it. -/
def ofInput (line : Bytes) : Word :=
  let trimmed := Text.trim line
  let upper := Text.toUpper trimmed
  if upper == ("TRUE" : Bytes) then bool true
  else if upper == ("FALSE" : Bytes) then bool false
  else match Text.parseInt64? trimmed with
    | some n => int n
    | none => ofText trimmed

end Word

end LyaLang
