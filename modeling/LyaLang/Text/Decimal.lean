import LyaLang.Text.Bytes

/-! # Numerals

Decimal numerals of integers, hexadecimal numerals of bytes, and padding to a column. Reading a
decimal numeral accepts one leading sign and then digits only, and fails outside 64 bits.
-/

namespace LyaLang.Text

def ofNat (n : Nat) : Bytes := (Nat.toDigits 10 n).map fun c => c.toNat.toUInt8

def ofInt (i : Int) : Bytes :=
  if i < 0 then 0x2D :: ofNat i.natAbs else ofNat i.natAbs

def ofInt64 (i : Int64) : Bytes := ofInt i.toInt

def digit? (byte : UInt8) : Option Nat :=
  if 0x30 ≤ byte && byte ≤ 0x39 then some (byte.toNat - 0x30) else none

/-- The number that digits spell after those already read. -/
def digitsValue? (value : Nat) : Bytes → Option Nat
  | [] => some value
  | byte :: rest => do digitsValue? (value * 10 + (← digit? byte)) rest

def digitsNat (digits : List Char) : Nat := digits.foldl (fun n c => n * 10 + (c.toNat - 48)) 0

/-- A natural number from one or more digits. -/
def parseNat? (text : Bytes) : Option Nat :=
  if text.isEmpty then none else digitsValue? 0 text

/-- An integer from an optional sign and one or more digits. -/
def parseInt? : Bytes → Option Int
  | 0x2D :: digits => (parseNat? digits).map fun n => -(n : Int)
  | 0x2B :: digits => (parseNat? digits).map fun n => (n : Int)
  | digits => (parseNat? digits).map fun n => (n : Int)

/-- Whether an integer is a 64-bit two's-complement value. -/
def fitsInt64 (i : Int) : Bool := -0x8000000000000000 ≤ i && i < 0x8000000000000000

def parseInt64? (text : Bytes) : Option Int64 := do
  let i ← parseInt? text
  if fitsInt64 i then some (Int64.ofInt i) else none

def hexDigit (n : Nat) : UInt8 := if n < 10 then (0x30 + n).toUInt8 else (0x57 + n).toUInt8

/-- The last `width` hexadecimal digits of a number, in lower case. -/
def hex : Nat → Nat → Bytes
  | 0, _ => []
  | width + 1, n => hex width (n / 16) ++ [hexDigit (n % 16)]

/-- Every byte as two hexadecimal digits. -/
def hexText (bytes : Bytes) : Bytes := bytes.flatMap fun b => hex 2 b.toNat

/-- The value of a hexadecimal digit of either case. -/
def hexValue? (byte : UInt8) : Option Nat :=
  if 0x30 ≤ byte && byte ≤ 0x39 then some (byte.toNat - 0x30)
  else if 0x61 ≤ byte && byte ≤ 0x66 then some (byte.toNat - 0x57)
  else if 0x41 ≤ byte && byte ≤ 0x46 then some (byte.toNat - 0x37)
  else none

/-- The bytes that pairs of hexadecimal digits spell. -/
def parseHex? : Bytes → Option Bytes
  | [] => some []
  | [_] => none
  | high :: low :: rest => do
    let h ← hexValue? high
    let l ← hexValue? low
    return (h * 16 + l).toUInt8 :: (← parseHex? rest)

/-- Fill with `byte` on the left up to a width. -/
def padLeft (byte : UInt8) (width : Nat) (text : Bytes) : Bytes :=
  List.replicate (width - text.length) byte ++ text

end LyaLang.Text
