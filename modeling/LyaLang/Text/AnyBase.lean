import LyaLang.Text.Decimal

/-! # Integers in several bases

An integer may be written in base two, eight or sixteen after `0b`, `0o` or `0x`, in base eight after a
zero, and in base ten otherwise. An underscore may stand between digits and after the base.
-/

namespace LyaLang.Text

/-- Why a text is no integer. -/
inductive IntegerFault where
  | malformed
  | outOfRange
deriving DecidableEq, Repr

def lowerByte (b : UInt8) : UInt8 := if 0x41 ≤ b && b ≤ 0x5A then b + 0x20 else b

def baseOf? (letter : UInt8) : Option Nat :=
  match lowerByte letter with
  | 0x62 => some 2
  | 0x6F => some 8
  | 0x78 => some 16
  | _ => none

def splitBase : Bytes → Nat × Bytes
  | 0x30 :: letter :: digit :: rest =>
    match baseOf? letter with
    | some base => (base, digit :: rest)
    | none => (8, letter :: digit :: rest)
  | 0x30 :: rest => (8, rest)
  | digits => (10, digits)

/-- The value of digits in a base, up to 64 bits. Underscores are passed over. -/
def digitsValue (base : Nat) : Nat → Bytes → Except IntegerFault Nat
  | value, [] => .ok value
  | value, b :: rest =>
    if b == 0x5F then digitsValue base value rest
    else match (hexValue? b).filter (· < base) with
      | none => .error .malformed
      | some digit =>
        let next := value * base + digit
        if next < 0x10000000000000000 then digitsValue base next rest else .error .outOfRange

/-- Whether every underscore stands between a digit or the base before it and a digit after it. -/
def underscoresFit (isHex : Bool) : Bool → Bytes → Bool
  | _, [] => true
  | afterDigit, 0x5F :: rest =>
    afterDigit && (rest.head?.any fun b => isDigitOf b) && underscoresFit isHex false rest
  | _, b :: rest => underscoresFit isHex (isDigitOf b) rest
where
  isDigitOf (b : UInt8) : Bool :=
    (0x30 ≤ b && b ≤ 0x39) || (isHex && 0x61 ≤ lowerByte b && lowerByte b ≤ 0x66)

/-- Read a natural number of 64 bits in any base. -/
def parseNatAnyBase (text : Bytes) : Except IntegerFault Nat := do
  if text.isEmpty then throw .malformed
  let (base, digits) := splitBase text
  let value ← digitsValue base 0 digits
  let named := match text with
    | 0x30 :: letter :: _ => (baseOf? letter).isSome
    | _ => false
  let plain := if named then text.drop 2 else text
  if underscoresFit (base == 16) named plain then return value else throw .malformed

/-- Whether a text starts with a minus sign, and what follows its sign if there is one. -/
def splitSign : Bytes → Bool × Bytes
  | 0x2D :: rest => (true, rest)
  | 0x2B :: rest => (false, rest)
  | rest => (false, rest)

/-- A number with its sign, if it fits into 64 bits. -/
def signed (negative : Bool) (value : Nat) : Except IntegerFault Int64 :=
  let i : Int := if negative then -(value : Int) else value
  if fitsInt64 i then .ok (Int64.ofInt i) else .error .outOfRange

def parseAnyBase (text : Bytes) : Except IntegerFault Int64 := do
  let (negative, body) := splitSign text
  signed negative (← parseNatAnyBase body)

def parseInBase (base : Nat) (text : Bytes) : Except IntegerFault Int64 := do
  let (negative, body) := splitSign text
  if body.isEmpty then throw .malformed
  signed negative (← digitsValue base 0 body)

end LyaLang.Text
