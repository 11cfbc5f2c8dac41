import LyaLang.Text.Decimal

/-! # Decimal numbers with an exponent

A number has digits before or after a point, perhaps an exponent, and perhaps a sign. Only its size is
kept, exactly, and it is told whether double precision reaches that far.
-/

namespace LyaLang.Text

/-- The number `mantissa · 10 ^ exponent`. -/
structure Scientific where
  mantissa : Nat
  exponent : Int
deriving DecidableEq, Repr

namespace Scientific

/-- Whether a text starts with a minus sign, and what follows its sign if there is one. -/
def splitSign : List Char → Bool × List Char
  | '-' :: rest => (true, rest)
  | '+' :: rest => (false, rest)
  | rest => (false, rest)

/-- The exponent of a number, given what follows its digits. -/
def exponent? : List Char → Option Int
  | [] => some 0
  | e :: rest =>
    let (negative, digits) := splitSign rest
    if (e == 'e' || e == 'E') && !digits.isEmpty && digits.all Char.isDigit then
      some (if negative then -(digitsNat digits : Int) else digitsNat digits)
    else none

/-- The size of a number. -/
def read? (text : List Char) : Option Scientific := do
  let (_, body) := splitSign text
  let whole := body.takeWhile Char.isDigit
  let (fraction, after) := match body.dropWhile Char.isDigit with
    | '.' :: rest => (rest.takeWhile Char.isDigit, rest.dropWhile Char.isDigit)
    | rest => ([], rest)
  let exponent ← exponent? after
  if whole.isEmpty && fraction.isEmpty then none
  return ⟨digitsNat (whole ++ fraction), exponent - fraction.length⟩

/-- Whether a number is below everything that rounds to infinity in double precision. -/
def isFinite (s : Scientific) : Bool :=
  let bound := (Nat.pow 2 54 - 1) * Nat.pow 2 970
  let width := (Nat.toDigits 10 s.mantissa).length + s.exponent
  if s.mantissa == 0 || width < 300 then true
  else if width > 310 then false
  else if 0 ≤ s.exponent then s.mantissa * Nat.pow 10 s.exponent.toNat < bound
  else s.mantissa < bound * Nat.pow 10 (-s.exponent).toNat

end Scientific

end LyaLang.Text
