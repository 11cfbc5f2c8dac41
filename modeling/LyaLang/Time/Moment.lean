import LyaLang.Text.Decimal

/-! # Written moments

What the written forms of dates and times have in common: numbers of one or two digits, days that a
month has, and offsets from universal time.
-/

namespace LyaLang.Moment

def twoDigits? : List Char → Option (Nat × List Char)
  | a :: b :: rest => if a.isDigit && b.isDigit then some (Text.digitsNat [a, b], rest) else none
  | _ => none

def oneOrTwoDigits? : List Char → Option (Nat × List Char)
  | a :: b :: rest =>
    if !a.isDigit then none
    else if b.isDigit then some (Text.digitsNat [a, b], rest) else some (Text.digitsNat [a], b :: rest)
  | [a] => if a.isDigit then some (Text.digitsNat [a], []) else none
  | [] => none

/-- What follows a given character. -/
def after? (c : Char) : List Char → Option (List Char)
  | d :: rest => if c == d then some rest else none
  | [] => none

def daysIn (year month : Nat) : Nat :=
  if month == 2 then
    if year % 4 == 0 && (year % 100 != 0 || year % 400 == 0) then 29 else 28
  else if month == 4 || month == 6 || month == 9 || month == 11 then 30 else 31

def isDay (year month day : Nat) : Bool := 1 ≤ month && month ≤ 12 && 1 ≤ day && day ≤ daysIn year month

def isTime (hour minute second : Nat) : Bool := hour < 24 && minute < 60 && second < 60

def isOffset : List Char → Bool
  | ['Z'] => true
  | sign :: rest =>
    (sign == '+' || sign == '-') && Option.isSome do
      let (hour, rest) ← twoDigits? rest
      let (minute, rest) ← twoDigits? (← after? ':' rest)
      if 24 < hour || 60 < minute || !rest.isEmpty then none
      return ()
  | [] => false

end LyaLang.Moment
