import LyaLang.Text.Decimal

/-! # Moments as dates

A moment in nanoseconds since the start of 1970, written as date and time in universal time, to the
second.
-/

namespace LyaLang.Calendar

/-- The year, month and day of a number of days since the start of 1970. Years are counted from March in
eras of four hundred years. -/
def civil (days : Int) : Int × Nat × Nat :=
  let shifted := days + 719468
  let era := shifted.fdiv 146097
  let dayOfEra := (shifted - era * 146097).toNat
  let yearOfEra := (dayOfEra - dayOfEra / 1460 + dayOfEra / 36524 - dayOfEra / 146096) / 365
  let dayOfYear := dayOfEra - (365 * yearOfEra + yearOfEra / 4 - yearOfEra / 100)
  let fromMarch := (5 * dayOfYear + 2) / 153
  let day := dayOfYear - (153 * fromMarch + 2) / 5 + 1
  let month := if fromMarch < 10 then fromMarch + 3 else fromMarch - 9
  let year := yearOfEra + era * 400
  (if month ≤ 2 then year + 1 else year, month, day)

/-- A number in at least two digits. -/
def two (n : Nat) : Bytes := Text.padLeft 0x30 2 (Text.ofNat n)

def text (nanoseconds : Int64) : Bytes :=
  let seconds := nanoseconds.toInt.fdiv 1000000000
  let days := seconds.fdiv 86400
  let rest := (seconds - days * 86400).toNat
  let (year, month, day) := civil days
  Text.padLeft 0x30 4 (Text.ofInt year) ++ ("-" : Bytes) ++ two month ++ ("-" : Bytes) ++ two day ++
    ("T" : Bytes) ++ two (rest / 3600) ++ (":" : Bytes) ++ two (rest / 60 % 60) ++ (":" : Bytes) ++
    two (rest % 60) ++ ("Z" : Bytes)

end LyaLang.Calendar
