import LyaLang.Text.AnyBase
import LyaLang.Text.Scientific
import LyaLang.Text.Utf8
import LyaLang.Time.Moment

/-! # What unquoted text is read as in YAML

Text without quotes is read as nothing, a truth value, a number or a moment of time if it has the form
of one. The forms are those of both versions of the format: a number may be in parts of sixty, and
`yes` is a truth value.
-/

namespace LyaLang.Yaml

def reservedWords : List String := [
  "", "~", "null", "Null", "NULL", "true", "True", "TRUE", "false", "False", "FALSE",
  ".nan", ".NaN", ".NAN", ".inf", ".Inf", ".INF", "+.inf", "+.Inf", "+.INF", "-.inf", "-.Inf", "-.INF",
  "y", "Y", "yes", "Yes", "YES", "on", "On", "ON", "n", "N", "no", "No", "NO", "off", "Off", "OFF"]

/-- Whether a text is a decimal number that double precision reaches. -/
def isReal (cs : List Char) : Bool := (Text.Scientific.read? cs).any (·.isFinite)

/-- Whether a text is an integer of 64 bits, with or without a sign bit. A sign may stand behind the base
too if that is two or eight. -/
def isInteger (text : Bytes) : Bool :=
  (Text.parseAnyBase text).isOk || (Text.parseNatAnyBase text).isOk ||
    match text with
    | 0x30 :: 0x62 :: rest => (Text.parseInBase 2 rest).isOk
    | 0x30 :: 0x6F :: rest => (Text.parseInBase 8 rest).isOk
    | _ => false

/-- Whether a text is a number. Underscores may stand anywhere, but only between digits if the number
starts with its point. -/
def isNumber (cs : List Char) : Bool :=
  let plain := cs.filter (· != '_')
  match cs with
  | '.' :: _ => Text.underscoresFit false false (Text.encode cs) && isReal plain
  | c :: _ => (c.isDigit || c == '+' || c == '-') && (isInteger (Text.encode plain) || isReal plain)
  | [] => false

/-- Whether a text is a number in parts of sixty. -/
def isSexagesimal (cs : List Char) : Bool :=
  let body := (Text.Scientific.splitSign cs).2
  let whole := body.takeWhile fun c => c.isDigit || c == '_'
  let rest := body.drop whole.length
  let parts := (Bytes.split 0x3A (Text.encode (rest.takeWhile (· != '.')))).tail
  let fraction := (rest.dropWhile (· != '.')).tail
  whole.head?.any Char.isDigit && !parts.isEmpty && rest.head? == some ':' &&
    (parts.all fun part =>
      match Text.chars part with
      | [a] => a.isDigit
      | [a, b] => '0' ≤ a && a ≤ '5' && b.isDigit
      | _ => false) &&
    fraction.all fun c => c.isDigit || c == '_'

/-- What follows a date, whose year has four digits. -/
def afterDate? (cs : List Char) : Option (List Char) := do
  let year := cs.takeWhile Char.isDigit
  if year.length != 4 then none
  let (month, rest) ← Moment.oneOrTwoDigits? (← Moment.after? '-' (cs.drop 4))
  let (day, rest) ← Moment.oneOrTwoDigits? (← Moment.after? '-' rest)
  if Moment.isDay (Text.digitsNat year) month day then return rest else none

/-- What follows a time of day and a fraction of a second. -/
def afterTime? (cs : List Char) : Option (List Char) := do
  let (hour, rest) ← Moment.oneOrTwoDigits? cs
  let (minute, rest) ← Moment.oneOrTwoDigits? (← Moment.after? ':' rest)
  let (second, rest) ← Moment.oneOrTwoDigits? (← Moment.after? ':' rest)
  if !Moment.isTime hour minute second then none
  match rest with
  | mark :: digit :: more =>
    if (mark == '.' || mark == ',') && digit.isDigit then return more.dropWhile Char.isDigit else return rest
  | rest => return rest

/-- Whether a text is a moment of time: a date, a date and a time with an offset, or a date and a time
with blanks between. -/
def isMoment (cs : List Char) : Bool :=
  match afterDate? cs with
  | some [] => true
  | some ('T' :: rest) | some ('t' :: rest) => (afterTime? rest).any Moment.isOffset
  | some (' ' :: rest) => afterTime? (rest.dropWhile (· == ' ')) == some []
  | _ => false

/-- Whether a text is read as something other than text when it stands without quotes. -/
def readsAsOther (text : Bytes) : Bool :=
  let cs := Text.chars text
  (reservedWords.any fun w => (w : Bytes) == text) || isNumber cs || isSexagesimal cs || isMoment cs

end LyaLang.Yaml
