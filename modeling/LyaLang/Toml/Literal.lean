import LyaLang.Text.Decimal
import LyaLang.Text.Letter
import LyaLang.Text.Scientific
import LyaLang.Text.Utf8
import LyaLang.Time.Moment

/-! # TOML literals

The values that a TOML document may write, and the rules for the ones that are a single word: numbers,
truth values, and moments of time. Lists and tables are in the grammar.
-/

namespace LyaLang.Toml

abbrev Key := List Bytes

/-- A value as it is written. -/
inductive Literal where
  | text (value : Bytes)
  | integer (value : Int64)
  | float (source : Bytes)
  | boolean (value : Bool)
  | moment (source : Bytes)
  | array (items : List Literal)
  | table (pairs : List (Key × Literal))

/-- Whether a character may stand in a key without quotes. -/
def isBare (c : Char) : Bool := c.isAlphanum || c == '_' || c == '-'

def ofChars (cs : List Char) : Bytes := Text.encode cs

def isHexDigit (c : Char) : Bool := c.isDigit || ('a' ≤ c && c ≤ 'f') || ('A' ≤ c && c ≤ 'F')

def digitValue (c : Char) : Nat :=
  if c.isDigit then c.toNat - 48 else if 'a' ≤ c then c.toNat - 87 else c.toNat - 55

def digitsIn (base : Nat) (digits : List Char) : Nat :=
  digits.foldl (fun n c => n * base + digitValue c) 0

/-- Whether every underscore stands after a digit, and the last character is a digit. -/
def underscoresFit (cs : List Char) : Bool :=
  let (fits, last) := cs.foldl (fun (fits, last) c => (fits && (c != '_' || last), isHexDigit c)) (true, false)
  fits && last

/-- Whether a number starts with a zero that says nothing. -/
def hasLeadingZero : List Char → Bool
  | '0' :: c :: _ => c != 'b' && c != 'o' && c != 'x'
  | '-' :: '0' :: _ :: _ | '+' :: '0' :: _ :: _ => true
  | _ => false

/-- The magnitude of an integer without sign and underscores. -/
def magnitude : List Char → Nat
  | '0' :: 'x' :: digits => digitsIn 16 digits
  | '0' :: 'o' :: digits => digitsIn 8 digits
  | '0' :: 'b' :: digits => digitsIn 2 digits
  | digits => digitsIn 10 digits

def integer? (source : List Char) : Option Literal :=
  if !underscoresFit source || hasLeadingZero source then none
  else
    let (negative, digits) := Text.Scientific.splitSign (source.filter (· != '_'))
    let value : Int := if negative then -(magnitude digits : Int) else magnitude digits
    if Text.fitsInt64 value then some (.integer (Int64.ofInt value)) else none

def floatParts (source : List Char) : List (List Char) :=
  (source.splitBy fun a b => !(isMark a) && !(isMark b)).filter fun part => !part.any isMark
where
  /-- Whether a character ends a part. -/
  isMark (c : Char) : Bool := c == '.' || c == 'e' || c == 'E'

/-- Whether every point stands before a digit. -/
def pointsFit : List Char → Bool
  | '.' :: c :: rest => c.isDigit && pointsFit (c :: rest)
  | ['.'] => false
  | _ :: rest => pointsFit rest
  | [] => true

/-- A number with a point or an exponent. -/
def float? (source : List Char) : Option Literal := do
  let parts := floatParts source
  if !parts.all underscoresFit || parts.head?.any hasLeadingZero || !pointsFit source then none
  let number ← Text.Scientific.read? (source.filter (· != '_'))
  if number.isFinite then return .float (ofChars source) else none

def afterDate? : List Char → Option (List Char)
  | a :: b :: c :: d :: rest => do
    if [a, b, c, d].any (!·.isDigit) then none
    let (month, rest) ← Moment.twoDigits? (← Moment.after? '-' rest)
    let (day, rest) ← Moment.twoDigits? (← Moment.after? '-' rest)
    if Moment.isDay (Text.digitsNat [a, b, c, d]) month day then return rest else none
  | _ => none

/-- What follows a time of day, whose seconds may be left out. -/
def afterTime? (source : List Char) : Option (List Char) := do
  let (hour, rest) ← Moment.twoDigits? source
  let (minute, rest) ← Moment.twoDigits? (← Moment.after? ':' rest)
  if !Moment.isTime hour minute 0 then none
  match rest with
  | ':' :: rest =>
    let (second, rest) ← Moment.twoDigits? rest
    if !Moment.isTime hour minute second then none
    match rest with
    | '.' :: c :: rest => if c.isDigit then return rest.dropWhile Char.isDigit else none
    | rest => return rest
  | rest => return rest

/-- Whether a text is a date, a time of day, or a date and a time with or without an offset. -/
def isMoment (source : List Char) : Bool :=
  match afterDate? source with
  | some [] => true
  | some ('T' :: rest) => (afterTime? rest).any fun zone => zone.isEmpty || Moment.isOffset zone
  | some _ => false
  | none => afterTime? source == some []

/-- A moment of time. A blank or a small letter may stand for the letter between date and time. -/
def moment? (source : List Char) : Option Literal :=
  let trimmed := (source.reverse.dropWhile (· == ' ')).reverse
  let upper := trimmed.map fun c => if c == 't' || c == ' ' then 'T' else if c == 'z' then 'Z' else c
  if isMoment upper then some (.moment (ofChars trimmed)) else none

/-- Split off the longest beginning of characters in a class. -/
def span (p : Char → Bool) (cs : List Char) : List Char × List Char := (cs.takeWhile p, cs.dropWhile p)

/-- Whether a character may go on a number with a point or an exponent. -/
def isFloatPart (c : Char) : Bool :=
  c.isDigit || c == '_' || c == '.' || c == '-' || c == '+' || c == 'e' || c == 'E'

/-- Whether a character may go on a moment of time. -/
def isMomentPart (c : Char) : Bool :=
  c.isDigit || ['-', ':', 'T', 't', ' ', '.', 'Z', 'z', '+'].contains c

/-- Read an integer in a base other than ten, given whether a character is one of its digits. -/
def based? (isDigit : Char → Bool) (cs : List Char) : Option (Literal × List Char) := do
  let digits := cs.drop 2
  if !digits.head?.any isDigit then none
  let (word, rest) := span (fun c => isDigit c || c == '_') digits
  return (← integer? (cs.take 2 ++ word), rest)

/-- Read a decimal integer or a float after what has been read of it. -/
def decimal? (start cs : List Char) : Option (Literal × List Char) := do
  let (word, rest) := span (fun c => c.isDigit || c == '_') cs
  match rest with
  | '.' :: _ | 'e' :: _ | 'E' :: _ =>
    let (word, rest) := span isFloatPart cs
    return (← float? (start ++ word), rest)
  | _ => return (← integer? (start ++ word), rest)

def digits? (cs : List Char) : Option (Literal × List Char) :=
  match cs with
  | '0' :: 'x' :: _ => based? isHexDigit cs
  | '0' :: 'o' :: _ => based? (fun c => '0' ≤ c && c ≤ '7') cs
  | '0' :: 'b' :: _ => based? (fun c => c == '0' || c == '1') cs
  | cs =>
    match cs.dropWhile Char.isDigit with
    | '-' :: _ | ':' :: _ => do
      let (word, rest) := span isMomentPart cs
      return (← moment? word, rest)
    | _ => decimal? [] cs

def signed? (sign : Char) (cs : List Char) : Option (Literal × List Char) :=
  match cs with
  | 'i' :: 'n' :: 'f' :: rest => some (.float (ofChars [sign, 'i', 'n', 'f']), rest)
  | 'n' :: 'a' :: 'n' :: rest => some (.float (ofChars [sign, 'n', 'a', 'n']), rest)
  | '0' :: 'b' :: _ | '0' :: 'o' :: _ | '0' :: 'x' :: _ => none
  | c :: _ => if c.isDigit then decimal? [sign] cs else none
  | [] => none

def word? (cs : List Char) : Option (Literal × List Char) :=
  match cs with
  | '-' :: rest => signed? '-' rest
  | '+' :: rest => signed? '+' rest
  | 'i' :: 'n' :: 'f' :: rest => some (.float "inf", rest)
  | 'n' :: 'a' :: 'n' :: rest => some (.float "nan", rest)
  | c :: _ =>
    if c.isDigit then digits? cs
    else
      let (word, rest) := span Text.isLetter cs
      if word == "true".toList then some (.boolean true, rest)
      else if word == "false".toList then some (.boolean false, rest)
      else none
  | [] => none

end LyaLang.Toml
