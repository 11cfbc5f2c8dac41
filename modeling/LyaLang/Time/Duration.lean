import LyaLang.Text.Decimal

/-! # Durations

A duration is a sum of decimal numbers with units, from nanoseconds to hours, with an optional sign in
front. It is counted in nanoseconds of 64 bits.
-/

namespace LyaLang.Duration

def unit? (name : Bytes) : Option Nat :=
  ([("ns", 1), ("us", 1000), ("µs", 1000), ("μs", 1000), ("ms", 1000000), ("s", 1000000000),
    ("m", 60000000000), ("h", 3600000000000)].find? fun (n, _) => (n : Bytes) == name).map (·.2)

def isDigit (b : UInt8) : Bool := 0x30 ≤ b && b ≤ 0x39

def digitsValue (digits : Bytes) : Nat := digits.foldl (fun n b => n * 10 + (b.toNat - 0x30)) 0

/-- The greatest sum of parts. -/
def limit : Nat := 0x8000000000000000

/-- Read one number with its unit. -/
def part? (text : Bytes) : Option (Nat × Bytes) := do
  let whole := text.takeWhile isDigit
  let rest := text.dropWhile isDigit
  let (fraction, rest) := match rest with
    | 0x2E :: rest => (rest.takeWhile isDigit, rest.dropWhile isDigit)
    | rest => ([], rest)
  if whole.isEmpty && fraction.isEmpty then none
  let name := rest.takeWhile fun b => b != 0x2E && !isDigit b
  let unit ← unit? name
  let value := digitsValue whole
  if limit < value || limit / unit < value then none
  let total := value * unit + digitsValue fraction * unit / Nat.pow 10 fraction.length
  if limit < total then none
  return (total, rest.drop name.length)

/-- Add at most `fuel` parts to what has been read. The sum is kept in 64 bits. -/
def sum? : Nat → Nat → Bytes → Option Nat
  | _, total, [] => some total
  | 0, _, _ => none
  | fuel + 1, total, text => do
    let (value, rest) ← part? text
    let next := (total + value) % 0x10000000000000000
    if limit < next then none else sum? fuel next rest

def parse? (text : Bytes) : Option Int64 := do
  let (negative, body) := match text with
    | 0x2D :: rest => (true, rest)
    | 0x2B :: rest => (false, rest)
    | rest => (false, rest)
  if body == "0" then return 0
  if body.isEmpty then none
  let total ← sum? body.length 0 body
  if negative then return Int64.ofInt (-(total : Int))
  if total < limit then return Int64.ofNat total else none

end LyaLang.Duration
