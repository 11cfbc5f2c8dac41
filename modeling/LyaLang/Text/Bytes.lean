/-! # Byte text

Everything the tools read or print is a sequence of bytes. It is usually UTF-8, but source files,
console input and string pools may hold any bytes, and all of them are kept.
-/

namespace LyaLang

abbrev Bytes := List UInt8

namespace Bytes

def ofString (s : String) : Bytes :=
  s.toList.flatMap String.utf8EncodeChar

instance : Coe String Bytes := ⟨ofString⟩

def join (separator : Bytes) (parts : List Bytes) : Bytes :=
  List.intercalate separator parts

/-- Whether `start` is an initial segment of `text`. -/
def startsWith (text start : Bytes) : Bool :=
  start.isPrefixOf text

/-- The parts between the occurrences of a separating byte; there is always at least one. -/
def split (separator : UInt8) : Bytes → List Bytes
  | [] => [[]]
  | byte :: rest =>
    if byte == separator then [] :: split separator rest
    else match split separator rest with
      | [] => [[byte]]
      | first :: others => (byte :: first) :: others

/-- The text before the first occurrence of a pattern and the text after it. -/
def cut? (pattern : Bytes) : Bytes → Option (Bytes × Bytes)
  | [] => if pattern.isEmpty then some ([], []) else none
  | byte :: rest =>
    if pattern.isPrefixOf (byte :: rest) then some ([], (byte :: rest).drop pattern.length)
    else (cut? pattern rest).map fun (before, after) => (byte :: before, after)

def dropRightWhile (p : UInt8 → Bool) (text : Bytes) : Bytes :=
  (text.reverse.dropWhile p).reverse

/-- Byte-wise lexicographic comparison. -/
def before (left right : Bytes) : Bool :=
  match left, right with
  | [], [] => false
  | [], _ :: _ => true
  | _ :: _, [] => false
  | x :: xs, y :: ys => x < y || (x == y && before xs ys)

/-- A number in a fixed count of bytes, the most significant first. -/
def bigEndian : Nat → Nat → Bytes
  | 0, _ => []
  | count + 1, n => bigEndian count (n / 256) ++ [n.toUInt8]

end Bytes

end LyaLang
