import LyaLang.Cbor.Reader
import LyaLang.Text.Utf8
import LyaLang.Wire.Encode

/-! # Programs as bytes: reading

Reading matches the keys of a map with the fields of a record. Unknown keys are passed over, of two
entries with one key the first counts, a field that is missing or null keeps its zero value, and a
value of another type or outside the range of its field makes the data unreadable.
-/

namespace LyaLang

/-- Why bytes are no program. -/
inductive WireError where
  | missingMagic
  | version (found : Nat)
  | unreadable
deriving DecidableEq, Repr

namespace Wire

def tagAdmits : Nat → Cbor → Bool
  | 0, .text _ => true
  | 0, _ => false
  | 1, .uint _ | 1, .nint _ | 1, .float => true
  | 1, _ => false
  | 2, .bytes _ | 3, .bytes _ => true
  | 2, _ | 3, _ => false
  | _, _ => true

/-- A value without its tags. A big number given by bytes becomes a plain one. -/
def untag? : Cbor → Option Cbor
  | .tag number content => do
    if !tagAdmits number content then none
    match number, content with
    | 2, .bytes b => return .uint (Cbor.valueOf b)
    | 3, .bytes b => return .nint (Cbor.valueOf b)
    | _, content => untag? content
  | item => some item

/-- An integer between two bounds; null is zero. -/
def integer? (lower upper : Int) (item : Cbor) : Option Int := do
  let n ← match ← untag? item with
    | .uint n => some (n : Int)
    | .nint n => some (-1 - (n : Int))
    | .simple 20 | .simple 21 => none
    | .simple 22 | .simple 23 => some 0
    | .simple n => some (n : Int)
    | _ => none
  if lower ≤ n && n ≤ upper then some n else none

def byte? (item : Cbor) : Option UInt8 := do return (← integer? 0 255 item).toNat.toUInt8

/-- A machine integer. -/
def int64? (item : Cbor) : Option Int64 := do
  return Int64.ofInt (← integer? (-0x8000000000000000) 0x7FFFFFFFFFFFFFFF item)

/-- A text of well-formed chunks; null is the empty text. -/
def text? (item : Cbor) : Option Bytes := do
  match ← untag? item with
  | .text chunks => if chunks.all Text.isUtf8 then some chunks.flatten else none
  | .simple 22 | .simple 23 => some []
  | _ => none

/-- The items of an array; null is no array. -/
def array? (item : Cbor) : Option (Option (List Cbor)) := do
  match ← untag? item with
  | .array items => some (some items)
  | .simple 22 | .simple 23 => some none
  | _ => none

/-- Whether a key is that of a field. An integer counts modulo `2 ^ 64`, and a text spells the number of
the field. -/
def isKey (number : Nat) : Cbor → Bool
  | .uint n => n == number
  | .nint n => n + 1 + number == 0x10000000000000000
  | .text chunks => chunks.flatten == Text.ofNat number
  | _ => false

def isFieldKey : Cbor → Bool
  | .uint _ | .nint _ => true
  | .text chunks => chunks.all Text.isUtf8
  | _ => false

/-- The entries of a record; null is a record without any. -/
def record? (item : Cbor) : Option (List (Cbor × Cbor)) := do
  match ← untag? item with
  | .map pairs => if pairs.all fun pair => isFieldKey pair.1 then some pairs else none
  | .simple 22 | .simple 23 => some []
  | _ => none

def field? {α : Type} (read : Cbor → Option α) (zero : α) (number : Nat) (pairs : List (Cbor × Cbor)) :
    Option α :=
  match pairs.find? fun pair => isKey number pair.1 with
  | some (_, value) => read value
  | none => some zero

def word? (item : Cbor) : Option Word := do
  let pairs ← record? item
  return {
    kind := WordKind.ofTag (← field? byte? 0 1 pairs)
    number := ← field? int64? 0 2 pairs
    text := ← field? text? [] 3 pairs }

def instruction? (item : Cbor) : Option Instruction := do
  let pairs ← record? item
  return {
    op := Opcode.ofCode (← field? byte? 0 1 pairs)
    a := ← field? int64? 0 2 pairs
    b := ← field? int64? 0 3 pairs
    k := ← field? word? {} 4 pairs }

def list? {α : Type} (read : Cbor → Option α) (item : Cbor) : Option (Option (Array α)) := do
  match ← array? item with
  | none => return none
  | some items => return some (← items.mapM read).toArray

def program? (item : Cbor) : Option (Nat × WireProgram) := do
  let pairs ← record? item
  let version ← field? (integer? 0 65535) 0 1 pairs
  let instructions ← field? (list? instruction?) none 2 pairs
  let strings ← field? (list? text?) none 3 pairs
  let lines ← field? (list? int64?) none 4 pairs
  return (version.toNat, { instructions, strings := strings.getD #[], lines := lines.getD #[] })

end Wire

def WireError.message : WireError → Bytes
  | missingMagic => "bad program encoding: missing magic"
  | version found =>
    ("bad program encoding: version " : Bytes) ++ Text.ofNat found ++ (", want " : Bytes) ++
      Text.ofNat Code.version
  | unreadable => "bytecode: unmarshal program"

def WireProgram.decode (data : Bytes) : Except WireError WireProgram :=
  if !Bytes.startsWith data Wire.magic then .error .missingMagic
  else match Cbor.read? (data.drop Wire.magic.length) >>= Wire.program? with
    | none => .error .unreadable
    | some (version, program) =>
      if version != Code.version then .error (.version version) else .ok program

end LyaLang
