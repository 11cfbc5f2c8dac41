import LyaLang.Mode.ValueType
import LyaLang.Text.Decimal

/-! # Modes

A mode is the storage layout of the values of a type: how many words they take, the bounds of ranges
and index domains, and the capacity of strings. A string of capacity `n` takes a length word and `n`
character words. Sizes are machine integers and wrap around.
-/

namespace LyaLang

inductive Mode where
  | int | bool | char | string | void
  /-- Strings of at most `length` characters. -/
  | chars (length : Int64)
  | range (base : Mode) (lower upper : Int64)
  /-- Elements of one mode, one for each index between two bounds. -/
  | array (lower upper : Int64) (elem : Mode)
  /-- Addresses of locations. -/
  | ref (target : Mode)
  | named (name : Bytes) (mode : Mode)
deriving DecidableEq, Repr, Inhabited

namespace Mode

def stringCapacity : Int64 := 255

def type : Mode → ValueType
  | int => .int
  | bool => .bool
  | char => .char
  | string | chars _ => .string
  | void => .void
  | range base _ _ => base.type
  | array _ _ elem => .array elem.type
  | ref target => .reference target.type
  | named _ mode => mode.type

/-- The number of words that a variable of a mode takes. -/
def size : Mode → Int64
  | int | bool | char | range _ _ _ | ref _ => 1
  | string => stringCapacity + 1
  | void => 0
  | chars length => length + 1
  | array lower upper elem => (upper - lower + 1) * elem.size
  | named _ mode => mode.size

/-- The lower bound of a range or of an index domain. -/
def lower : Mode → Int64
  | range _ lower _ | array lower _ _ => lower
  | named _ mode => mode.lower
  | _ => 0

/-- The upper bound of a range or of an index domain. -/
def upper : Mode → Int64
  | range _ _ upper | array _ upper _ => upper
  | named _ mode => mode.upper
  | _ => 0

/-- The number of values between the bounds. -/
def length (m : Mode) : Int64 := m.upper - m.lower + 1

def isRange : Mode → Bool
  | range _ _ _ => true
  | named _ mode => mode.isRange
  | _ => false

def capacity : Mode → Int64
  | string => stringCapacity
  | chars length => length
  | named _ mode => mode.capacity
  | _ => 0

/-- The mode of the elements of an array, or of what a reference points to. -/
def elem? : Mode → Option Mode
  | array _ _ elem => some elem
  | ref target => some target
  | named _ mode => mode.elem?
  | _ => none

def name : Mode → Bytes
  | int => "int"
  | bool => "bool"
  | char => "char"
  | string => "string"
  | void => "void"
  | named name _ => name
  | _ => []

def isString (m : Mode) : Bool := m.type == .string

def isArray (m : Mode) : Bool := m.type.isArray

/-- A mode as it is shown in messages, by name if it has one and names are wanted. -/
def textWith : Bool → Mode → Bytes
  | _, int => "int"
  | _, bool => "bool"
  | _, char => "char"
  | names, string =>
    if names then "string" else ("chars[" : Bytes) ++ Text.ofInt64 stringCapacity ++ ("]" : Bytes)
  | _, void => "void"
  | _, chars length => ("chars[" : Bytes) ++ Text.ofInt64 length ++ ("]" : Bytes)
  | _, range base lower upper =>
    let bounds := Text.ofInt64 lower ++ (":" : Bytes) ++ Text.ofInt64 upper
    match base.type with
    | .array _ => ("array[" : Bytes) ++ bounds ++ ("] " : Bytes) ++ ValueType.unknown.text
    | .string => "chars[0]"
    | .reference _ => ("ref " : Bytes) ++ ValueType.unknown.text
    | type => type.text ++ ("(" : Bytes) ++ bounds ++ (")" : Bytes)
  | _, array lower upper elem =>
    ("array[" : Bytes) ++ Text.ofInt64 lower ++ (":" : Bytes) ++ Text.ofInt64 upper ++ ("] " : Bytes) ++
      textWith true elem
  | _, ref target => ("ref " : Bytes) ++ textWith true target
  | names, named name mode => if names && !name.isEmpty then name else textWith false mode

def text (m : Mode) : Bytes := textWith true m

def optionText (m : Option Mode) : Bytes := (m.map text).getD ValueType.unknown.text

def optionType (m : Option Mode) : ValueType := (m.map type).getD .unknown

def optionIsString (m : Option Mode) : Bool := m.any isString

def optionIsArray (m : Option Mode) : Bool := m.any isArray

def ofScalar? : ValueType → Option Mode
  | .int => some int
  | .bool => some bool
  | .char => some char
  | .string => some string
  | _ => none

end Mode

end LyaLang
