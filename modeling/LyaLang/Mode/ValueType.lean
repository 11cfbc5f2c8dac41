import LyaLang.Text.Bytes

/-! # Types of values

Types are compared by structure. The type of a part that failed to check is unknown; two unknown
types are equal, and an unknown type differs from every known one.
-/

namespace LyaLang

inductive ValueType where
  | unknown
  | int | bool | char | string | void
  | array (elem : ValueType)
  | reference (target : ValueType)
  | range (base : ValueType)
  | other (kind : Bytes)
deriving DecidableEq, Repr, Inhabited

namespace ValueType

def kinds : List String :=
  ["int", "bool", "char", "string", "void", "array", "reference", "discrete-range"]

def ofKind (kind : Bytes) : ValueType :=
  if kind == ("int" : Bytes) then int
  else if kind == ("bool" : Bytes) then bool
  else if kind == ("char" : Bytes) then char
  else if kind == ("string" : Bytes) then string
  else if kind == ("void" : Bytes) then void
  else if kind == ("array" : Bytes) then array unknown
  else if kind == ("reference" : Bytes) then reference unknown
  else if kind == ("discrete-range" : Bytes) then range unknown
  else other kind

def kind? : ValueType → Option Bytes
  | unknown => none
  | int => some "int"
  | bool => some "bool"
  | char => some "char"
  | string => some "string"
  | void => some "void"
  | array _ => some "array"
  | reference _ => some "reference"
  | range _ => some "discrete-range"
  | other kind => some kind

def isKnown : ValueType → Bool
  | unknown => false
  | _ => true

def isArray : ValueType → Bool
  | array _ => true
  | _ => false

def isReference : ValueType → Bool
  | reference _ => true
  | _ => false

def innermost : ValueType → ValueType
  | array elem => elem.innermost
  | t => t

def text : ValueType → Bytes
  | unknown => "<unknown>"
  | int => "int"
  | bool => "bool"
  | char => "char"
  | string => "string"
  | void => "void"
  | array elem => ("array(" : Bytes) ++ elem.text ++ (")" : Bytes)
  | reference target => ("ref(" : Bytes) ++ target.text ++ (")" : Bytes)
  | range base => ("range(" : Bytes) ++ base.text ++ (")" : Bytes)
  | other kind => kind

/-- Whether two types may stand for one another: they are equal, or one of them is unknown and its
fault has been reported already. -/
def agrees (want got : ValueType) : Bool :=
  !want.isKnown || !got.isKnown || want == got

end ValueType

end LyaLang
