import LyaLang.Machine.Opcode
import LyaLang.Machine.Word
import LyaLang.Mode.Basic

/-! # Symbols

A symbol is what a name denotes. Symbols with storage have an address: an offset in the frame of a
display level. A symbol keeps the number it was made under, so that two symbols with equal parts
stay apart.
-/

namespace LyaLang

/-- What a name stands for. -/
inductive Category where
  | mode
  | var
  /-- An alias: its word holds the address of its storage. -/
  | location
  | param
  /-- A parameter whose word holds the address of its storage. -/
  | locParam
  | procedure
  | counter
  | synonym
deriving DecidableEq, Repr, Inhabited

namespace Category

def all : List Category :=
  [.mode, .var, .location, .param, .locParam, .procedure, .counter, .synonym]

def name : Category → String
  | mode => "mode"
  | var => "variable"
  | location => "location"
  | param => "parameter"
  | locParam => "loc parameter"
  | procedure => "procedure"
  | counter => "loop counter"
  | synonym => "synonym"

def hasStorage : Category → Bool
  | var | location | param | locParam | counter => true
  | mode | procedure | synonym => false

/-- Whether the word of a symbol holds the address of its storage. -/
def isIndirect : Category → Bool
  | location | locParam => true
  | _ => false

end Category

/-- How many arguments a procedure takes. -/
inductive Arity where
  | exactly (count : Nat)
  | any
deriving DecidableEq, Repr, Inhabited

/-- The number that stands for an arity: `any` is -1. -/
def Arity.number : Arity → Int64
  | exactly count => Int64.ofNat count
  | any => -1

/-- A predefined procedure: reading and printing, or one operation on one argument. -/
inductive Builtin where
  | read
  | print
  | operation (op : Opcode) (accepts : List ValueType)
deriving DecidableEq, Repr, Inhabited

/-- What is known of a parameter: its mode, if it has one, and whether it is passed by location. -/
structure Parameter where
  mode : Option Mode
  loc : Bool
deriving DecidableEq, Repr, Inhabited

/-- What a procedure symbol adds to a symbol. A procedure without a result has the mode `void`. -/
structure Procedure where
  entry : Int64 := 0
  arity : Arity
  builtin : Option Builtin := none
  level : Int64 := 0
  result : Mode := .void
  resultLoc : Bool := false
  params : List Parameter := []
deriving DecidableEq, Repr, Inhabited

/-- A declared name. Line zero marks a predefined one. -/
structure Symbol where
  serial : Nat := 0
  name : Bytes
  category : Category
  mode : Option Mode := none
  level : Int64 := 0
  offset : Int64 := 0
  size : Int64 := 0
  line : Int64 := 0
  /-- The constant that a synonym stands for. -/
  value : Word := {}
  proc : Option Procedure := none
deriving DecidableEq, Repr, Inhabited

def Symbol.type (s : Symbol) : ValueType := Mode.optionType s.mode

/-- A symbol whose procedure, if it is one, has no code: its entry is label zero. -/
def Symbol.withoutCode (s : Symbol) : Symbol :=
  { s with proc := s.proc.map fun p => { p with entry := 0 } }

end LyaLang
