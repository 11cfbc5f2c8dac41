import LyaLang.Scope.Symbol

/-! # Faults of a program

What can be wrong with a program that parses, as causes with their parts, the kind each belongs to,
and its wording. An issue is a fault at a source line.
-/

namespace LyaLang

inductive FaultKind where
  | undeclaredIdentifier | redeclaration | typeMismatch | invalidOperator | invalidType
  | callingNonCallable | argumentCountMismatch | nonConstantExpression
deriving DecidableEq, Repr

def FaultKind.name : FaultKind → String
  | undeclaredIdentifier => "undeclared identifier"
  | redeclaration => "redeclaration"
  | typeMismatch => "type mismatch"
  | invalidOperator => "invalid operator"
  | invalidType => "invalid type"
  | callingNonCallable => "calling non-callable"
  | argumentCountMismatch => "argument count mismatch"
  | nonConstantExpression => "non-constant expression"

inductive Fault where
  | undeclared (name : Bytes)
  | redeclaresPredefined (name : Bytes)
  | redeclared (name : Bytes) (line : Int64)
  | mismatch (want got : ValueType)
  | sizeMismatch (want got : Mode)
  | operator (op : Bytes) (type : ValueType)
  | notCallable (name : Bytes) (category : Category)
  | argumentCount (name : Bytes) (want : Int64) (got : Nat)
  | notConstant
  | noStorage (mode : Mode)
  | aliasNeedsLocation
  | arrayNeedsLocation
  | resultByValue (mode : Mode)
  | parameterByValue (mode : Mode)
  | assignsTo (category : Category) (name : Bytes)
  | targetNoLocation
  | counterIs (name : Bytes) (category : Category)
  | outsideProcedure (action : String)
  | resultNeedsLocation (action : String)
  | notMode (name : Bytes) (category : Category)
  | notDiscrete (mode : Mode)
  | emptyRange (lower upper : Int64)
  | charsLength (length : Int64)
  | indexMode (mode : Mode)
  | arrayOf (mode : Mode)
  | modeAsValue (name : Bytes)
  | procedureAsValue (name : Bytes)
  | conditionalYields (type : ValueType)
  | readNeedsLocation
  | cannotRead (type : ValueType)
  | cannotPrint (type : ValueType)
  | argumentNeedsLocation (position : Nat)
  | indexedNeedsLocation
  | cannotIndex (mode : Option Mode)
  | cannotDereference (mode : Mode)
  | addressOfValue
deriving DecidableEq, Repr

namespace Fault

def kind : Fault → FaultKind
  | undeclared _ => .undeclaredIdentifier
  | redeclaresPredefined _ | redeclared _ _ => .redeclaration
  | mismatch _ _ | sizeMismatch _ _ => .typeMismatch
  | operator _ _ => .invalidOperator
  | notCallable _ _ => .callingNonCallable
  | argumentCount _ _ _ => .argumentCountMismatch
  | notConstant => .nonConstantExpression
  | _ => .invalidType

def message : Fault → Bytes
  | undeclared name => name ++ (" is not declared" : Bytes)
  | redeclaresPredefined name => name ++ (" redeclares a builtin" : Bytes)
  | redeclared name line => name ++ (" already declared on line " : Bytes) ++ Text.ofInt64 line
  | mismatch want got => ("expected " : Bytes) ++ want.text ++ (", received " : Bytes) ++ got.text
  | sizeMismatch want got =>
    ("expected " : Bytes) ++ want.text ++ (" of " : Bytes) ++ Text.ofInt64 want.size ++
      (" words, received " : Bytes) ++ got.text ++ (" of " : Bytes) ++ Text.ofInt64 got.size ++
      (" words" : Bytes)
  | operator op type => ("operator " : Bytes) ++ op ++ (" is not defined on " : Bytes) ++ type.text
  | notCallable name category =>
    name ++ (" is a " : Bytes) ++ (category.name : Bytes) ++ (", not a procedure" : Bytes)
  | argumentCount name want got =>
    name ++ (" takes " : Bytes) ++ Text.ofInt64 want ++ (" argument(s), got " : Bytes) ++ Text.ofNat got
  | notConstant => "expression is not constant"
  | noStorage mode => ("cannot declare storage of mode " : Bytes) ++ mode.text
  | aliasNeedsLocation => "loc declaration needs a location"
  | arrayNeedsLocation => "array value must be a location"
  | resultByValue mode =>
    ("result of mode " : Bytes) ++ mode.text ++ (" must be returned as loc" : Bytes)
  | parameterByValue mode =>
    ("parameter of mode " : Bytes) ++ mode.text ++ (" must be passed as loc" : Bytes)
  | assignsTo category name =>
    ("cannot assign to " : Bytes) ++ (category.name : Bytes) ++ (" " : Bytes) ++ name
  | targetNoLocation => "left side of assignment is not a location"
  | counterIs name category =>
    ("loop counter " : Bytes) ++ name ++ (" is a " : Bytes) ++ (category.name : Bytes)
  | outsideProcedure action => (action : Bytes) ++ (" outside a procedure" : Bytes)
  | resultNeedsLocation action => (action : Bytes) ++ (" of a loc result needs a location" : Bytes)
  | notMode name category =>
    name ++ (" is a " : Bytes) ++ (category.name : Bytes) ++ (", not a mode" : Bytes)
  | notDiscrete mode => ("mode " : Bytes) ++ mode.text ++ (" is not discrete" : Bytes)
  | emptyRange lower upper =>
    ("empty range " : Bytes) ++ Text.ofInt64 lower ++ (":" : Bytes) ++ Text.ofInt64 upper
  | charsLength length => ("chars length must be positive, got " : Bytes) ++ Text.ofInt64 length
  | indexMode mode => ("array index must be an int range, got " : Bytes) ++ mode.text
  | arrayOf mode => ("array of " : Bytes) ++ mode.text
  | modeAsValue name => ("mode " : Bytes) ++ name ++ (" used as a value" : Bytes)
  | procedureAsValue name => ("procedure " : Bytes) ++ name ++ (" used as a value" : Bytes)
  | conditionalYields type => ("conditional expression cannot yield " : Bytes) ++ type.text
  | readNeedsLocation => "READ needs a location"
  | cannotRead type => ("READ cannot read " : Bytes) ++ type.text
  | cannotPrint type => ("PRINT cannot print " : Bytes) ++ type.text
  | argumentNeedsLocation position =>
    ("argument " : Bytes) ++ Text.ofNat position ++ (" must be a location" : Bytes)
  | indexedNeedsLocation => "indexed value must be a location"
  | cannotIndex mode => ("cannot index " : Bytes) ++ Mode.optionText mode
  | cannotDereference mode => ("cannot dereference " : Bytes) ++ mode.text
  | addressOfValue => "cannot take the address of a value"

end Fault

/-- A fault at a source line. -/
structure Issue where
  fault : Fault
  line : Nat
deriving DecidableEq, Repr

def Issue.message (i : Issue) : Bytes :=
  ("line " : Bytes) ++ Text.ofNat i.line ++ (": " : Bytes) ++ (i.fault.kind.name : Bytes) ++ (": " : Bytes) ++
    i.fault.message

end LyaLang
