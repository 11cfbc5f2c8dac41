import LyaLang.Ast.Noted
import LyaLang.Check.Fault
import LyaLang.Source.Position

/-! # What is known of a construct

The note of a construct after parsing, label reservation and checking. The code generator reads
notes and resolves no name itself.
-/

namespace LyaLang

/-- How a name is used where it stands. -/
inductive Usage where
  | declaration | value | reference | assign
deriving DecidableEq, Repr

def Usage.name : Usage → String
  | declaration => "declaration"
  | value => "value"
  | reference => "reference"
  | assign => "assign"

/-- Consecutive labels that belong to one construct. -/
structure LabelBlock where
  first : Int64
  count : Nat
deriving DecidableEq, Repr

/-- The outcome of checking one construct: whether it and its parts are valid, and the issues found
on it alone. -/
structure Verdict where
  valid : Bool
  issues : List Issue
deriving DecidableEq, Repr

/-- Where a counted loop keeps its bound and its step; a constant step has no word and is marked by a
negative offset. -/
structure LoopSlots where
  level : Int64
  stop : Int64
  step : Int64
deriving DecidableEq, Repr

/-- What is known of a construct. -/
structure Note where
  span : Span
  labels : Option LabelBlock := none
  verdict : Option Verdict := none
  mode : Option Mode := none
  constant : Option Word := none
  /-- What a name denotes, the symbol of a procedure, the counter of a loop, or the procedure around
  a `return` or `result`. -/
  symbol : Option Symbol := none
  usage : Option Usage := none
  /-- The number of local words of a program or procedure. -/
  frame : Option Int64 := none
  slots : Option LoopSlots := none
  declaresCounter : Bool := false
deriving Repr

namespace Note

def line (n : Note) : Nat := n.span.start.line

def type (n : Note) : ValueType := Mode.optionType n.mode

def isValid (n : Note) : Bool := n.verdict.any (·.valid)

end Note

end LyaLang
