import LyaLang.Check.Note
import LyaLang.Scope.Context

/-! # Checking

A check reads and extends the scopes, and collects issues both for the whole program and for the
construct at hand. A construct is judged by the issues found on it and the validity of its parts. A
check that needs the mode of something declared without one cannot go on; the scopes stay as they
were at that point.
-/

namespace LyaLang

open Ast

/-- Why a stage could not go on. -/
inductive Crash where
  | missingMode
  | missingSymbol
  /-- A call has fewer or more arguments than the procedure has parameters. -/
  | argumentCount
deriving DecidableEq, Repr

structure CheckState where
  context : Context
  issues : List Issue := []
  /-- The issues found on the construct at hand. -/
  own : List Issue := []

abbrev Check := EStateM Crash CheckState

namespace Check

/-- The scopes. -/
def environment : Check Environment := do return (← get).context.environment

/-- Replace the scopes. -/
def setEnvironment (e : Environment) : Check Unit :=
  modify fun s => { s with context := { s.context with environment := e } }

def newSerial : Check Nat := do
  let serial := (← get).context.nextSerial
  modify fun s => { s with context := { s.context with nextSerial := serial + 1 } }
  return serial

def report (line : Nat) (fault : Fault) : Check Unit :=
  modify fun s => { s with issues := s.issues ++ [⟨fault, line⟩], own := s.own ++ [⟨fault, line⟩] }

/-- Whether the construct at hand has no issue so far. -/
def isClean : Check Bool := do return (← get).own.isEmpty

/-- Check a construct, given by whether its parts are valid and itself with the notes of its parts,
and note the verdict. -/
def judge {τ : Type → Type} [Noted τ] (visit : Check (Bool × τ Note)) : Check (τ Note) := do
  let around := (← get).own
  modify fun s => { s with own := [] }
  let (valid, construct) ← visit
  let issues := (← get).own
  modify fun s => { s with own := around }
  return Noted.update
    (fun n => { n with verdict := some ⟨valid && issues.isEmpty, issues⟩ }) construct

/-- Report a mismatch unless the types agree; the result is whether they do. -/
def expect (line : Nat) (want got : ValueType) : Check Bool := do
  if want.agrees got then return true
  report line (.mismatch want got)
  return false

/-- Report two modes of different sizes. -/
def sameSize (line : Nat) (want got : Option Mode) : Check Unit := do
  match want, got with
  | some want, some got => if want.size != got.size then report line (.sizeMismatch want got)
  | _, _ => return

def required (mode : Option Mode) : Check Mode :=
  match mode with
  | some mode => return mode
  | none => throw .missingMode

/-- Whether a name is free in the innermost scope. In the outermost scope of a program, predefined
names are taken as well. -/
def isFree (id : Ident Note) : Check Bool := do
  let e ← environment
  let earlier := (e.find? id.name).or (if e.depth == 2 then e.root.find? id.name else none)
  match earlier with
  | none => return true
  | some symbol =>
    report id.note.line
      (if symbol.line == 0 then .redeclaresPredefined id.name else .redeclared id.name symbol.line)
    return false

/-- Add a new symbol to the innermost scope. -/
def declare (symbol : Symbol) : Check Symbol := do
  let serial ← newSerial
  let (e, symbol) := (← environment).declare symbol.name { symbol with serial }
  setEnvironment e
  return symbol

/-- Add a new symbol to the innermost scope at a given address. -/
def declareAt (symbol : Symbol) (offset level : Int64) : Check Symbol := do
  let serial ← newSerial
  let (e, symbol) := (← environment).declareAt symbol.name { symbol with serial } offset level
  setEnvironment e
  return symbol

/-- Give out words of the innermost frame. -/
def reserve (count : Int64) : Check Int64 := do
  let (e, offset) := (← environment).reserve count
  setEnvironment e
  return offset

/-- A check in a scope of its own that allocates in the frame around it. -/
def inBlock {γ : Type} (check : Check γ) : Check γ := do
  setEnvironment ((← environment).pushBlock none)
  let x ← check
  setEnvironment (← environment).pop
  return x

end Check

/-- The name with what it denotes and how it is used. -/
def Ast.Ident.resolve (id : Ident Note) (symbol : Symbol) (usage : Usage) : Ident Note :=
  { id with note := { id.note with symbol := some symbol, usage := some usage } }

end LyaLang
