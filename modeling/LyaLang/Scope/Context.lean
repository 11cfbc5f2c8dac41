import LyaLang.Scope.Environment

/-! # Compilation contexts

A context holds what outlives the compilation of one text: the scopes, the next free label and the
procedures whose bodies are open. A fresh one knows the predefined modes and procedures.
-/

namespace LyaLang

/-- The state that compilations share. -/
structure Context where
  environment : Environment := {}
  nextLabel : Int64 := 0
  /-- The procedures whose bodies are open, the innermost first. -/
  functions : List Symbol := []
  nextSerial : Nat := 0
deriving Repr, Inhabited

namespace Context

def predefinedModes : List Mode := [.int, .bool, .char, .string, .void]

def predefinedProcedure (name : String) (arity : Arity) (result : Mode) (builtin : Builtin) : Symbol :=
  { name := name, category := .procedure, mode := some result, proc := some { arity, result, builtin } }

def predefinedProcedures : List Symbol :=
  [predefinedProcedure "ABS" (.exactly 1) .int (.operation .abs [.int]),
   predefinedProcedure "ASC" (.exactly 1) .char (.operation .asc [.int]),
   predefinedProcedure "NUM" (.exactly 1) .int (.operation .num [.char, .bool, .int]),
   predefinedProcedure "UPPER" (.exactly 1) .char (.operation .upc [.char]),
   predefinedProcedure "LOWER" (.exactly 1) .char (.operation .lwc [.char]),
   predefinedProcedure "READ" .any .void .read,
   predefinedProcedure "PRINT" .any .void .print]

def predefinedMode (m : Mode) : Symbol :=
  { name := m.name, category := .mode, mode := some m, size := m.size }

def predefined : List Symbol := predefinedModes.map predefinedMode ++ predefinedProcedures

def declareRoot (c : Context) (symbol : Symbol) : Context :=
  { c with
    environment := c.environment.declareRoot symbol.name { symbol with serial := c.nextSerial }
    nextSerial := c.nextSerial + 1 }

def fresh : Context := predefined.foldl declareRoot {}

/-- Give out consecutive labels; the result is the first. -/
def reserveLabels (c : Context) (count : Int64) : Context × Int64 :=
  ({ c with nextLabel := c.nextLabel + count }, c.nextLabel)

/-- Enter the body of a procedure. -/
def pushFunction (c : Context) (f : Symbol) : Context := { c with functions := f :: c.functions }

/-- Leave the body of the innermost procedure. -/
def popFunction (c : Context) : Context := { c with functions := c.functions.tail }

/-- The innermost procedure whose body is open. -/
def currentFunction? (c : Context) : Option Symbol := c.functions.head?

/-- The context after a compilation that could not go on. Its scopes stay open, but the procedures
declared there never got any code. -/
def abandon (c : Context) : Context :=
  { c with
    environment := c.environment.mapSymbols Symbol.withoutCode
    functions := c.functions.map Symbol.withoutCode }

end Context

end LyaLang
