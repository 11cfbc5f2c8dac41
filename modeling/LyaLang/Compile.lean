import LyaLang.Check.Labels
import LyaLang.Check.Stmt
import LyaLang.Emit.Stmt
import LyaLang.Parser.Grammar

/-! # Compilation

A source text is parsed, its labels are reserved, it is checked, and code is generated. Each stage
runs only if the one before found nothing wrong. Compilations in one context share its scopes and
never give out a label twice.
-/

namespace LyaLang

open Ast

/-- The stage at which a compilation failed, with what was found. -/
inductive CompileError where
  | parse (errors : List ParseError)
  | semantic (issues : List Issue)
  | generate (errors : List EmitError)
  | labels (error : LabelError)
deriving Repr

namespace CompileError

/-- The name of the failed stage. -/
def kind : CompileError → String
  | parse _ => "parse errors"
  | semantic _ => "semantic errors"
  | generate _ | labels _ => "code generation errors"

/-- What was found, as one line. -/
def details : CompileError → Bytes
  | parse errors => Bytes.join "; " (errors.map ParseError.message)
  | semantic issues => Bytes.join "; " (issues.map Issue.message)
  | generate errors => Bytes.join "; " (errors.map EmitError.message)
  | labels error => error.message

def message (e : CompileError) : Bytes := (e.kind : Bytes) ++ (": " : Bytes) ++ e.details

end CompileError

/-- The outcome of checking a program in a context. -/
structure Checked where
  tree : Program Note
  issues : List Issue

def Checked.isValid (c : Checked) : Bool := c.tree.note.isValid

/-- Check a program with labels in a context. The context changes even if the check cannot go on. -/
def Context.check (c : Context) (p : Program Note) : Context × Except Crash Checked :=
  match p.check { context := c } with
  | .ok tree s => (s.context, .ok { tree, issues := s.issues })
  | .error crash s => (s.context.abandon, .error crash)

/-- Everything that one compilation produced. The tree has what was learned about it, which is nothing
if the text did not parse. -/
structure Compilation where
  tree : Program Note
  parseErrors : List ParseError := []
  issues : List Issue := []
  /-- The number of labels reserved, if the text parsed. -/
  labels : Option Int64 := none
  result : Except CompileError Code

/-- Whether the text parsed and checked without a fault. -/
def Compilation.isValid (c : Compilation) : Bool := c.parseErrors.isEmpty && c.issues.isEmpty

def generateCode (tree : Program Note) : Except Crash (Except CompileError Code) := do
  let (code, errors) ← tree.generate
  if !errors.isEmpty then return .error (.generate errors)
  match code.checkLabels with
  | .error e => return .error (.labels e)
  | .ok () => return .ok code

/-- A parsed tree with nothing known about it. -/
def plainTree (tree : Program Span) : Program Note :=
  Id.run (tree.traverse fun node => pure { span := node.note })

def Context.compile (c : Context) (source : Bytes) : Context × Except Crash Compilation :=
  let (tree, parseErrors) := parse source
  if !parseErrors.isEmpty then
    (c, .ok { tree := plainTree tree, parseErrors, result := .error (.parse parseErrors) })
  else
    let start := c.nextLabel
    let (c, tree) := c.reserveProgram tree
    let labels := some (c.nextLabel - start)
    let (c, checked) := c.check tree
    (c, do
      let checked ← checked
      let tree := checked.tree
      let issues := checked.issues
      if !checked.isValid then return { tree, issues, labels, result := .error (.semantic issues) }
      return { tree, issues, labels, result := ← generateCode tree })

def compile (source : Bytes) : Except Crash Compilation := (Context.fresh.compile source).2

end LyaLang
