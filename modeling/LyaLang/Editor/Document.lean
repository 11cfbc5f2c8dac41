import LyaLang.Compile
import LyaLang.Scope.Summary
import LyaLang.Text.Letter

/-! # Documents in an editor

An open document is its text and what compiling it found. Places count lines and characters from
zero. A name covers as many characters as its text has bytes.
-/

namespace LyaLang.Editor

open Ast

structure Place where
  line : Nat
  char : Nat
deriving DecidableEq, Repr

/-- A stretch of a document. -/
structure Area where
  start : Place
  stop : Place
deriving DecidableEq, Repr

/-- A problem that is shown at a line of a document. -/
structure Diagnostic where
  line : Nat
  code : Bytes
  message : Bytes
deriving DecidableEq, Repr

namespace Diagnostic

def text (d : Diagnostic) : Bytes := d.code ++ (": " : Bytes) ++ d.message

def area (d : Diagnostic) : Area :=
  let line := d.line - 1
  ⟨⟨line, 0⟩, ⟨line + 1, 0⟩⟩

end Diagnostic

/-- An open document. -/
structure Document where
  uri : Bytes
  text : Bytes
  compilation : Compilation

/-- Analyze a text; there is no document if the compiler cannot go on. -/
def Document.analyze? (uri text : Bytes) : Option Document :=
  match compile text with
  | .ok compilation => some { uri, text, compilation }
  | .error _ => none

namespace Document

/-- Everything found, in the order of lines. -/
def diagnostics (d : Document) : List Diagnostic :=
  let parse : List Diagnostic := d.compilation.parseErrors.map fun e => ⟨e.line, "parse", e.text⟩
  let issues : List Diagnostic := d.compilation.issues.map fun i => ⟨i.line, i.fault.kind.name, i.fault.message⟩
  let found := parse ++ issues
  let all : List Diagnostic := match found, d.compilation.result with
    | [], .error e => [⟨1, "internal", e.message⟩]
    | found, _ => found
  all.mergeSort fun a b => a.line ≤ b.line

def idents (d : Document) : List (Ident Note) := d.compilation.tree.idents

def covers (p : Place) (i : Ident Note) : Bool :=
  let start := i.note.span.start
  start.line == p.line + 1 && start.column ≤ p.char + 1 && p.char + 1 < start.column + i.name.length

def identAt? (d : Document) (p : Place) : Option (Ident Note) := d.idents.find? (covers p)

/-- The stretch of a name. -/
def areaOf (i : Ident Note) : Area :=
  let start := i.note.span.start
  let line := start.line - 1
  let char := start.column - 1
  ⟨⟨line, char⟩, ⟨line, char + i.name.length⟩⟩

def denotes (symbol : Symbol) (i : Ident Note) : Bool :=
  i.note.symbol.any fun s => s.serial == symbol.serial

def declares (i : Ident Note) : Bool := i.note.usage == some .declaration && i.note.symbol.isSome

def declaration? (d : Document) (symbol : Symbol) : Option (Ident Note) :=
  d.idents.find? fun i => declares i && denotes symbol i

def references (d : Document) (symbol : Symbol) : List (Ident Note) := d.idents.filter (denotes symbol)

def ordered (a b : Symbol) : Bool :=
  if a.name == b.name then a.line ≤ b.line else Bytes.before a.name b.name

def symbols (d : Document) : List Symbol :=
  ((d.idents.filter declares).filterMap (·.note.symbol)).mergeSort ordered

end Document

def isWordByte (b : UInt8) : Bool :=
  Text.isLetter (Char.ofNat b.toNat) || (0x30 ≤ b && b ≤ 0x39) || b == 0x5F

def wordAround (text : Bytes) (p : Place) : Bytes × Bytes :=
  match (Bytes.split 0x0A text)[p.line]? with
  | none => ([], [])
  | some line =>
    let before := line.take p.char
    ((before.reverse.takeWhile isWordByte).reverse, (line.drop p.char).takeWhile isWordByte)

end LyaLang.Editor
