import LyaLang.Machine.Opcode
import LyaLang.Machine.Word

/-! # Machine programs

A program is a list of instructions, a pool of string constants, and the source line of each
instruction where it is known. Adding a string gives the index of an equal one if the pool has it.
-/

namespace LyaLang

/-- An instruction: integer operands `a` and `b`, and the constant `k` that `ldc` loads. -/
structure Instruction where
  op : Opcode
  a : Int64 := 0
  b : Int64 := 0
  k : Word := {}
deriving DecidableEq, Repr, Inhabited

namespace Instruction

def text (i : Instruction) : Bytes :=
  if i.op == .ldc then i.op.name ++ (" " : Bytes) ++ i.k.literal
  else match i.op.operands with
    | 2 => i.op.name ++ (" " : Bytes) ++ Text.ofInt64 i.a ++ (" " : Bytes) ++ Text.ofInt64 i.b
    | 1 => i.op.name ++ (" " : Bytes) ++ Text.ofInt64 i.a
    | _ => i.op.name

end Instruction

/-- A label with two definitions. -/
structure DuplicateLabel where
  label : Int64
  first : Nat
  second : Nat
deriving DecidableEq, Repr

/-- The wording of the error. -/
def DuplicateLabel.message (d : DuplicateLabel) : Bytes :=
  ("duplicate label: label " : Bytes) ++ Text.ofInt64 d.label ++ (" at " : Bytes) ++ Text.ofNat d.first ++
    (" and " : Bytes) ++ Text.ofNat d.second

/-- Why the labels of a program do not resolve: a label with two definitions, or jumps to labels
without one, each with its position. -/
inductive LabelError where
  | duplicate (d : DuplicateLabel)
  | unresolved (jumps : List (Int64 × Nat))
deriving DecidableEq, Repr

namespace LabelError

def kind : LabelError → String
  | duplicate _ => "duplicate label"
  | unresolved _ => "unresolved label"

def message : LabelError → Bytes
  | duplicate d => d.message
  | unresolved jumps =>
    ("unresolved label: " : Bytes) ++ Bytes.join ", " (jumps.map fun (label, position) =>
      Text.ofInt64 label ++ (" (at " : Bytes) ++ Text.ofNat position ++ (")" : Bytes))

end LabelError

/-- The positions of the labels of a program, in the order of their definition. -/
abbrev LabelTable := List (Int64 × Nat)

def LabelTable.get? (labels : LabelTable) (label : Int64) : Option Nat :=
  (labels.find? fun entry => entry.1 == label).map (·.2)

/-- A machine program. Lines are there for the first instructions only, or not at all. -/
structure Code where
  instructions : Array Instruction := #[]
  strings : Array Bytes := #[]
  lines : Array Int64 := #[]
deriving Repr, Inhabited

namespace Code

def version : Nat := 2

def addString (c : Code) (s : Bytes) : Code × Nat :=
  match c.strings.findIdx? (· == s) with
  | some i => (c, i)
  | none => ({ c with strings := c.strings.push s }, c.strings.size)

/-- Append an instruction with its source line. Lines are kept from the first positive one on; the
instructions before it have line zero. -/
def emitAt (c : Code) (i : Instruction) (line : Int64) : Code :=
  let lines :=
    if line > 0 || !c.lines.isEmpty then
      (c.lines ++ Array.replicate (c.instructions.size - c.lines.size) 0).push line
    else c.lines
  { c with instructions := c.instructions.push i, lines }

/-- Append an instruction without a source line. -/
def emit (c : Code) (i : Instruction) : Code := c.emitAt i 0

/-- The source line of an instruction, zero when there is none. -/
def lineOf (c : Code) (i : Int64) : Int64 :=
  if i < 0 then 0 else c.lines.getD i.toNatClampNeg 0

/-- Append instructions with their lines, moving pool operands from a pool to that of the program.
The result says whether all of them were appended; one whose pool operand lies outside its pool ends
it. -/
def appendFrom (pool : Array Bytes) : Code → List (Instruction × Int64) → Code × Bool
  | c, [] => (c, true)
  | c, (i, line) :: rest =>
    if i.op.usesPool then
      if i.a < 0 then (c, false)
      else match pool[i.a.toNatClampNeg]? with
        | none => (c, false)
        | some s =>
          let (c, index) := c.addString s
          appendFrom pool (c.emitAt { i with a := Int64.ofNat index } line) rest
    else appendFrom pool (c.emitAt i line) rest

def append (c other : Code) : Code × Bool :=
  let lines := (List.range other.instructions.size).map fun i => other.lineOf (Int64.ofNat i)
  appendFrom other.strings c (other.instructions.toList.zip lines)

/-- The labels among instructions from a position on, added to those before it. -/
def labelsFrom (found : LabelTable) : Nat → List Instruction → Except DuplicateLabel LabelTable
  | _, [] => .ok found
  | position, i :: rest =>
    if i.op == .lbl then
      match found.get? i.a with
      | some first => .error ⟨i.a, first, position⟩
      | none => labelsFrom (found ++ [(i.a, position)]) (position + 1) rest
    else labelsFrom found (position + 1) rest

/-- The position of every label, unless one is defined twice. -/
def labels (c : Code) : Except DuplicateLabel LabelTable := labelsFrom [] 0 c.instructions.toList

def missingFrom (labels : LabelTable) : Nat → List Instruction → List (Int64 × Nat)
  | _, [] => []
  | position, i :: rest =>
    if i.op.isJump && (labels.get? i.a).isNone then (i.a, position) :: missingFrom labels (position + 1) rest
    else missingFrom labels (position + 1) rest

def checkLabels (c : Code) : Except LabelError Unit :=
  match c.labels with
  | .error d => .error (.duplicate d)
  | .ok labels =>
    match missingFrom labels 0 c.instructions.toList with
    | [] => .ok ()
    | jumps => .error (.unresolved jumps)

def textLines (c : Code) : List Bytes := c.instructions.toList.map (·.text)

end Code

end LyaLang
