import LyaLang.Cbor.Item
import LyaLang.Machine.Program

/-! # Programs as bytes: writing

A program is written as four magic bytes and one data item: a map of the version, the instructions,
the strings and the lines. Fields of instructions and words that are zero are left out, except the
operation, the kind of a word and the constant of an instruction.
-/

namespace LyaLang

/-- A program as it is written. A program that was read may lack its list of instructions. -/
structure WireProgram where
  instructions : Option (Array Instruction)
  strings : Array Bytes := #[]
  lines : Array Int64 := #[]

namespace WireProgram

def ofCode (c : Code) : WireProgram :=
  { instructions := some c.instructions, strings := c.strings, lines := c.lines }

def toCode (w : WireProgram) : Code :=
  { instructions := w.instructions.getD #[], strings := w.strings, lines := w.lines }

end WireProgram

namespace Wire

open Cbor

def magic : Bytes := "LVM1"

def entry (key : Nat) (value : Bytes) : Bytes × Bytes := (encodeNat key, value)

/-- A number that is left out when it is zero. -/
def optionalNumber (key : Nat) (n : Int64) : List (Bytes × Bytes) :=
  if n == 0 then [] else [entry key (encodeInt n.toInt)]

/-- A list that is left out when it is empty. -/
def optionalList (key : Nat) (items : List Bytes) : List (Bytes × Bytes) :=
  if items.isEmpty then [] else [entry key (encodeArray items)]

/-- A word as a map of its kind, number and text. -/
def encodeWord (w : Word) : Bytes :=
  encodeMap ([entry 1 (encodeNat w.kind.tag.toNat)] ++ optionalNumber 2 w.number ++
    if w.text.isEmpty then [] else [entry 3 (encodeText w.text)])

/-- An instruction as a map of its operation, operands and constant. -/
def encodeInstruction (i : Instruction) : Bytes :=
  encodeMap ([entry 1 (encodeNat i.op.code.toNat)] ++ optionalNumber 2 i.a ++ optionalNumber 3 i.b ++
    [entry 4 (encodeWord i.k)])

def encodeBody (w : WireProgram) : Bytes :=
  let instructions := match w.instructions with
    | none => encodeNull
    | some list => encodeArray (list.toList.map encodeInstruction)
  encodeMap ([entry 1 (encodeNat Code.version), entry 2 instructions] ++
    optionalList 3 (w.strings.toList.map encodeText) ++
    optionalList 4 (w.lines.toList.map fun n => encodeInt n.toInt))

end Wire

def WireProgram.encode (w : WireProgram) : Bytes := Wire.magic ++ Wire.encodeBody w

def Code.encode (c : Code) : Bytes := (WireProgram.ofCode c).encode

end LyaLang
