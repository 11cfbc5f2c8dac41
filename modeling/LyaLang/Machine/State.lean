import LyaLang.Machine.Program

/-! # The state of the machine

The machine has a memory of words that is stack and frames at once, a display that holds the base of
the innermost frame of each level, a stack pointer and a program counter. An instruction either
succeeds, or stops at a fault with its effects so far in place, or crashes: it reaches outside memory
where no check stands before it.
-/

namespace LyaLang

/-- A fault that ends a run. -/
inductive RuntimeFault where
  | stackOverflow | stackUnderflow | segmentation
  | unresolvedLabel (label : Int64)
  | duplicateLabel (d : DuplicateLabel)
  | divisionByZero | stepLimit | badDisplay | badString | stringTooLong
  | indexOutOfRange (index lower upper : Int64)
  | inputExhausted
  | unknownOpcode (code : UInt8)
deriving DecidableEq, Repr

namespace RuntimeFault

def kind : RuntimeFault → String
  | stackOverflow => "stack overflow"
  | stackUnderflow => "stack underflow"
  | segmentation => "address outside memory"
  | unresolvedLabel _ => "unresolved label"
  | duplicateLabel _ => "duplicate label"
  | divisionByZero => "division by zero"
  | stepLimit => "step limit exceeded"
  | badDisplay => "bad display level"
  | badString => "bad string reference"
  | stringTooLong => "string longer than memory"
  | indexOutOfRange _ _ _ => "index out of range"
  | inputExhausted => "input exhausted"
  | unknownOpcode _ => "unknown opcode"

def message (f : RuntimeFault) : Bytes :=
  match f with
  | unresolvedLabel label => (f.kind : Bytes) ++ (": " : Bytes) ++ Text.ofInt64 label
  | duplicateLabel d => d.message
  | indexOutOfRange index lower upper =>
    (f.kind : Bytes) ++ (": " : Bytes) ++ Text.ofInt64 index ++ (" not in " : Bytes) ++
      Text.ofInt64 lower ++ (":" : Bytes) ++ Text.ofInt64 upper
  | unknownOpcode code => (f.kind : Bytes) ++ (": 0x" : Bytes) ++ Text.hex 2 code.toNat
  | _ => f.kind

end RuntimeFault

/-- A fault at an instruction. -/
structure RuntimeError where
  pc : Int64
  op : Opcode
  fault : RuntimeFault
deriving DecidableEq, Repr

def RuntimeError.message (e : RuntimeError) : Bytes :=
  ("lvm: " : Bytes) ++ e.fault.message ++ (" at " : Bytes) ++ Text.ofInt64 e.pc ++ (" (" : Bytes) ++
    e.op.name ++ (")" : Bytes)

/-- A program with its labels resolved. -/
structure Image where
  instructions : Array Instruction
  labels : LabelTable
  strings : Array Bytes

/-- The image of a program, unless a label is defined twice. -/
def Code.image (c : Code) : Except DuplicateLabel Image := do
  return { instructions := c.instructions, labels := ← c.labels, strings := c.strings }

structure Machine where
  memory : Array Word
  display : Array Int64 := #[0]
  sp : Int64 := -1
  pc : Int64 := 0
  /-- The number of instructions begun since the program was loaded. -/
  steps : Nat := 0
  input : Bytes := []
  /-- Everything printed so far. -/
  output : Array UInt8 := #[]
deriving Repr, Inhabited

/-- How an instruction can fail. -/
inductive Halt where
  | fault (f : RuntimeFault)
  | crash
deriving DecidableEq, Repr

/-- An action of the machine. What it did before a failure stays. -/
abbrev Exec := EStateM Halt Machine

namespace Exec

def fail {α : Type} (f : RuntimeFault) : Exec α := throw (.fault f)

/-- Stop at an access outside memory that nothing checks. -/
def crash {α : Type} : Exec α := throw .crash

/-- The stack pointer. -/
def sp : Exec Int64 := modifyGet fun m => (m.sp, m)

/-- Move the stack pointer. -/
def setSp (sp : Int64) : Exec Unit := modify fun m => { m with sp }

def size : Exec Int64 := modifyGet fun m => (Int64.ofNat m.memory.size, m)

def inside (addr : Int64) (size : Nat) : Bool := 0 ≤ addr && addr < Int64.ofNat size

def peek (addr : Int64) : Exec Word := do
  let w? ← modifyGet fun m => (if inside addr m.memory.size then m.memory[addr.toNatClampNeg]? else none, m)
  match w? with
  | some w => return w
  | none => crash

def poke (addr : Int64) (w : Word) : Exec Unit := do
  let ok ← modifyGet fun m =>
    if inside addr m.memory.size then
      (true, { m with memory := m.memory.setIfInBounds addr.toNatClampNeg w })
    else (false, m)
  if !ok then crash

def load (addr : Int64) : Exec Word := do
  if addr < 0 || addr ≥ (← size) then fail .segmentation
  peek addr

/-- Replace the word at an address, or stop at a fault. -/
def store (addr : Int64) (w : Word) : Exec Unit := do
  if addr < 0 || addr ≥ (← size) then fail .segmentation
  poke addr w

def push (w : Word) : Exec Unit := do
  let next := (← sp) + 1
  if next ≥ (← size) then fail .stackOverflow
  setSp next
  poke next w

def pop : Exec Word := do
  let top ← sp
  if top < 0 then fail .stackUnderflow
  let w ← peek top
  setSp (top - 1)
  return w

/-- Stop at a fault unless the stack holds a number of words. -/
def need (count : Int64) : Exec Unit := do
  if (← sp) + 1 < count then fail .stackUnderflow

/-- The two topmost words; the upper one is popped. -/
def operands : Exec (Word × Word) := do
  need 2
  let top ← sp
  let b ← peek top
  setSp (top - 1)
  return (← peek (top - 1), b)

def setTop (w : Word) : Exec Unit := do poke (← sp) w

/-- Remove words from the stack. -/
def shrink (count : Int64) : Exec Unit := do
  let top ← sp
  if top - count < -1 then fail .stackUnderflow
  setSp (top - count)

def clear (start : Nat) : Nat → Array Word → Array Word
  | 0, memory => memory
  | count + 1, memory => clear (start + 1) count (memory.setIfInBounds start {})

/-- Put zero words on the stack; a negative count removes words. -/
def grow (count : Int64) : Exec Unit := do
  if count < 0 then shrink (-count)
  else
    let top ← sp
    if top + count ≥ (← size) then fail .stackOverflow
    if top + count < top then crash
    modify fun m =>
      { m with memory := clear (top + 1).toNatClampNeg count.toNatClampNeg m.memory, sp := top + count }

def frameAddress (level offset : Int64) : Exec Int64 := do
  let base? ← modifyGet fun m =>
    (if inside level m.display.size then m.display[level.toNatClampNeg]? else none, m)
  match base? with
  | some base => return base + offset
  | none => fail .badDisplay

/-- Stop at a fault unless a block of words lies inside memory. The end of the block wraps around. -/
def checkBlock (addr count : Int64) : Exec Unit := do
  if addr < 0 || count < 0 || addr + count > (← size) then fail .segmentation

def block (addr count : Int64) : Exec (List Word) := do
  let n ← size
  if addr < 0 || count < 0 || addr + count < addr || addr + count > n then crash
  modifyGet fun m =>
    ((m.memory.extract addr.toNatClampNeg (addr + count).toNatClampNeg).toList, m)

def overwrite (start : Nat) : List Word → Array Word → Array Word
  | [], memory => memory
  | w :: rest, memory => overwrite (start + 1) rest (memory.setIfInBounds start w)

def setBlock (addr : Int64) (words : List Word) : Exec Unit := do
  let n ← size
  let count := Int64.ofNat words.length
  if addr < 0 || addr + count < addr || addr + count > n then crash
  modify fun m => { m with memory := overwrite addr.toNatClampNeg words m.memory }

def print (text : Bytes) : Exec Unit := modify fun m => { m with output := text.foldl Array.push m.output }

/-- The next line of input, without the line end; the last line need not have one. -/
def readLine : Exec Bytes := do
  let line? ← modifyGet fun m =>
    if m.input.isEmpty then (none, m)
    else
      let line := m.input.takeWhile (· != 0x0A)
      (some line, { m with input := m.input.drop (line.length + 1) })
  match line? with
  | none => fail .inputExhausted
  | some line => return Bytes.dropRightWhile (fun b => b == 0x0A || b == 0x0D) line

/-- Store a text as a block of its length and its characters, cut to a capacity unless that is
negative. -/
def writeString (addr : Int64) (text : Bytes) (capacity : Int64) : Exec Unit := do
  let chars := Text.chars text
  let chars := if capacity ≥ 0 then chars.take capacity.toNatClampNeg else chars
  checkBlock addr (Int64.ofNat chars.length + 1)
  setBlock addr (Word.int (Int64.ofNat chars.length) :: chars.map Word.ofChar)

/-- The text that a word refers to: its own text, a string of the pool given by a negative number, or
the block at an address. -/
def string (image : Image) (w : Word) : Exec Bytes := do
  if w.kind == .text then return w.text
  if w.number < 0 then
    match image.strings[(-w.number - 1).toNatClampNeg]? with
    | some s => return s
    | none => fail .badString
  let length := (← load w.number).toInt
  checkBlock (w.number + 1) length
  let words ← block (w.number + 1) length
  return Text.encode (words.map Word.toChar)

end Exec

end LyaLang
