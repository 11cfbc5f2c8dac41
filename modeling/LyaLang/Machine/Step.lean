import LyaLang.Machine.State

/-! # One instruction

What each operation does. The result is the position of the next instruction, or nothing after a stop.
-/

namespace LyaLang

namespace Exec

def labelTarget (image : Image) (label : Int64) : Exec Int64 :=
  match image.labels.get? label with
  | some position => return Int64.ofNat position
  | none => fail (.unresolvedLabel label)

def pooled (image : Image) (index : Int64) : Exec Bytes := do
  if index < 0 then fail .badString
  match image.strings[index.toNatClampNeg]? with
  | some s => return s
  | none => fail .badString

/-- Replace the operands of an operation by the number it computes. -/
def arithmetic (f : Int64 → Int64 → Int64) : Exec Unit := do
  let (a, b) ← operands
  setTop (.int (f a.toInt b.toInt))

/-- Replace the operands of a division by the number it computes. -/
def division (f : Int64 → Int64 → Int64) : Exec Unit := do
  let (a, b) ← operands
  if b.toInt == 0 then fail .divisionByZero
  setTop (.int (f a.toInt b.toInt))

/-- Replace the operands of an operation by the truth value it computes. -/
def relation (f : Word → Word → Bool) : Exec Unit := do
  let (a, b) ← operands
  setTop (.bool (f a b))

def onTop (f : Word → Word) : Exec Unit := do
  need 1
  let w ← peek (← sp)
  setTop (f w)

/-- A character code mapped by a function on characters; a code without a character stays. -/
def mapCode (f : Char → Char) (code : Int32) : Int32 :=
  if 0 ≤ code && code.toInt.toNat.isValidChar then Int32.ofNat (f (Char.ofNat code.toInt.toNat)).toNat
  else code

/-- The texts that the operands refer to; the upper operand is popped. -/
def stringOperands (image : Image) : Exec (Bytes × Bytes) := do
  let (a, b) ← operands
  let x ← string image a
  let y ← string image b
  return (x, y)

/-- Push the words of a block in the place of its address. -/
def loadBlock (count : Int64) : Exec Unit := do
  need 1
  let top ← sp
  let source := (← peek top).toInt
  checkBlock source count
  if top + count > (← size) then fail .stackOverflow
  if top + count < top then crash
  let words ← block source count
  setBlock top words
  setSp (top + (count - 1))

/-- Pop the words of a block and the address below them, and store the words there. -/
def storeBlock (count : Int64) : Exec Unit := do
  need (count + 1)
  let top ← sp
  let target := (← peek (top - count)).toInt
  checkBlock target count
  let words ← block (top - count + 1) count
  setBlock target words
  setSp (top - (count + 1))

def copyBlock (count : Int64) : Exec Unit := do
  need 2
  let top ← sp
  let target := (← peek (top - 1)).toInt
  let source := (← peek top).toInt
  checkBlock target count
  checkBlock source count
  let words ← block source count
  setBlock target words
  setSp (top - 2)

/-- Print the topmost words with blanks between them, and remove them. -/
def printTop (count : Int64) : Exec Unit := do
  need count
  let top ← sp
  let words ← block (top - count + 1) count
  print (Bytes.join " " (words.map Word.display))
  setSp (top - count)

def enterFrame (level : Int64) : Exec Unit := do
  if level < 0 then fail .badDisplay
  let base ← modifyGet fun m =>
    let display := m.display ++ Array.replicate (level.toNatClampNeg + 1 - m.display.size) 0
    (display.getD level.toNatClampNeg 0, { m with display })
  push (.int base)
  modify fun m => { m with display := m.display.setIfInBounds level.toNatClampNeg (m.sp + 1) }

/-- Leave the frame of a display level; the result is the return address. The saved base, the return
address and the arguments are removed. -/
def leaveFrame (level count : Int64) : Exec Int64 := do
  let known ← modifyGet fun m => (inside level m.display.size, m)
  if !known then fail .badDisplay
  need 2
  let top ← sp
  let base := (← peek top).toInt
  modify fun m => { m with display := m.display.setIfInBounds level.toNatClampNeg base }
  let next := (← peek (top - 1)).toInt
  shrink (count + 2)
  return next

def plain (image : Image) (i : Instruction) : Exec Unit := do
  match i.op with
  | .nop | .lbl => return
  | .ldc => push i.k
  | .ldv =>
    let addr ← frameAddress i.a i.b
    push (← load addr)
  | .ldr =>
    let addr ← frameAddress i.a i.b
    push (.int addr)
  | .stv =>
    let addr ← frameAddress i.a i.b
    store addr (← pop)
  | .lrv =>
    let addr ← frameAddress i.a i.b
    let ref ← load addr
    push (← load ref.toInt)
  | .srv =>
    let addr ← frameAddress i.a i.b
    let ref ← load addr
    store ref.toInt (← pop)
  | .alc => grow i.a
  | .dlc => shrink i.a
  | .dup =>
    need 1
    push (← peek (← sp))
  | .add => arithmetic (· + ·)
  | .sub => arithmetic (· - ·)
  | .mul => arithmetic (· * ·)
  | .div => division (· / ·)
  | .mod => division (· % ·)
  | .neg => onTop fun w => .int (-w.toInt)
  | .abs => onTop fun w => .int (if w.toInt < 0 then -w.toInt else w.toInt)
  | .and => relation fun a b => a.isTrue && b.isTrue
  | .lor => relation fun a b => a.isTrue || b.isTrue
  | .not => onTop fun w => .bool (!w.isTrue)
  | .les => relation fun a b => a.toInt < b.toInt
  | .leq => relation fun a b => a.toInt ≤ b.toInt
  | .grt => relation fun a b => b.toInt < a.toInt
  | .gre => relation fun a b => b.toInt ≤ a.toInt
  | .equ => relation Word.same
  | .neq => relation fun a b => !a.same b
  | .asc => onTop fun w => .char w.toInt.toInt32
  | .num => onTop fun w => .int w.toInt
  | .upc => onTop fun w => .char (mapCode Text.upperChar w.toInt.toInt32)
  | .lwc => onTop fun w => .char (mapCode Text.lowerChar w.toInt.toInt32)
  | .idx =>
    let (a, b) ← operands
    setTop (.int (a.toInt + b.toInt * i.a))
  | .grc =>
    need 1
    let w ← peek (← sp)
    setTop (← load w.toInt)
  | .lmv => loadBlock i.a
  | .smv => storeBlock i.a
  | .smr => copyBlock i.a
  | .chk =>
    need 1
    let n := (← peek (← sp)).toInt
    if n < i.a || n > i.b then fail (.indexOutOfRange n i.a i.b)
  | .sts =>
    let s ← pooled image i.a
    let addr ← pop
    writeString addr.toInt s i.b
  | .lsc =>
    let _ ← pooled image i.a
    push (.int (-(i.a + 1)))
  | .scp =>
    let ref ← pop
    let addr ← pop
    let s ← string image ref
    writeString addr.toInt s i.a
  | .scat =>
    let (x, y) ← stringOperands image
    if Int64.ofNat (Text.length x + Text.length y) > (← size) then fail .stringTooLong
    setTop (.ofText (x ++ y))
  | .seq =>
    let (x, y) ← stringOperands image
    setTop (.bool (x == y))
  | .sne =>
    let (x, y) ← stringOperands image
    setTop (.bool (x != y))
  | .rdv => push (.ofInput (← readLine))
  | .rds =>
    let addr ← pop
    writeString addr.toInt (← readLine) i.a
  | .prv => print (← pop).display
  | .prt => printTop i.a
  | .prc => print (← pooled image i.a)
  | .prs => print (← string image (← pop))
  | .enf => enterFrame i.a
  | .unknown code => fail (.unknownOpcode code)
  | .jmp | .jof | .cfu | .ret | .stp => return

/-- Run an instruction at a position; the result is the position of the next one. -/
def step (image : Image) (pc : Int64) (i : Instruction) : Exec (Option Int64) := do
  match i.op with
  | .jmp => return some (← labelTarget image i.a)
  | .jof =>
    if (← pop).isTrue then return some (pc + 1)
    return some (← labelTarget image i.a)
  | .cfu =>
    let target ← labelTarget image i.a
    push (.int (pc + 1))
    return some target
  | .ret => return some (← leaveFrame i.a i.b)
  | .stp => return none
  | _ =>
    plain image i
    return some (pc + 1)

end Exec

end LyaLang
