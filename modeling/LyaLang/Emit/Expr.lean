import LyaLang.Ast.Node
import LyaLang.Emit.Monad

/-! # Code of expressions

The value of an expression is pushed on the stack: scalars as one word, strings as the address of
their block or a pool reference, arrays as all their words. Locations have an address as well.
-/

namespace LyaLang.Ast

open Emit

/-- The operation of an operator on one operand. -/
def UnaryOp.opcode : UnaryOp → Opcode
  | negate => .neg
  | complement => .not

namespace BinaryOp

/-- The operation of an operator on numbers. -/
def opcode : BinaryOp → Opcode
  | add => .add | sub => .sub | mul => .mul | div => .div | mod => .mod
  | less => .les | lessEqual => .leq | greater => .grt | greaterEqual => .gre
  | equal => .equ | notEqual => .neq | both => .and | either => .lor

/-- The operation of an operator on strings; operators that strings lack do nothing. -/
def stringOpcode : BinaryOp → Opcode
  | add => .scat
  | equal => .seq
  | notEqual => .sne
  | _ => .nop

end BinaryOp

/-- How the arguments of a call are emitted. -/
inductive Passing where
  | read
  | print
  | operand
  | params (params : List Parameter)

def firstLabel (note : Note) : Emit Int64 := do
  return (← required .missingSymbol note.labels).first

/-- Emit a call, given how to emit its arguments; the result is whether it leaves a word. -/
def emitCall (callee : Ident Note) (count : Nat) (pass : Passing → Emit Unit) : Emit Bool := do
  match callee.note.symbol.bind (·.proc) with
  | none =>
    report (.notProcedure callee.name)
    return false
  | some proc =>
    match proc.builtin with
    | some .read =>
      pass .read
      return false
    | some .print =>
      pass .print
      op1 .prc (← pooled "\n")
      return false
    | some (.operation code _) =>
      if count == 0 then throw .argumentCount
      pass .operand
      op code
      return true
    | none =>
      op1 .alc 1
      pass (.params proc.params)
      op1 .cfu proc.entry
      return true

/-- Replace the location that a call leaves by the value there. -/
def loadCallResult (callee : Ident Note) : Emit Unit := do
  match callee.note.symbol with
  | none => return
  | some symbol =>
    let proc ← required .missingSymbol symbol.proc
    if proc.resultLoc then loadIndirect (some proc.result)

/-- Turn an index on top of the stack, above an address, into the address of an element; the result
is the mode of the element. -/
def emitElement (mode : Option Mode) : Emit Mode := do
  let mode ← required .missingMode mode
  if mode.isString then
    op2 .chk 0 (mode.capacity - 1)
    load (.int 1)
    op .add
    op1 .idx 1
    return .char
  op2 .chk mode.lower mode.upper
  load (.int mode.lower)
  op .sub
  let elem ← required .missingMode mode.elem?
  op1 .idx elem.size
  return elem

/-- Store the value read into a location that is not a string: directly into a variable, and through
an address otherwise. -/
def emitRead (a : Expr Note) (address : Emit Unit) : Emit Unit := do
  match a.note.mode with
  | some mode =>
    if mode.isString then
      address
      op1 .rds mode.capacity
      return
  | none => pure ()
  match a with
  | .ident id =>
    op .rdv
    storeScalar (← required .missingSymbol id.note.symbol)
  | _ =>
    address
    op .rdv
    op1 .smv 1

def emitPrint (a : Expr Note) (value address : Emit Unit) : Emit Unit := do
  match a with
  | .text _ s => op1 .prc (← pooled s)
  | _ =>
    if Mode.optionIsString a.note.mode then
      value
      op .prs
    else if Mode.optionIsArray a.note.mode then
      let mode ← required .missingMode a.note.mode
      address
      op1 .lmv mode.size
      op1 .prt mode.size
    else
      value
      op .prv

mutual

def Expr.emitValue : Expr Note → Emit Unit
  | int _ value => load (.int value)
  | bool _ value => load (.bool value)
  | char _ value => load (.ofChar value)
  | text _ value => do op1 .lsc (← pooled value)
  | ident id =>
    match id.note.symbol with
    | none => report (.notResolved id.name)
    | some symbol => loadSymbol symbol
  | unary _ o x => do
    x.emitValue
    op o.opcode
  | binary _ o x y => do
    x.emitValue
    y.emitValue
    op (if x.note.type == .string then o.stringOpcode else o.opcode)
  | cond note branches otherwise => do
    let first ← firstLabel note
    let exit := first + Int64.ofNat branches.length
    Expr.emitArms exit first branches
    otherwise.emitValue
    op1 .lbl exit
  | call _ callee args => do
    let _ ← emitCall callee args.length fun how => Expr.emitArguments how args
    loadCallResult callee
  | index note x indexes => do
    x.emitAddress
    Expr.emitIndexes x.note.mode indexes
    loadIndirect note.mode
  | deref note x => do
    x.emitValue
    loadIndirect note.mode
  | ref _ x => x.emitAddress

def Expr.emitAddress : Expr Note → Emit Unit
  | ident id =>
    match id.note.symbol with
    | none => report (.notResolved id.name)
    | some symbol => loadAddress symbol
  | index _ x indexes => do
    x.emitAddress
    Expr.emitIndexes x.note.mode indexes
  | deref _ x => x.emitValue
  | call _ callee args => do
    let _ ← emitCall callee args.length fun how => Expr.emitArguments how args
  | e => report (.notLocation e.kindName)

/-- Add indexes to the address on top of the stack. -/
def Expr.emitIndexes : Option Mode → List (Expr Note) → Emit Unit
  | _, [] => return ()
  | mode, i :: rest => do
    i.emitValue
    let elem ← emitElement mode
    Expr.emitIndexes (some elem) rest

/-- Emit the arms of a conditional expression, which end at a common exit; `label` follows the first
arm. -/
def Expr.emitArms (exit : Int64) : Int64 → List (CondValue Note) → Emit Unit
  | _, [] => return ()
  | label, .mk _ test value :: rest => do
    test.emitValue
    op1 .jof label
    value.emitValue
    op1 .jmp exit
    op1 .lbl label
    Expr.emitArms exit (label + 1) rest

def Expr.emitArguments : Passing → List (Expr Note) → Emit Unit
  | _, [] => return ()
  | .read, a :: rest => do
    emitRead a a.emitAddress
    Expr.emitArguments .read rest
  | .print, a :: rest => do
    emitPrint a a.emitValue a.emitAddress
    Expr.emitArguments .print rest
  | .operand, a :: _ => a.emitValue
  | .params [], _ :: _ => throw .argumentCount
  | .params (p :: params), a :: rest => do
    if p.loc then a.emitAddress else a.emitValue
    Expr.emitArguments (.params params) rest

end

end LyaLang.Ast
