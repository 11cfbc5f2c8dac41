import LyaLang.Emit.Expr

/-! # Code of statements

Declarations without an initializer, synonyms and modes leave no code. A procedure is laid out where
it stands, with a jump over it. A counted loop jumps to its test first, so that a loop whose bounds
are empty does not run its body.
-/

namespace LyaLang.Ast

open Emit

/-- Copy a string into the block whose address is on top of the stack. A constant goes straight from
the pool; an append joins the old contents and the value first. -/
def emitString (mode : Mode) (o : Option BinaryOp) (value : Expr Note) : Emit Unit := do
  match o, value.note.constant with
  | none, some c =>
    if c.kind == .text then op2 .sts (← pooled c.text) mode.capacity
    else
      value.emitValue
      op1 .scp mode.capacity
  | none, none =>
    value.emitValue
    op1 .scp mode.capacity
  | some _, _ =>
    op .dup
    value.emitValue
    op .scat
    op1 .scp mode.capacity

/-- Store a value in a symbol, combined with its old value if there is an operator. -/
def emitAssignSymbol (symbol : Symbol) (o : Option BinaryOp) (value : Expr Note) : Emit Unit := do
  match symbol.mode with
  | some mode =>
    if mode.isString then
      loadAddress symbol
      emitString mode o value
    else if mode.isArray then
      loadAddress symbol
      value.emitAddress
      op1 .smr mode.size
    else scalar
  | none => scalar
where
  scalar : Emit Unit := do
    match o with
    | none => value.emitValue
    | some o =>
      loadScalar symbol
      value.emitValue
      op o.opcode
    storeScalar symbol

/-- Store a value through the address of a target, combined with the old value if there is an
operator. The address is computed once. -/
def emitAssignLocation (target : Expr Note) (o : Option BinaryOp) (value : Expr Note) : Emit Unit := do
  target.emitAddress
  match target.note.mode with
  | some mode =>
    if mode.isString then emitString mode o value
    else if mode.isArray then
      value.emitAddress
      op1 .smr mode.size
    else scalar
  | none => scalar
where
  scalar : Emit Unit := do
    match o with
    | none => value.emitValue
    | some o =>
      op .dup
      op .grc
      value.emitValue
      op o.opcode
    op1 .smv 1

def emitAssign (target : Expr Note) (o : Option BinaryOp) (value : Expr Note) : Emit Unit :=
  match target with
  | .ident id =>
    match id.note.symbol with
    | some symbol => emitAssignSymbol symbol o value
    | none => emitAssignLocation target o value
  | _ => emitAssignLocation target o value

def emitInitial (loc : Bool) (init : Expr Note) (id : Ident Note) : Emit Unit := do
  match id.note.symbol with
  | none => report (.notDeclared id.name)
  | some symbol =>
    if loc then
      init.emitAddress
      op2 .stv symbol.level symbol.offset
    else emitAssignSymbol symbol none init

def Declaration.emit (d : Declaration Note) : Emit Unit :=
  match d.init with
  | none => return ()
  | some init => d.names.forM (emitInitial d.loc init)

/-- Store the result of a procedure in the caller's result word, below the arguments. -/
def emitResult (action : String) (note : Note) (value : Option (Expr Note)) : Emit Unit := do
  match note.symbol with
  | none => report (.outsideProcedure action)
  | some function =>
    match value with
    | none => return
    | some e =>
      let proc ← required .missingSymbol function.proc
      if proc.resultLoc then e.emitAddress else e.emitValue
      op2 .stv proc.level (-(proc.arity.number + 3))

/-- Emit the initialization, step and test of a counted loop with the given labels. -/
def ForControl.emit (f : ForControl Note) (start test stop : Int64) : Emit Unit := do
  let slots := f.note.slots.getD ⟨0, 0, 0⟩
  f.start.emitValue
  let counter ← required .missingSymbol f.note.symbol
  storeScalar counter
  f.stop.emitValue
  op2 .stv slots.level slots.stop
  if slots.step ≥ 0 then
    f.step.forM Expr.emitValue
    op2 .stv slots.level slots.step
  op1 .jmp test
  op1 .lbl start
  loadScalar counter
  match f.step with
  | none => load (.int 1)
  | some step =>
    if slots.step ≥ 0 then op2 .ldv slots.level slots.step
    else constant (step.note.constant.getD {})
  op (if f.down then .sub else .add)
  storeScalar counter
  op1 .lbl test
  loadScalar counter
  op2 .ldv slots.level slots.stop
  op (if f.down then .gre else .leq)
  op1 .jof stop

mutual

def Stmt.emit : Stmt Note → Emit Unit
  | declare note decls => do
    atLine note.line
    decls.forM Declaration.emit
  | synonym note _ | modes note _ => atLine note.line
  | proc note name _ _ body => do
    atLine note.line
    match note.symbol with
    | none => report (.procedureNotDeclared name.name)
    | some symbol =>
      let proc ← required .missingSymbol symbol.proc
      let entry ← firstLabel note
      let frame := note.frame.getD 0
      op1 .jmp (entry + 2)
      op1 .lbl entry
      op1 .enf proc.level
      op1 .alc frame
      Stmt.emitList body
      atLine note.line
      op1 .lbl (entry + 1)
      op1 .dlc frame
      op2 .ret proc.level proc.arity.number
      op1 .lbl (entry + 2)
  | assign note target o value => do
    atLine note.line
    emitAssign target o value
  | branch note branches otherwise => do
    atLine note.line
    let first ← firstLabel note
    let exit := first + Int64.ofNat branches.length
    Stmt.emitArms exit first branches
    match otherwise with
    | none => pure ()
    | some body => Stmt.emitList body
    op1 .lbl exit
  | loop note control whilst body => do
    atLine note.line
    let start ← firstLabel note
    match control with
    | none => op1 .lbl start
    | some f => f.emit start (start + 1) (start + 2)
    match whilst with
    | none => pure ()
    | some e =>
      e.emitValue
      op1 .jof (start + 2)
    Stmt.emitList body
    atLine note.line
    op1 .jmp start
    op1 .lbl (start + 2)
  | call note _ callee args => do
    atLine note.line
    if ← emitCall callee args.length fun how => Expr.emitArguments how args then op1 .dlc 1
  | ret note value => do
    atLine note.line
    emitResult "return" note value
    match note.symbol with
    | none => return ()
    | some function =>
      let proc ← required .missingSymbol function.proc
      op1 .jmp (proc.entry + 1)
  | result note value => do
    atLine note.line
    emitResult "result" note (some value)

def Stmt.emitList : List (Stmt Note) → Emit Unit
  | [] => return ()
  | s :: rest => do
    s.emit
    Stmt.emitList rest

/-- Emit the arms of an `if` chain, which end at a common exit; `label` follows the first arm. -/
def Stmt.emitArms (exit : Int64) : Int64 → List (CondBranch Note) → Emit Unit
  | _, [] => return ()
  | label, .mk _ test body :: rest => do
    test.emitValue
    op1 .jof label
    Stmt.emitList body
    op1 .jmp exit
    op1 .lbl label
    Stmt.emitArms exit (label + 1) rest

end

def Program.emit (p : Program Note) : Emit Unit := do
  let frame := p.note.frame.getD 0
  op1 .alc frame
  Stmt.emitList p.stmts
  op1 .dlc frame
  op .stp

def Program.generate (p : Program Note) : Except Crash (Code × List EmitError) := do
  let ((), s) ← p.emit {}
  return (s.code, s.errors)

end LyaLang.Ast
