import LyaLang.Check.Monad
import LyaLang.Machine.Program

/-! # Emitting code

Code is emitted instruction by instruction, each tagged with the source line of the statement at
hand. A tree that was not checked may lack what the generator needs: a name without a symbol is
reported and emission goes on, and a missing mode or counter ends it.
-/

namespace LyaLang

/-- A fault of a tree that was not checked. -/
inductive EmitFault where
  | notDeclared (name : Bytes)
  | procedureNotDeclared (name : Bytes)
  | notResolved (name : Bytes)
  | notProcedure (name : Bytes)
  | outsideProcedure (action : String)
  | notLocation (kind : String)
deriving DecidableEq, Repr

def EmitFault.message : EmitFault → Bytes
  | notDeclared name => name ++ (" was not declared" : Bytes)
  | procedureNotDeclared name => ("procedure " : Bytes) ++ name ++ (" was not declared" : Bytes)
  | notResolved name => name ++ (" was not resolved" : Bytes)
  | notProcedure name => name ++ (" is not a procedure" : Bytes)
  | outsideProcedure action => (action : Bytes) ++ (" outside a procedure" : Bytes)
  | notLocation kind => ("*compiler." : Bytes) ++ (kind : Bytes) ++ (" is not a location" : Bytes)

/-- A fault at a source line. -/
structure EmitError where
  fault : EmitFault
  line : Nat
deriving DecidableEq, Repr

def EmitError.message (e : EmitError) : Bytes :=
  ("line " : Bytes) ++ Text.ofNat e.line ++ (": " : Bytes) ++ e.fault.message

/-- The state of emission. -/
structure EmitState where
  code : Code := {}
  line : Nat := 0
  errors : List EmitError := []

/-- Emission. -/
abbrev Emit := StateT EmitState (Except Crash)

namespace Emit

def instruction (i : Instruction) : Emit Unit :=
  modify fun s => { s with code := s.code.emitAt i (Int64.ofNat s.line) }

/-- Append an operation without operands. -/
def op (op : Opcode) : Emit Unit := instruction { op }

/-- Append an operation with one operand. -/
def op1 (op : Opcode) (a : Int64) : Emit Unit := instruction { op, a }

/-- Append an operation with two operands. -/
def op2 (op : Opcode) (a b : Int64) : Emit Unit := instruction { op, a, b }

def load (k : Word) : Emit Unit := instruction { op := .ldc, k }

def pooled (s : Bytes) : Emit Int64 := do
  let (code, index) := (← get).code.addString s
  modify fun st => { st with code }
  return Int64.ofNat index

/-- Load a constant; text goes through the string pool. -/
def constant (k : Word) : Emit Unit := do
  if k.kind == .text then op1 .lsc (← pooled k.text) else load k

def report (fault : EmitFault) : Emit Unit :=
  modify fun s => { s with errors := s.errors ++ [⟨fault, s.line⟩] }

def atLine (line : Nat) : Emit Unit := modify fun s => { s with line }

/-- What must be there. -/
def required {γ : Type} (crash : Crash) (x : Option γ) : Emit γ :=
  match x with
  | some x => return x
  | none => throw crash

def loadScalar (s : Symbol) : Emit Unit :=
  op2 (if s.category.isIndirect then .lrv else .ldv) s.level s.offset

def storeScalar (s : Symbol) : Emit Unit :=
  op2 (if s.category.isIndirect then .srv else .stv) s.level s.offset

def loadAddress (s : Symbol) : Emit Unit :=
  op2 (if s.category.isIndirect then .ldv else .ldr) s.level s.offset

/-- Replace the address on top of the stack by the value there; a string stands for its address. -/
def loadIndirect (mode : Option Mode) : Emit Unit :=
  match mode with
  | some m =>
    if m.isString then return () else if m.isArray then op1 .lmv m.size else op .grc
  | none => op .grc

def loadSymbol (s : Symbol) : Emit Unit :=
  if s.category == .synonym then constant s.value
  else match s.mode with
    | some m =>
      if m.isString then loadAddress s
      else if m.isArray then do
        loadAddress s
        op1 .lmv m.size
      else loadScalar s
    | none => loadScalar s

end Emit

end LyaLang
