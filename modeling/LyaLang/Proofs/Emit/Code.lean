import LyaLang.Emit.Stmt
import LyaLang.Proofs.Emit.Draft

/-! # The code of constructs

The drafts that the constructs of a checked tree stand for. They follow the generator construct by
construct, without its state: where the generator would report a fault, a draft has nothing.
-/

namespace LyaLang

/-- The first label of a construct. -/
def Note.firstLabel (n : Note) : Int64 := (n.labels.map (·.first)).getD 0

namespace Symbol

/-- Push the scalar value of a symbol. -/
def loadDraft (s : Symbol) : Draft := .op2 (if s.category.isIndirect then .lrv else .ldv) s.level s.offset

/-- Pop a scalar value into a symbol. -/
def storeDraft (s : Symbol) : Draft := .op2 (if s.category.isIndirect then .srv else .stv) s.level s.offset

/-- Push the address of the storage of a symbol. -/
def addressDraft (s : Symbol) : Draft := .op2 (if s.category.isIndirect then .ldv else .ldr) s.level s.offset

end Symbol

/-- Replace an address by the value there. -/
def Mode.indirectCode (m : Mode) : List Draft :=
  if m.isString then [] else if m.isArray then [.op1 .lmv m.size] else [.op .grc]

/-- Push the value of a symbol. -/
def Symbol.code (s : Symbol) : List Draft :=
  if s.category == .synonym then [.constant s.value]
  else match s.mode with
    | some m =>
      if m.isString then [s.addressDraft]
      else if m.isArray then [s.addressDraft, .op1 .lmv m.size]
      else [s.loadDraft]
    | none => [s.loadDraft]

/-- The mode under one index. -/
def Mode.element? (m : Mode) : Option Mode := if m.isString then some .char else m.elem?

/-- Turn an index above an address into the address of an element. -/
def Mode.elementCode (m : Mode) : List Draft :=
  if m.isString then [.op2 .chk 0 (m.capacity - 1), .load (.int 1), .op .add, .op1 .idx 1]
  else [.op2 .chk m.lower m.upper, .load (.int m.lower), .op .sub, .op1 .idx ((m.elem?.map Mode.size).getD 0)]

namespace Ast

/-- Emit a call, given the drafts of its arguments. -/
def callCode (callee : Ident Note) (pass : Passing → List Draft) : List Draft :=
  match callee.note.symbol.bind (·.proc) with
  | none => []
  | some proc =>
    match proc.builtin with
    | some .read => pass .read
    | some .print => pass .print ++ [.pooled .prc "\n"]
    | some (.operation code _) => pass .operand ++ [.op code]
    | none => .op1 .alc 1 :: (pass (.params proc.params) ++ [.op1 .cfu proc.entry])

/-- Whether a call leaves a word. -/
def callLeaves (callee : Ident Note) : Bool :=
  (callee.note.symbol.bind (·.proc)).any fun proc => proc.builtin != some .read && proc.builtin != some .print

/-- Replace the location that a call leaves by the value there. -/
def callResultCode (callee : Ident Note) : List Draft :=
  match callee.note.symbol.bind (·.proc) with
  | none => []
  | some proc => if proc.resultLoc then proc.result.indirectCode else []

/-- Read into a location with the given address. -/
def readCode (a : Expr Note) (address : List Draft) : List Draft :=
  match a.note.mode with
  | none => []
  | some m =>
    if m.isString then address ++ [.op1 .rds m.capacity]
    else match a with
      | .ident id => .op .rdv :: (id.note.symbol.map Symbol.storeDraft).toList
      | _ => address ++ [.op .rdv, .op1 .smv 1]

/-- Print an argument with the given value and address. -/
def printCode (a : Expr Note) (value address : List Draft) : List Draft :=
  match a with
  | .text _ s => [.pooled .prc s]
  | _ =>
    match a.note.mode with
    | none => []
    | some m =>
      if m.isString then value ++ [.op .prs]
      else if m.isArray then address ++ [.op1 .lmv m.size, .op1 .prt m.size]
      else value ++ [.op .prv]

mutual

/-- Push the value of an expression. -/
def Expr.valueCode : Expr Note → List Draft
  | int _ value => [.load (.int value)]
  | bool _ value => [.load (.bool value)]
  | char _ value => [.load (.ofChar value)]
  | text _ value => [.pooled .lsc value]
  | ident id => (id.note.symbol.map Symbol.code).getD []
  | unary _ o x => x.valueCode ++ [.op o.opcode]
  | binary _ o x y =>
    x.valueCode ++ (y.valueCode ++ [.op (if x.note.type == .string then o.stringOpcode else o.opcode)])
  | cond note branches otherwise =>
    Expr.armsCode (note.firstLabel + Int64.ofNat branches.length) note.firstLabel branches ++
      (otherwise.valueCode ++ [.op1 .lbl (note.firstLabel + Int64.ofNat branches.length)])
  | call _ callee args => callCode callee (fun how => Expr.argumentsCode how args) ++ callResultCode callee
  | index note x indexes =>
    x.addressCode ++ (Expr.indexesCode x.note.mode indexes ++ (note.mode.map Mode.indirectCode).getD [])
  | deref note x => x.valueCode ++ (note.mode.map Mode.indirectCode).getD []
  | ref _ x => x.addressCode

/-- Push the address of an expression. -/
def Expr.addressCode : Expr Note → List Draft
  | ident id => (id.note.symbol.map Symbol.addressDraft).toList
  | index _ x indexes => x.addressCode ++ Expr.indexesCode x.note.mode indexes
  | deref _ x => x.valueCode
  | call _ callee args => callCode callee fun how => Expr.argumentsCode how args
  | _ => []

/-- Add indexes to the address on top of the stack. -/
def Expr.indexesCode : Option Mode → List (Expr Note) → List Draft
  | some mode, i :: rest => i.valueCode ++ (mode.elementCode ++ Expr.indexesCode mode.element? rest)
  | _, _ => []

/-- The arms of a conditional expression, which end at a common exit; `label` follows the first arm. -/
def Expr.armsCode (exit : Int64) : Int64 → List (CondValue Note) → List Draft
  | _, [] => []
  | label, .mk _ test value :: rest =>
    test.valueCode ++ (.op1 .jof label :: (value.valueCode ++ (.op1 .jmp exit :: .op1 .lbl label ::
      Expr.armsCode exit (label + 1) rest)))

/-- The arguments of a call. -/
def Expr.argumentsCode : Passing → List (Expr Note) → List Draft
  | .read, a :: rest => readCode a a.addressCode ++ Expr.argumentsCode .read rest
  | .print, a :: rest => printCode a a.valueCode a.addressCode ++ Expr.argumentsCode .print rest
  | .operand, a :: _ => a.valueCode
  | .params (p :: params), a :: rest =>
    (if p.loc then a.addressCode else a.valueCode) ++ Expr.argumentsCode (.params params) rest
  | _, _ => []

end

/-! ## Statements -/

/-- Copy a string into the block whose address is on top of the stack. -/
def stringCode (m : Mode) (o : Option BinaryOp) (value : Expr Note) : List Draft :=
  match o with
  | some _ => .op .dup :: (value.valueCode ++ [.op .scat, .op1 .scp m.capacity])
  | none =>
    match value.note.constant with
    | some c =>
      if c.kind == .text then [.pooled .sts c.text m.capacity] else value.valueCode ++ [.op1 .scp m.capacity]
    | none => value.valueCode ++ [.op1 .scp m.capacity]

/-- Store a value in a symbol, combined with its old value if there is an operator. -/
def assignSymbolCode (symbol : Symbol) (o : Option BinaryOp) (value : Expr Note) : List Draft :=
  match symbol.mode with
  | none => []
  | some m =>
    if m.isString then symbol.addressDraft :: stringCode m o value
    else if m.isArray then symbol.addressDraft :: (value.addressCode ++ [.op1 .smr m.size])
    else match o with
      | none => value.valueCode ++ [symbol.storeDraft]
      | some o => symbol.loadDraft :: (value.valueCode ++ [.op o.opcode, symbol.storeDraft])

/-- Store a value through the address of a target, combined with the old value if there is an operator. -/
def assignLocationCode (target : Expr Note) (o : Option BinaryOp) (value : Expr Note) : List Draft :=
  target.addressCode ++
    match target.note.mode with
    | none => []
    | some m =>
      if m.isString then stringCode m o value
      else if m.isArray then value.addressCode ++ [.op1 .smr m.size]
      else match o with
        | none => value.valueCode ++ [.op1 .smv 1]
        | some o => .op .dup :: .op .grc :: (value.valueCode ++ [.op o.opcode, .op1 .smv 1])

/-- An assignment. -/
def assignCode (target : Expr Note) (o : Option BinaryOp) (value : Expr Note) : List Draft :=
  match target with
  | .ident id => (id.note.symbol.map (assignSymbolCode · o value)).getD []
  | _ => assignLocationCode target o value

/-- The initialization of one name. -/
def initialCode (loc : Bool) (init : Expr Note) (id : Ident Note) : List Draft :=
  match id.note.symbol with
  | none => []
  | some symbol =>
    if loc then init.addressCode ++ [.op2 .stv symbol.level symbol.offset] else assignSymbolCode symbol none init

/-- The initializations of a declaration. -/
def Declaration.code (d : Declaration Note) : List Draft :=
  match d.init with
  | none => []
  | some init => d.names.flatMap (initialCode d.loc init)

/-- Store the result of a procedure in the caller's result word. -/
def resultCode (note : Note) (value : Option (Expr Note)) : List Draft :=
  match note.symbol.bind (·.proc), value with
  | some proc, some e =>
    (if proc.resultLoc then e.addressCode else e.valueCode) ++ [.op2 .stv proc.level (-(proc.arity.number + 3))]
  | _, _ => []

/-- The step of a counted loop. -/
def ForControl.stepDraft (f : ForControl Note) (slots : LoopSlots) : Draft :=
  match f.step with
  | none => .load (.int 1)
  | some step =>
    if slots.step ≥ 0 then .op2 .ldv slots.level slots.step else .constant (step.note.constant.getD {})

/-- The initialization, step and test of a counted loop with the given labels. -/
def ForControl.code (f : ForControl Note) (start test stop : Int64) : List Draft :=
  match f.note.symbol with
  | none => []
  | some counter =>
    let slots := f.note.slots.getD ⟨0, 0, 0⟩
    f.start.valueCode ++ (counter.storeDraft :: (f.stop.valueCode ++ (.op2 .stv slots.level slots.stop ::
      ((if slots.step ≥ 0 then (f.step.map Expr.valueCode).getD [] ++ [.op2 .stv slots.level slots.step] else []) ++
        [.op1 .jmp test, .op1 .lbl start, counter.loadDraft, f.stepDraft slots, .op (if f.down then .sub else .add),
          counter.storeDraft, .op1 .lbl test, counter.loadDraft, .op2 .ldv slots.level slots.stop,
          .op (if f.down then .gre else .leq), .op1 .jof stop]))))

/-- The start of a loop with the given first label. -/
def controlCode (first : Int64) (control : Option (ForControl Note)) : List Draft :=
  match control with
  | none => [.op1 .lbl first]
  | some f => f.code first (first + 1) (first + 2)

/-- The condition of a loop. -/
def whilstCode (stop : Int64) (whilst : Option (Expr Note)) : List Draft :=
  match whilst with
  | none => []
  | some e => e.valueCode ++ [.op1 .jof stop]

mutual

/-- A statement. -/
def Stmt.code : Stmt Note → List Draft
  | declare _ decls => decls.flatMap Declaration.code
  | synonym _ _ | modes _ _ => []
  | proc note _ _ _ body =>
    match note.symbol.bind (·.proc) with
    | none => []
    | some p =>
      .op1 .jmp (note.firstLabel + 2) :: .op1 .lbl note.firstLabel :: .op1 .enf p.level ::
        .op1 .alc (note.frame.getD 0) :: (Stmt.listCode body ++ [.op1 .lbl (note.firstLabel + 1),
          .op1 .dlc (note.frame.getD 0), .op2 .ret p.level p.arity.number, .op1 .lbl (note.firstLabel + 2)])
  | assign _ target o value => assignCode target o value
  | branch note branches otherwise =>
    Stmt.armsCode (note.firstLabel + Int64.ofNat branches.length) note.firstLabel branches ++
      (Stmt.elseCode otherwise ++ [.op1 .lbl (note.firstLabel + Int64.ofNat branches.length)])
  | loop note control whilst body =>
    controlCode note.firstLabel control ++ (whilstCode (note.firstLabel + 2) whilst ++ (Stmt.listCode body ++
      [.op1 .jmp note.firstLabel, .op1 .lbl (note.firstLabel + 2)]))
  | call _ _ callee args =>
    callCode callee (fun how => Expr.argumentsCode how args) ++ if callLeaves callee then [.op1 .dlc 1] else []
  | ret note value =>
    resultCode note value ++
      match note.symbol.bind (·.proc) with
      | none => []
      | some p => [.op1 .jmp (p.entry + 1)]
  | result note value => resultCode note (some value)

/-- Statements in order. -/
def Stmt.listCode : List (Stmt Note) → List Draft
  | [] => []
  | s :: rest => s.code ++ Stmt.listCode rest

/-- An optional body. -/
def Stmt.elseCode : Option (List (Stmt Note)) → List Draft
  | none => []
  | some body => Stmt.listCode body

/-- The arms of an `if` chain, which end at a common exit; `label` follows the first arm. -/
def Stmt.armsCode (exit : Int64) : Int64 → List (CondBranch Note) → List Draft
  | _, [] => []
  | label, .mk _ test body :: rest =>
    test.valueCode ++ (.op1 .jof label :: (Stmt.listCode body ++ (.op1 .jmp exit :: .op1 .lbl label ::
      Stmt.armsCode exit (label + 1) rest)))

end

/-- A program: its frame, its statements, and a stop. -/
def Program.code (p : Program Note) : List Draft :=
  .op1 .alc (p.note.frame.getD 0) :: (Stmt.listCode p.stmts ++ [.op1 .dlc (p.note.frame.getD 0), .op .stp])

end Ast

end LyaLang
