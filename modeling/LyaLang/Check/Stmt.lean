import LyaLang.Check.ModeExpr

/-! # Checking statements

Statements are checked in source order, so a name must be declared before it is used. A name whose
declaration is at fault is declared all the same, so that one fault is reported once.
-/

namespace LyaLang.Ast

open Check

/-- Declare the names of a declaration, each with a symbol of its own; names that are taken are
skipped. -/
def declareNames (make : Ident Note → Symbol) : List (Ident Note) → Check (List (Ident Note))
  | [] => return []
  | id :: rest => do
    let id ← do
      if ← isFree id then pure (id.resolve (← declare (make id)) .declaration) else pure id
    return id :: (← declareNames make rest)

def checkAlias (note : Note) (mode : Option Mode) (init : Option (Expr Note)) :
    Check (Option (Expr Note)) := do
  match init with
  | none =>
    report note.line .aliasNeedsLocation
    return none
  | some e =>
    if !e.type.isKnown then return some e
    if !e.isLocation then report e.line .aliasNeedsLocation
    else if ← expect e.line (Mode.optionType mode) e.type then sameSize e.line mode e.note.mode
    return some (e.markUsage .reference)

def checkInitial (mode : Option Mode) (e : Expr Note) : Check Unit := do
  if (← expect e.line (Mode.optionType mode) e.type) && Mode.optionIsArray mode then
    if !e.isLocation then report e.line .arrayNeedsLocation
    else sameSize e.line mode e.note.mode

/-- The mode of declared storage, unless it takes no words. -/
def storageMode (m : ModeExpr Note) : Check (Option Mode) := do
  match m.note.mode with
  | none => return none
  | some mode =>
    if mode.size == 0 then
      report m.note.line (.noStorage mode)
      return none
    return some mode

def checkOptional : Option (Expr Note) → Check (Option (Expr Note))
  | none => return none
  | some e => do return some (← e.check)

def Declaration.check (d : Declaration Note) : Check (Declaration Note) := judge do
  let modeExpr ← d.mode.check
  let init ← checkOptional d.init
  let valid := modeExpr.note.isValid && init.all (·.isValid)
  let mode ← storageMode modeExpr
  let init ← do
    if d.loc then checkAlias d.note mode init
    else
      init.forM (checkInitial mode)
      pure init
  let symbol (id : Ident Note) : Symbol :=
    { name := id.name
      category := if d.loc then .location else .var
      mode
      size := if d.loc then 1 else (mode.map Mode.size).getD 0
      line := Int64.ofNat id.note.line }
  let names ← declareNames symbol d.names
  return (valid, { d with names, mode := modeExpr, init })

def SynonymDef.check (d : SynonymDef Note) : Check (SynonymDef Note) := judge do
  let value ← d.value.check
  let modeExpr ← match d.mode with
    | none => pure none
    | some m => do pure (some (← m.check))
  let valid := value.isValid && modeExpr.all (·.note.isValid)
  let given := modeExpr.bind (·.note.mode)
  let mode ← do
    if !valid then pure given
    else match given with
      | some mode =>
        let _ ← expect value.line mode.type value.type
        pure (some mode)
      | none => pure value.note.mode
  if valid && value.note.constant.isNone then report value.line .notConstant
  let symbol (id : Ident Note) : Symbol :=
    { name := id.name
      category := .synonym
      mode
      line := Int64.ofNat id.note.line
      value := value.note.constant.getD {} }
  let names ← declareNames symbol d.names
  return (valid, { d with names, mode := modeExpr, value })

def ModeDef.check (d : ModeDef Note) : Check (ModeDef Note) := judge do
  let modeExpr ← d.mode.check
  let mode := modeExpr.note.mode
  let symbol (id : Ident Note) : Symbol :=
    { name := id.name
      category := .mode
      mode := mode.map (.named id.name)
      size := (mode.map Mode.size).getD 0
      line := Int64.ofNat id.note.line }
  let names ← declareNames symbol d.names
  return (modeExpr.note.isValid, { d with names, mode := modeExpr })

def checkEach {γ : Type} (check : γ → Check γ) : List γ → Check (List γ)
  | [] => return []
  | x :: rest => do
    let x ← check x
    return x :: (← checkEach check rest)

/-- Check a result clause; the result is whether it is valid, the clause, and its mode. A result that
is not one word must be returned as a location. -/
def checkResult (spec : Option (ResultSpec Note)) :
    Check (Bool × Option (ResultSpec Note) × Option Mode) := do
  match spec with
  | none => return (true, none, some .void)
  | some r =>
    let mode ← r.mode.check
    let r := { r with mode }
    if !mode.note.isValid then return (false, some r, none)
    if r.loc then return (true, some r, mode.note.mode)
    let result ← required mode.note.mode
    if result.size != 1 then report r.note.line (.resultByValue result)
    return (true, some r, some result)

/-- Check the mode of a parameter group. A value that is not one word must be passed as a location. -/
def FormalParam.checkMode (p : FormalParam Note) : Check (FormalParam Note) := do
  let mode ← p.mode.check
  let p := { p with mode }
  if mode.note.isValid && !p.loc then
    let passed ← required mode.note.mode
    if passed.size != 1 then report p.note.line (.parameterByValue passed)
  return p

/-- What is known of the parameters of a group whose mode has been checked. -/
def FormalParam.parameters (p : FormalParam Note) : List Parameter :=
  let mode := if p.mode.note.isValid then p.mode.note.mode else none
  p.names.map fun _ => { mode, loc := p.loc }

/-- Declare the names of a parameter group, from a position on, below the frame of the procedure. -/
def declareParamNames (count : Nat) (level : Int64) (loc : Bool) (mode : Option Mode) :
    Nat → List (Ident Note) → Check (List (Ident Note))
  | _, [] => return []
  | position, id :: rest => do
    let symbol : Symbol :=
      { name := id.name
        category := if loc then .locParam else .param
        mode
        size := 1
        line := Int64.ofNat id.note.line }
    let offset := Int64.ofNat position - (Int64.ofNat count + 2)
    let id ← do
      if ← isFree id then pure (id.resolve (← declareAt symbol offset level) .declaration) else pure id
    return id :: (← declareParamNames count level loc mode (position + 1) rest)

/-- Declare the parameters of a procedure with `count` of them, from a position on. -/
def declareParams (count : Nat) (level : Int64) : Nat → List (FormalParam Note) → Check (List (FormalParam Note))
  | _, [] => return []
  | position, p :: rest => do
    let mode := if p.mode.note.isValid then p.mode.note.mode else none
    let names ← declareParamNames count level p.loc mode position p.names
    return { p with names } :: (← declareParams count level (position + p.names.length) rest)

def checkAssign (note : Note) (target : Expr Note) (op : Option BinaryOp) (value : Expr Note) :
    Check (Expr Note) := do
  if !target.isLocation then
    match target with
    | .ident id =>
      match id.note.symbol with
      | some symbol => report target.line (.assignsTo symbol.category id.name)
      | none => throw .missingSymbol
    | _ => report target.line .targetNoLocation
    return target
  let target := target.markUsage .assign
  if !(← expect value.line target.type value.type) then return target
  match op with
  | none => pure ()
  | some op =>
    if !target.type.isKnown then throw .missingMode
    if !op.assignsOn target.type then
      report note.line (.operator (op.symbol ++ "=" : String) target.type)
      return target
  if target.type.isArray then
    if !value.isLocation then report value.line .arrayNeedsLocation
    else sameSize value.line target.note.mode value.note.mode
  return target

def checkCondition (e : Expr Note) : Check (Expr Note) := do
  let e ← e.check
  expectType .bool e
  return e

def checkInteger (e : Expr Note) : Check (Expr Note) := do
  let e ← e.check
  expectType .int e
  return e

/-- Find or declare the counter of a loop. A name that is not in scope is declared by the loop. -/
def checkCounter (id : Ident Note) : Check (Symbol × Usage × Bool) := do
  match (← environment).lookup? id.name with
  | none =>
    let symbol ← declare
      { name := id.name, category := .counter, mode := some .int, size := 1, line := Int64.ofNat id.note.line }
    return (symbol, .declaration, true)
  | some symbol =>
    if !symbol.category.hasStorage then report id.note.line (.counterIs symbol.name symbol.category)
    else
      let _ ← expect id.note.line .int symbol.type
    return (symbol, .assign, false)

/-- Check the counting clause of a loop and reserve the words of its bound and step. -/
def ForControl.check (f : ForControl Note) : Check (ForControl Note) := do
  let start ← checkInteger f.start
  let step ← match f.step with
    | none => pure none
    | some e => do pure (some (← checkInteger e))
  let stop ← checkInteger f.stop
  let (symbol, usage, declaresCounter) ← checkCounter f.counter
  let level := (← environment).inner.level
  let stopSlot ← reserve 1
  let stepSlot ← do
    if step.any (·.note.constant.isNone) then reserve 1 else pure (-1)
  let slots := some { level, stop := stopSlot, step := stepSlot }
  return { f with
    note := { f.note with symbol := some symbol, slots, declaresCounter }
    counter := f.counter.resolve symbol usage
    start, step, stop }

def ForControl.isValid (f : ForControl Note) : Bool :=
  f.start.isValid && f.step.all (·.isValid) && f.stop.isValid

/-- Check the value of a `return` or `result` action, once its expression has been checked. -/
def checkResultValue (action : String) (note : Note) (value : Option (Expr Note)) :
    Check (Note × Option (Expr Note)) := do
  match (← get).context.currentFunction? with
  | none =>
    report note.line (.outsideProcedure action)
    return (note, value)
  | some function =>
    let note := { note with symbol := some function }
    match value with
    | none => return (note, none)
    | some e =>
      if !e.isValid then return (note, some e)
      match function.proc with
      | none => throw .missingSymbol
      | some proc =>
        if proc.result == .void then
          report e.line (.mismatch .void e.type)
          return (note, some e)
        if !(← expect e.line proc.result.type e.type) then return (note, some e)
        if !proc.resultLoc then return (note, some e)
        if !e.isLocation then
          report e.line (.resultNeedsLocation action)
          return (note, some e)
        sameSize e.line (some proc.result) e.note.mode
        return (note, some (e.markUsage .reference))

/-- What a procedure header declares, once it has been checked. -/
structure CheckedHeader where
  valid : Bool
  symbol : Symbol
  procedure : Procedure
  name : Ident Note
  params : List (FormalParam Note)
  result : Option (ResultSpec Note)

/-- Check the header of a procedure and declare it. The frame of the procedure is open afterwards. -/
def checkHeader (note : Note) (name : Ident Note) (params : List (FormalParam Note))
    (result : Option (ResultSpec Note)) : Check CheckedHeader := do
  let (resultValid, result, resultMode) ← checkResult result
  let level := (← environment).inner.level + 1
  let params ← checkEach FormalParam.checkMode params
  let procedure : Procedure :=
    { entry := (note.labels.map (·.first)).getD 0
      arity := .exactly (FormalParam.count params)
      level
      result := resultMode.getD .void
      resultLoc := result.any (·.loc)
      params := params.flatMap FormalParam.parameters }
  let symbol : Symbol :=
    { name := name.name
      category := .procedure
      mode := resultMode
      line := Int64.ofNat name.note.line
      proc := some procedure }
  let symbol ← do
    if ← isFree name then declare symbol else pure { symbol with serial := ← newSerial }
  setEnvironment ((← environment).push (some symbol))
  let params ← declareParams (FormalParam.count params) level 0 params
  return {
    valid := resultValid && params.all (·.mode.note.isValid)
    symbol, procedure
    name := name.resolve symbol .declaration
    params, result }

mutual

def Stmt.check : Stmt Note → Check (Stmt Note)
  | declare note decls => judge do
    let decls ← checkEach Declaration.check decls
    return (decls.all (·.note.isValid), declare note decls)
  | synonym note defs => judge do
    let defs ← checkEach SynonymDef.check defs
    return (defs.all (·.note.isValid), synonym note defs)
  | modes note defs => judge do
    let defs ← checkEach ModeDef.check defs
    return (defs.all (·.note.isValid), modes note defs)
  | proc note name params spec body => judge do
    let header ← checkHeader note name params spec
    modify fun s => { s with context := s.context.pushFunction header.symbol }
    let body ← Stmt.checkList body
    modify fun s => { s with context := s.context.popFunction }
    let frame := (← environment).frameSize
    setEnvironment (← environment).pop
    let note := { note with symbol := some header.symbol, frame := some frame }
    return (header.valid && body.all (·.note.isValid),
      proc note header.name header.params header.result body)
  | assign note target op value => judge do
    let target ← target.check
    let value ← value.check
    if !(target.isValid && value.isValid) then return (false, assign note target op value)
    let target ← checkAssign note target op value
    return (true, assign note target op value)
  | branch note branches otherwise => judge do
    let branches ← Stmt.checkArms branches
    let otherwise ← Stmt.checkElse otherwise
    let valid := branches.all (fun arm => arm.cond.isValid && arm.body.all (·.note.isValid)) &&
      otherwise.all (·.all (·.note.isValid))
    return (valid, branch note branches otherwise)
  | loop note control whilst body => judge do
    inBlock do
      let control ← match control with
        | none => pure none
        | some f => do pure (some (← f.check))
      let whilst ← match whilst with
        | none => pure none
        | some e => do pure (some (← checkCondition e))
      let body ← Stmt.checkList body
      let valid := control.all (·.isValid) && whilst.all (·.isValid) && body.all (·.note.isValid)
      return (valid, loop note control whilst body)
  | call note callNote callee args => judge do
    match ← (Expr.call callNote callee args).check with
    | .call callNote callee args => return (callNote.isValid, call note callNote callee args)
    | _ => return (false, call note callNote callee args)
  | ret note value => judge do
    let value ← checkOptional value
    let (note, checked) ← checkResultValue "return" note value
    return (value.all (·.isValid), ret note checked)
  | result note value => judge do
    let value ← value.check
    let (note, checked) ← checkResultValue "result" note (some value)
    return (value.isValid, result note (checked.getD value))

def Stmt.checkList : List (Stmt Note) → Check (List (Stmt Note))
  | [] => return []
  | s :: rest => do
    let s ← s.check
    return s :: (← Stmt.checkList rest)

def Stmt.checkElse : Option (List (Stmt Note)) → Check (Option (List (Stmt Note)))
  | none => return none
  | some body => do return some (← inBlock (Stmt.checkList body))

/-- Check the arms of an `if` chain, each body in a scope of its own. -/
def Stmt.checkArms : List (CondBranch Note) → Check (List (CondBranch Note))
  | [] => return []
  | .mk note test body :: rest => do
    let test ← checkCondition test
    let body ← inBlock (Stmt.checkList body)
    return .mk note test body :: (← Stmt.checkArms rest)

end

/-- Check a program in a scope of its own. A program that has been checked is not checked again. -/
def Program.check (p : Program Note) : Check (Program Note) := do
  if p.note.verdict.isSome then return p
  judge do
    setEnvironment ((← environment).pushBlock none)
    let stmts ← Stmt.checkList p.stmts
    let frame := (← environment).frameSize
    setEnvironment (← environment).pop
    return (stmts.all (·.note.isValid), { note := { p.note with frame := some frame }, stmts })

end LyaLang.Ast
