import LyaLang.Check.Monad
import LyaLang.Text.Utf8

/-! # Checking expressions

Every expression gets a mode when its parts have types that fit, and a constant when its parts are
constants. A part of unknown type was reported where it arose and is not reported again.
-/

namespace LyaLang.Ast

open Check

namespace Expr

def type (e : Expr Note) : ValueType := e.note.type

def line (e : Expr Note) : Nat := e.note.line

def isValid (e : Expr Note) : Bool := e.note.isValid

/-- Whether an expression denotes storage that has an address. -/
def isLocation : Expr Note → Bool
  | ident id => id.note.symbol.any (·.category.hasStorage)
  | index _ _ _ | deref _ _ => true
  | call _ callee _ => (callee.note.symbol.bind (·.proc)).any (·.resultLoc)
  | _ => false

/-- The expression with the usage of its name, if it is one. -/
def markUsage (usage : Usage) : Expr Note → Expr Note
  | ident id => ident { id with note := { id.note with usage := some usage } }
  | e => e

end Expr

def UnaryOp.definedOn : UnaryOp → ValueType → Bool
  | complement, .bool | negate, .int => true
  | _, _ => false

/-- The value of an operator on a constant. -/
def UnaryOp.fold : UnaryOp → Word → Word
  | negate, c => .int (-c.number)
  | complement, c => .bool (c.number == 0)

namespace BinaryOp

/-- Whether an operator compares its operands. -/
def isRelational : BinaryOp → Bool
  | less | lessEqual | greater | greaterEqual | equal | notEqual => true
  | _ => false

/-- Whether an operator computes a number from numbers. -/
def isArithmetic : BinaryOp → Bool
  | add | sub | mul | div | mod => true
  | _ => false

def definedOn (op : BinaryOp) : ValueType → Bool
  | .int => op.isArithmetic || op.isRelational
  | .bool => op == .equal || op == .notEqual || op == .both || op == .either
  | .string => op == .equal || op == .notEqual || op == .add
  | .char => op.isRelational
  | _ => false

def assignsOn (op : BinaryOp) : ValueType → Bool
  | .int => op.isArithmetic
  | .string => op == .add
  | _ => false

/-- The value of an operator on two numbers, as the machine computes it. Division by zero has none. -/
def foldNumbers? (op : BinaryOp) (a b : Int64) : Option Word :=
  match op with
  | add => some (.int (a + b))
  | sub => some (.int (a - b))
  | mul => some (.int (a * b))
  | div => if b == 0 then none else some (.int (a / b))
  | mod => if b == 0 then none else some (.int (a % b))
  | less => some (.bool (a < b))
  | lessEqual => some (.bool (a ≤ b))
  | greater => some (.bool (b < a))
  | greaterEqual => some (.bool (b ≤ a))
  | equal => some (.bool (a == b))
  | notEqual => some (.bool (a != b))
  | both => some (.bool (a != 0 && b != 0))
  | either => some (.bool (a != 0 || b != 0))

/-- The value of an operator on two constants. -/
def fold? (op : BinaryOp) (x y : Word) : Option Word :=
  if x.kind == .text then
    match op with
    | add => some (.ofText (x.text ++ y.text))
    | equal => some (.bool (x.text == y.text))
    | notEqual => some (.bool (x.text != y.text))
    | _ => none
  else op.foldNumbers? x.number y.number

end BinaryOp

def literalNote (note : Note) (mode : Mode) (value : Word) : Note :=
  { note with mode := some mode, constant := some value }

def checkIdent (id : Ident Note) : Check (Ident Note) := do
  match (← environment).lookup? id.name with
  | none =>
    report id.note.line (.undeclared id.name)
    return id
  | some symbol =>
    let id := id.resolve symbol .value
    match symbol.category with
    | .mode =>
      report id.note.line (.modeAsValue id.name)
      return id
    | .procedure =>
      report id.note.line (.procedureAsValue id.name)
      return id
    | .synonym => return { id with note := { id.note with mode := symbol.mode, constant := some symbol.value } }
    | _ => return { id with note := { id.note with mode := symbol.mode } }

def checkUnary (note : Note) (op : UnaryOp) (x : Expr Note) : Check Note := do
  if !x.type.isKnown then return note
  if !op.definedOn x.type then
    report note.line (.operator op.symbol x.type)
    return note
  return { note with mode := Mode.ofScalar? x.type, constant := x.note.constant.map op.fold }

/-- Check an operator on two valid operands. -/
def checkBinary (note : Note) (op : BinaryOp) (x y : Expr Note) : Check Note := do
  if !x.type.isKnown || !y.type.isKnown then return note
  if !(← expect y.line x.type y.type) then return note
  if !op.definedOn x.type then
    report note.line (.operator op.symbol x.type)
    return note
  let mode := if op.isRelational then some .bool else Mode.ofScalar? x.type
  let constant := do op.fold? (← x.note.constant) (← y.note.constant)
  return { note with mode, constant }

/-- Check the values of a conditional expression with valid parts. -/
def checkCond (note : Note) (branches : List (CondValue Note)) (otherwise : Expr Note) : Check Note := do
  let want := otherwise.type
  for arm in branches do
    let _ ← expect arm.value.line want arm.value.type
  if !want.isKnown then return note
  if want.isArray || want == .void then
    report note.line (.conditionalYields want)
    return note
  return { note with mode := if want == .string then some .string else otherwise.note.mode }

def checkRead (a : Expr Note) : Check (Expr Note) := do
  if !a.isLocation then
    report a.line .readNeedsLocation
    return a
  if !a.type.isKnown || a.type.isArray || a.type.isReference then
    report a.line (.cannotRead a.type)
    return a
  return a.markUsage .reference

def checkPrint (a : Expr Note) : Check Unit := do
  if !a.type.isKnown || a.type == .void then report a.line (.cannotPrint a.type)
  else if a.type.isArray then
    if a.type.innermost == .string then report a.line (.cannotPrint a.type)
    else if !a.isLocation then report a.line .arrayNeedsLocation

def checkOperand (accepts : List ValueType) (a : Expr Note) : Check Unit := do
  if !accepts.contains a.type then report a.line (.mismatch (accepts.headD .unknown) a.type)

def checkArgument (position : Nat) (param : Parameter) (a : Expr Note) : Check (Expr Note) := do
  match param.mode with
  | none => return a
  | some want =>
    if !(← expect a.line want.type a.type) then return a
    if !param.loc then return a
    if !a.isLocation then
      report a.line (.argumentNeedsLocation position)
      return a
    sameSize a.line (some want) a.note.mode
    return a.markUsage .reference

def checkArguments : Nat → List Parameter → List (Expr Note) → Check (List (Expr Note))
  | position, param :: params, a :: args => do
    let a ← checkArgument position param a
    return a :: (← checkArguments (position + 1) params args)
  | _, _, args => return args

def checkCallArguments (proc : Procedure) (args : List (Expr Note)) : Check (List (Expr Note)) := do
  match proc.builtin with
  | some .read => args.mapM checkRead
  | some .print =>
    args.forM checkPrint
    return args
  | some (.operation _ accepts) =>
    match args with
    | [] => throw .argumentCount
    | a :: _ =>
      checkOperand accepts a
      return args
  | none => checkArguments 1 proc.params args

/-- A checked call: whether its parts are valid, its note, its callee and its arguments. -/
structure CheckedCall where
  valid : Bool
  note : Note
  callee : Ident Note
  args : List (Expr Note)

def checkCall (note : Note) (callee : Ident Note) (args : List (Expr Note)) : Check CheckedCall := do
  let valid := args.all (·.isValid)
  match (← environment).lookup? callee.name with
  | none =>
    report callee.note.line (.undeclared callee.name)
    return { valid, note, callee, args }
  | some symbol =>
    let callee := callee.resolve symbol .value
    match symbol.category, symbol.proc with
    | .procedure, some proc =>
      let note := { note with mode := some proc.result }
      if proc.arity != .any && proc.arity != .exactly args.length then
        report note.line (.argumentCount callee.name proc.arity.number args.length)
        return { valid, note, callee, args }
      if !valid then return { valid, note, callee, args }
      return { valid, note, callee, args := ← checkCallArguments proc args }
    | category, _ =>
      report callee.note.line (.notCallable callee.name category)
      return { valid, note, callee, args }

def checkIndexing : Option Mode → List (Expr Note) → Check (Option (Option Mode))
  | mode, [] => return some mode
  | mode, i :: rest =>
    if Mode.optionIsArray mode then checkIndexing (mode.bind Mode.elem?) rest
    else if Mode.optionIsString mode then checkIndexing (some .char) rest
    else do
      report i.line (.cannotIndex mode)
      return none

def checkIndex (note : Note) (x : Expr Note) (indexes : List (Expr Note)) : Check Note := do
  if x.note.mode.isNone then return note
  if !x.isLocation then
    report x.line .indexedNeedsLocation
    return note
  match ← checkIndexing x.note.mode indexes with
  | none => return note
  | some mode => return { note with mode }

def checkDeref (note : Note) (x : Expr Note) : Check Note := do
  match x.note.mode with
  | none => return note
  | some mode =>
    if !mode.type.isReference then
      report note.line (.cannotDereference mode)
      return note
    return { note with mode := mode.elem? }

def checkRef (note : Note) (x : Expr Note) : Check (Note × Expr Note) := do
  match x.note.mode with
  | none => return (note, x)
  | some mode =>
    if !x.isLocation then
      report x.line .addressOfValue
      return (note, x)
    return ({ note with mode := some (.ref mode) }, x.markUsage .reference)

def expectType (want : ValueType) (e : Expr Note) : Check Unit := do
  if e.isValid then
    let _ ← expect e.line want e.type

mutual

def Expr.check : Expr Note → Check (Expr Note)
  | int note value => judge (return (true, int (literalNote note .int (.int value)) value))
  | bool note value => judge (return (true, bool (literalNote note .bool (.bool value)) value))
  | char note value => judge (return (true, char (literalNote note .char (.ofChar value)) value))
  | text note value =>
    judge (return (true,
      text (literalNote note (.chars (Int64.ofNat (Text.length value))) (.ofText value)) value))
  | ident id => judge do return (true, ident (← checkIdent id))
  | unary note op x => judge do
    let x ← x.check
    if !x.isValid then return (false, unary note op x)
    return (true, unary (← checkUnary note op x) op x)
  | binary note op x y => judge do
    let x ← x.check
    let y ← y.check
    if !(x.isValid && y.isValid) then return (false, binary note op x y)
    return (true, binary (← checkBinary note op x y) op x y)
  | cond note branches otherwise => judge do
    let branches ← Expr.checkArms branches
    let otherwise ← otherwise.check
    let valid := branches.all (fun arm => arm.cond.isValid && arm.value.isValid) && otherwise.isValid
    if !valid then return (false, cond note branches otherwise)
    return (true, cond (← checkCond note branches otherwise) branches otherwise)
  | call note callee args => judge do
    let c ← checkCall note callee (← Expr.checkList args)
    return (c.valid, call c.note c.callee c.args)
  | index note x indexes => judge do
    let x ← x.check
    let indexes ← Expr.checkIndexes indexes
    if !(x.isValid && indexes.all (·.isValid)) then return (false, index note x indexes)
    return (true, index (← checkIndex note x indexes) x indexes)
  | deref note x => judge do
    let x ← x.check
    if !x.isValid then return (false, deref note x)
    return (true, deref (← checkDeref note x) x)
  | ref note x => judge do
    let x ← x.check
    if !x.isValid then return (false, ref note x)
    let (note, x) ← checkRef note x
    return (true, ref note x)

def Expr.checkList : List (Expr Note) → Check (List (Expr Note))
  | [] => return []
  | e :: rest => do
    let e ← e.check
    return e :: (← Expr.checkList rest)

def Expr.checkIndexes : List (Expr Note) → Check (List (Expr Note))
  | [] => return []
  | e :: rest => do
    let e ← e.check
    expectType .int e
    return e :: (← Expr.checkIndexes rest)

def Expr.checkArms : List (CondValue Note) → Check (List (CondValue Note))
  | [] => return []
  | .mk note test value :: rest => do
    let test ← test.check
    expectType .bool test
    let value ← value.check
    return .mk note test value :: (← Expr.checkArms rest)

end

end LyaLang.Ast
