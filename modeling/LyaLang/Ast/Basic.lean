import LyaLang.Text.Bytes

/-! # Trees of the language

The tree of a program. Every node carries a note of a type of the reader's choice: the parser notes
source spans, and later stages note what they learn about the node. Optional parts are options, so
a missing `else` differs from an empty one.
-/

namespace LyaLang.Ast

/-- A name, declared or referred to. -/
structure Ident (α : Type) where
  note : α
  name : Bytes

/-- Operators with one operand. -/
inductive UnaryOp where
  | negate
  | complement
deriving DecidableEq, Repr

/-- Operators with two operands. -/
inductive BinaryOp where
  | add | sub | mul | div | mod
  | less | lessEqual | greater | greaterEqual | equal | notEqual
  | both | either
deriving DecidableEq, Repr

/-- The spelling of an operator. -/
def UnaryOp.symbol : UnaryOp → String
  | negate => "-"
  | complement => "!"

/-- The spelling of an operator. -/
def BinaryOp.symbol : BinaryOp → String
  | add => "+" | sub => "-" | mul => "*" | div => "/" | mod => "%"
  | less => "<" | lessEqual => "<=" | greater => ">" | greaterEqual => ">="
  | equal => "==" | notEqual => "!=" | both => "&&" | either => "||"

mutual

/-- Expressions. -/
inductive Expr (α : Type) where
  /-- An integer literal. -/
  | int (note : α) (value : Int64)
  /-- `true` or `false`. -/
  | bool (note : α) (value : Bool)
  /-- A character literal. -/
  | char (note : α) (value : Char)
  /-- A string literal. -/
  | text (note : α) (value : Bytes)
  /-- A name used as an expression. -/
  | ident (id : Ident α)
  /-- `-x` or `!x`. -/
  | unary (note : α) (op : UnaryOp) (x : Expr α)
  /-- `x op y`. -/
  | binary (note : α) (op : BinaryOp) (x y : Expr α)
  /-- `if c then a {elsif c then b} else z fi` as a value. -/
  | cond (note : α) (branches : List (CondValue α)) (otherwise : Expr α)
  /-- `f(a, b)`. -/
  | call (note : α) (callee : Ident α) (args : List (Expr α))
  /-- `a[i, j]`; the indexes apply from left to right. -/
  | index (note : α) (x : Expr α) (indexes : List (Expr α))
  /-- `p->`: the location a reference points to. -/
  | deref (note : α) (x : Expr α)
  /-- `->x`: a reference to a location. -/
  | ref (note : α) (x : Expr α)

/-- One arm of a conditional expression. -/
inductive CondValue (α : Type) where
  | mk (note : α) (cond value : Expr α)

end

/-- A mode given by its name. -/
structure ModeName (α : Type) where
  note : α
  id : Ident α

/-- Mode expressions. -/
inductive ModeExpr (α : Type) where
  | name (mode : ModeName α)
  /-- `base(lo:hi)`, or a bare `lo:hi` as an array index. -/
  | range (note : α) (base : Option (ModeName α)) (lo hi : Expr α)
  /-- `ref mode`. -/
  | ref (note : α) (elem : ModeExpr α)
  /-- `chars[n]`. -/
  | chars (note : α) (len : Expr α)
  /-- `array[index {, index}] mode`. -/
  | array (note : α) (indexes : List (ModeExpr α)) (elem : ModeExpr α)

/-- Names bound to storage of one mode, each initialized by the same expression. A `loc` declaration
makes each name an alias of the location given as initializer. -/
structure Declaration (α : Type) where
  note : α
  names : List (Ident α)
  mode : ModeExpr α
  loc : Bool
  init : Option (Expr α)

/-- Names bound to a compile-time constant. -/
structure SynonymDef (α : Type) where
  note : α
  names : List (Ident α)
  mode : Option (ModeExpr α)
  value : Expr α

/-- Names bound to a mode. -/
structure ModeDef (α : Type) where
  note : α
  names : List (Ident α)
  mode : ModeExpr α

/-- A group of parameters of one mode. -/
structure FormalParam (α : Type) where
  note : α
  names : List (Ident α)
  mode : ModeExpr α
  loc : Bool

/-- The result clause of a procedure. -/
structure ResultSpec (α : Type) where
  note : α
  mode : ModeExpr α
  loc : Bool

/-- `for i = start [by step] [down] to stop`. -/
structure ForControl (α : Type) where
  note : α
  counter : Ident α
  start : Expr α
  step : Option (Expr α)
  down : Bool
  stop : Expr α

mutual

/-- Statements: declarations and actions. -/
inductive Stmt (α : Type) where
  /-- `dcl a, b int = 1, c bool`. -/
  | declare (note : α) (decls : List (Declaration α))
  /-- `syn a, b int = 3, c = 'x'`. -/
  | synonym (note : α) (defs : List (SynonymDef α))
  /-- `type vec = array[1:3] int`. -/
  | modes (note : α) (defs : List (ModeDef α))
  /-- `f: proc(params) returns(mode); body end`. -/
  | proc (note : α) (name : Ident α) (params : List (FormalParam α)) (result : Option (ResultSpec α))
      (body : List (Stmt α))
  /-- `target = value`, or a compound form that applies an operator. -/
  | assign (note : α) (target : Expr α) (op : Option BinaryOp) (value : Expr α)
  /-- An `if` chain. -/
  | branch (note : α) (branches : List (CondBranch α)) (otherwise : Option (List (Stmt α)))
  /-- A `do ... od` loop with optional `for` and `while` control. -/
  | loop (note : α) (control : Option (ForControl α)) (whilst : Option (Expr α)) (body : List (Stmt α))
  /-- A call as an action; the call is a node of its own. -/
  | call (note : α) (callNote : α) (callee : Ident α) (args : List (Expr α))
  /-- `return [value]`. -/
  | ret (note : α) (value : Option (Expr α))
  /-- `result value`. -/
  | result (note : α) (value : Expr α)

/-- One arm of an `if` chain. -/
inductive CondBranch (α : Type) where
  | mk (note : α) (cond : Expr α) (body : List (Stmt α))

end

/-- A whole compilation unit. -/
structure Program (α : Type) where
  note : α
  stmts : List (Stmt α)

variable {α : Type}

def CondValue.note : CondValue α → α
  | mk note _ _ => note

/-- The condition of the arm. -/
def CondValue.cond : CondValue α → Expr α
  | mk _ cond _ => cond

def CondValue.value : CondValue α → Expr α
  | mk _ _ value => value

def CondBranch.note : CondBranch α → α
  | mk note _ _ => note

/-- The condition of the arm. -/
def CondBranch.cond : CondBranch α → Expr α
  | mk _ cond _ => cond

/-- The statements of the arm. -/
def CondBranch.body : CondBranch α → List (Stmt α)
  | mk _ _ body => body

def Expr.note : Expr α → α
  | int note _ | bool note _ | char note _ | text note _ | unary note _ _ | binary note _ _ _
  | cond note _ _ | call note _ _ | index note _ _ | deref note _ | ref note _ => note
  | ident id => id.note

def Expr.setNote (note : α) : Expr α → Expr α
  | int _ value => int note value
  | bool _ value => bool note value
  | char _ value => char note value
  | text _ value => text note value
  | ident id => ident { id with note }
  | unary _ op x => unary note op x
  | binary _ op x y => binary note op x y
  | cond _ branches otherwise => cond note branches otherwise
  | call _ callee args => call note callee args
  | index _ x indexes => index note x indexes
  | deref _ x => deref note x
  | ref _ x => ref note x

def ModeExpr.note : ModeExpr α → α
  | name mode => mode.note
  | range note _ _ _ | ref note _ | chars note _ | array note _ _ => note

def Stmt.note : Stmt α → α
  | declare note _ | synonym note _ | modes note _ | proc note _ _ _ _ | assign note _ _ _
  | branch note _ _ | loop note _ _ _ | call note _ _ _ | ret note _ | result note _ => note

def FormalParam.count (params : List (FormalParam α)) : Nat :=
  params.foldl (fun total param => total + param.names.length) 0

end LyaLang.Ast
