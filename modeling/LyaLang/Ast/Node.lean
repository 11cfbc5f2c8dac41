import LyaLang.Ast.Basic

/-! # The nodes of a tree

Every construct of a tree seen as a node, and the nodes in depth-first order, each before its parts
and the parts in source order.
-/

namespace LyaLang.Ast

variable {α : Type}

/-- A construct of any kind. -/
inductive Node (α : Type) where
  | program (p : Program α)
  | stmt (s : Stmt α)
  | declaration (d : Declaration α)
  | synonymDef (d : SynonymDef α)
  | modeDef (d : ModeDef α)
  | formalParam (p : FormalParam α)
  | resultSpec (r : ResultSpec α)
  | condBranch (b : CondBranch α)
  | forControl (f : ForControl α)
  | modeExpr (m : ModeExpr α)
  | expr (e : Expr α)
  | condValue (v : CondValue α)
  | ident (i : Ident α)

namespace Node

def note : Node α → α
  | program p => p.note
  | stmt s => s.note
  | declaration d => d.note
  | synonymDef d => d.note
  | modeDef d => d.note
  | formalParam p => p.note
  | resultSpec r => r.note
  | condBranch b => b.note
  | forControl f => f.note
  | modeExpr m => m.note
  | expr e => e.note
  | condValue v => v.note
  | ident i => i.note

end Node

def Expr.kindName : Expr α → String
  | int .. => "IntLiteral" | bool .. => "BoolLiteral" | char .. => "CharLiteral"
  | text .. => "StringLiteral" | ident .. => "Ident" | unary .. => "UnaryExpr"
  | binary .. => "BinaryExpr" | cond .. => "CondExpr" | call .. => "CallExpr"
  | index .. => "IndexExpr" | deref .. => "DerefExpr" | ref .. => "RefExpr"

def ModeExpr.kindName : ModeExpr α → String
  | name .. => "ModeName" | range .. => "RangeMode" | ref .. => "RefMode"
  | chars .. => "CharsMode" | array .. => "ArrayMode"

def Stmt.kindName : Stmt α → String
  | declare .. => "DeclStmt" | synonym .. => "SynStmt" | modes .. => "TypeStmt" | proc .. => "ProcStmt"
  | assign .. => "AssignAction" | branch .. => "IfAction" | loop .. => "DoAction"
  | call .. => "CallAction" | ret .. => "ReturnAction" | result .. => "ResultAction"

def Node.kindName : Node α → String
  | program _ => "Program"
  | stmt s => s.kindName
  | declaration _ => "Declaration"
  | synonymDef _ => "SynonymDef"
  | modeDef _ => "ModeDef"
  | formalParam _ => "FormalParam"
  | resultSpec _ => "ResultSpec"
  | condBranch _ => "CondBranch"
  | forControl _ => "ForControl"
  | modeExpr m => m.kindName
  | expr e => e.kindName
  | condValue _ => "CondValue"
  | ident _ => "Ident"

mutual

def Expr.nodes : Expr α → List (Node α)
  | ident id => [.ident id]
  | e@(unary _ _ x) | e@(deref _ x) | e@(ref _ x) => .expr e :: x.nodes
  | e@(binary _ _ x y) => .expr e :: (x.nodes ++ y.nodes)
  | e@(cond _ branches otherwise) => .expr e :: (Expr.armNodes branches ++ otherwise.nodes)
  | e@(call _ callee args) => .expr e :: .ident callee :: Expr.listNodes args
  | e@(index _ x indexes) => .expr e :: (x.nodes ++ Expr.listNodes indexes)
  | e => [.expr e]

def Expr.listNodes : List (Expr α) → List (Node α)
  | [] => []
  | e :: rest => e.nodes ++ Expr.listNodes rest

def Expr.armNodes : List (CondValue α) → List (Node α)
  | [] => []
  | arm@(.mk _ test value) :: rest =>
    .condValue arm :: (test.nodes ++ value.nodes ++ Expr.armNodes rest)

end

def identNodes (names : List (Ident α)) : List (Node α) := names.map .ident

def ModeName.nodes (m : ModeName α) : List (Node α) := [.modeExpr (.name m), .ident m.id]

mutual

def ModeExpr.nodes : ModeExpr α → List (Node α)
  | name m => m.nodes
  | m@(range _ base lo hi) => .modeExpr m :: ((base.map ModeName.nodes).getD [] ++ lo.nodes ++ hi.nodes)
  | m@(ref _ elem) => .modeExpr m :: elem.nodes
  | m@(chars _ len) => .modeExpr m :: len.nodes
  | m@(array _ indexes elem) => .modeExpr m :: (ModeExpr.listNodes indexes ++ elem.nodes)

def ModeExpr.listNodes : List (ModeExpr α) → List (Node α)
  | [] => []
  | m :: rest => m.nodes ++ ModeExpr.listNodes rest

end

def optionalNodes (e : Option (Expr α)) : List (Node α) := (e.map Expr.nodes).getD []

def Declaration.nodes (d : Declaration α) : List (Node α) :=
  .declaration d :: (identNodes d.names ++ d.mode.nodes ++ optionalNodes d.init)

def SynonymDef.nodes (d : SynonymDef α) : List (Node α) :=
  .synonymDef d :: (identNodes d.names ++ (d.mode.map ModeExpr.nodes).getD [] ++ d.value.nodes)

def ModeDef.nodes (d : ModeDef α) : List (Node α) :=
  .modeDef d :: (identNodes d.names ++ d.mode.nodes)

def FormalParam.nodes (p : FormalParam α) : List (Node α) :=
  .formalParam p :: (identNodes p.names ++ p.mode.nodes)

def ResultSpec.nodes (r : ResultSpec α) : List (Node α) := .resultSpec r :: r.mode.nodes

def ForControl.nodes (f : ForControl α) : List (Node α) :=
  .forControl f :: .ident f.counter :: (f.start.nodes ++ optionalNodes f.step ++ f.stop.nodes)

mutual

def Stmt.nodes : Stmt α → List (Node α)
  | s@(declare _ decls) => .stmt s :: decls.flatMap Declaration.nodes
  | s@(synonym _ defs) => .stmt s :: defs.flatMap SynonymDef.nodes
  | s@(modes _ defs) => .stmt s :: defs.flatMap ModeDef.nodes
  | s@(proc _ name params spec body) =>
    .stmt s :: .ident name ::
      (params.flatMap FormalParam.nodes ++ (spec.map ResultSpec.nodes).getD [] ++ Stmt.listNodes body)
  | s@(assign _ target _ value) => .stmt s :: (target.nodes ++ value.nodes)
  | s@(branch _ branches otherwise) =>
    .stmt s :: (Stmt.armNodes branches ++
      match otherwise with
      | none => []
      | some body => Stmt.listNodes body)
  | s@(loop _ control whilst body) =>
    .stmt s :: ((control.map ForControl.nodes).getD [] ++ optionalNodes whilst ++ Stmt.listNodes body)
  | s@(call _ callNote callee args) => .stmt s :: (Expr.call callNote callee args).nodes
  | s@(ret _ value) => .stmt s :: optionalNodes value
  | s@(result _ value) => .stmt s :: value.nodes

def Stmt.listNodes : List (Stmt α) → List (Node α)
  | [] => []
  | s :: rest => s.nodes ++ Stmt.listNodes rest

/-- The nodes of the arms of an `if` chain. -/
def Stmt.armNodes : List (CondBranch α) → List (Node α)
  | [] => []
  | arm@(.mk _ test body) :: rest =>
    .condBranch arm :: (test.nodes ++ Stmt.listNodes body ++ Stmt.armNodes rest)

end

def Program.nodes (p : Program α) : List (Node α) := .program p :: Stmt.listNodes p.stmts

def Program.idents (p : Program α) : List (Ident α) :=
  p.nodes.filterMap fun
    | .ident i => some i
    | _ => none

end LyaLang.Ast
