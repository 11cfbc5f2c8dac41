import LyaLang.Ast.Node

/-! # Renaming the notes of a tree

A tree with new notes, made by an effect that visits every node once: each node before its parts, and
the parts in source order. The effect sees the node as it was.
-/

namespace LyaLang.Ast

variable {α β : Type} {m : Type → Type} [Monad m]

/-- A name with a new note. -/
def Ident.traverse (f : Node α → m β) (i : Ident α) : m (Ident β) := do
  return { note := ← f (.ident i), name := i.name }

mutual

/-- An expression with new notes. -/
def Expr.traverse (f : Node α → m β) : Expr α → m (Expr β)
  | e@(int _ value) => do return int (← f (.expr e)) value
  | e@(bool _ value) => do return bool (← f (.expr e)) value
  | e@(char _ value) => do return char (← f (.expr e)) value
  | e@(text _ value) => do return text (← f (.expr e)) value
  | ident id => do return ident (← id.traverse f)
  | e@(unary _ op x) => do return unary (← f (.expr e)) op (← x.traverse f)
  | e@(binary _ op x y) => do return binary (← f (.expr e)) op (← x.traverse f) (← y.traverse f)
  | e@(cond _ branches otherwise) => do
    return cond (← f (.expr e)) (← Expr.traverseArms f branches) (← otherwise.traverse f)
  | e@(call _ callee args) => do
    return call (← f (.expr e)) (← callee.traverse f) (← Expr.traverseList f args)
  | e@(index _ x indexes) => do
    return index (← f (.expr e)) (← x.traverse f) (← Expr.traverseList f indexes)
  | e@(deref _ x) => do return deref (← f (.expr e)) (← x.traverse f)
  | e@(ref _ x) => do return ref (← f (.expr e)) (← x.traverse f)

/-- Expressions with new notes. -/
def Expr.traverseList (f : Node α → m β) : List (Expr α) → m (List (Expr β))
  | [] => return []
  | e :: rest => do return (← e.traverse f) :: (← Expr.traverseList f rest)

/-- The arms of a conditional expression with new notes. -/
def Expr.traverseArms (f : Node α → m β) : List (CondValue α) → m (List (CondValue β))
  | [] => return []
  | arm@(.mk _ test value) :: rest => do
    let arm := CondValue.mk (← f (.condValue arm)) (← test.traverse f) (← value.traverse f)
    return arm :: (← Expr.traverseArms f rest)

end

def traverseOption {γ δ : Type} (f : γ → m δ) : Option γ → m (Option δ)
  | none => return none
  | some x => do return some (← f x)

def traverseParts {γ δ : Type} (f : γ → m δ) : List γ → m (List δ)
  | [] => return []
  | x :: rest => do return (← f x) :: (← traverseParts f rest)

def ModeName.traverse (f : Node α → m β) (n : ModeName α) : m (ModeName β) := do
  return { note := ← f (.modeExpr (.name n)), id := ← n.id.traverse f }

mutual

def ModeExpr.traverse (f : Node α → m β) : ModeExpr α → m (ModeExpr β)
  | name n => do return name (← n.traverse f)
  | e@(range _ base lo hi) => do
    return range (← f (.modeExpr e)) (← traverseOption (ModeName.traverse f) base) (← lo.traverse f)
      (← hi.traverse f)
  | e@(ref _ elem) => do return ref (← f (.modeExpr e)) (← elem.traverse f)
  | e@(chars _ len) => do return chars (← f (.modeExpr e)) (← len.traverse f)
  | e@(array _ indexes elem) => do
    return array (← f (.modeExpr e)) (← ModeExpr.traverseList f indexes) (← elem.traverse f)

def ModeExpr.traverseList (f : Node α → m β) : List (ModeExpr α) → m (List (ModeExpr β))
  | [] => return []
  | e :: rest => do return (← e.traverse f) :: (← ModeExpr.traverseList f rest)

end

def Declaration.traverse (f : Node α → m β) (d : Declaration α) : m (Declaration β) := do
  return {
    note := ← f (.declaration d)
    names := ← traverseParts (Ident.traverse f) d.names
    mode := ← d.mode.traverse f
    loc := d.loc
    init := ← traverseOption (Expr.traverse f) d.init }

def SynonymDef.traverse (f : Node α → m β) (d : SynonymDef α) : m (SynonymDef β) := do
  return {
    note := ← f (.synonymDef d)
    names := ← traverseParts (Ident.traverse f) d.names
    mode := ← traverseOption (ModeExpr.traverse f) d.mode
    value := ← d.value.traverse f }

def ModeDef.traverse (f : Node α → m β) (d : ModeDef α) : m (ModeDef β) := do
  return {
    note := ← f (.modeDef d)
    names := ← traverseParts (Ident.traverse f) d.names
    mode := ← d.mode.traverse f }

def FormalParam.traverse (f : Node α → m β) (p : FormalParam α) : m (FormalParam β) := do
  return {
    note := ← f (.formalParam p)
    names := ← traverseParts (Ident.traverse f) p.names
    mode := ← p.mode.traverse f
    loc := p.loc }

def ResultSpec.traverse (f : Node α → m β) (r : ResultSpec α) : m (ResultSpec β) := do
  return { note := ← f (.resultSpec r), mode := ← r.mode.traverse f, loc := r.loc }

/-- A counting clause with new notes. -/
def ForControl.traverse (f : Node α → m β) (c : ForControl α) : m (ForControl β) := do
  return {
    note := ← f (.forControl c)
    counter := ← c.counter.traverse f
    start := ← c.start.traverse f
    step := ← traverseOption (Expr.traverse f) c.step
    down := c.down
    stop := ← c.stop.traverse f }

mutual

/-- A statement with new notes. -/
def Stmt.traverse (f : Node α → m β) : Stmt α → m (Stmt β)
  | s@(declare _ decls) => do
    return declare (← f (.stmt s)) (← traverseParts (Declaration.traverse f) decls)
  | s@(synonym _ defs) => do
    return synonym (← f (.stmt s)) (← traverseParts (SynonymDef.traverse f) defs)
  | s@(modes _ defs) => do return modes (← f (.stmt s)) (← traverseParts (ModeDef.traverse f) defs)
  | s@(proc _ name params spec body) => do
    return proc (← f (.stmt s)) (← name.traverse f) (← traverseParts (FormalParam.traverse f) params)
      (← traverseOption (ResultSpec.traverse f) spec) (← Stmt.traverseList f body)
  | s@(assign _ target op value) => do
    return assign (← f (.stmt s)) (← target.traverse f) op (← value.traverse f)
  | s@(branch _ branches otherwise) => do
    return branch (← f (.stmt s)) (← Stmt.traverseArms f branches)
      (← Stmt.traverseElse f otherwise)
  | s@(loop _ control whilst body) => do
    return loop (← f (.stmt s)) (← traverseOption (ForControl.traverse f) control)
      (← traverseOption (Expr.traverse f) whilst) (← Stmt.traverseList f body)
  | s@(call _ callNote callee args) => do
    return call (← f (.stmt s)) (← f (.expr (.call callNote callee args))) (← callee.traverse f)
      (← Expr.traverseList f args)
  | s@(ret _ value) => do return ret (← f (.stmt s)) (← traverseOption (Expr.traverse f) value)
  | s@(result _ value) => do return result (← f (.stmt s)) (← value.traverse f)

/-- Statements with new notes. -/
def Stmt.traverseList (f : Node α → m β) : List (Stmt α) → m (List (Stmt β))
  | [] => return []
  | s :: rest => do return (← s.traverse f) :: (← Stmt.traverseList f rest)

def Stmt.traverseElse (f : Node α → m β) : Option (List (Stmt α)) → m (Option (List (Stmt β)))
  | none => return none
  | some body => do return some (← Stmt.traverseList f body)

/-- The arms of an `if` chain with new notes. -/
def Stmt.traverseArms (f : Node α → m β) : List (CondBranch α) → m (List (CondBranch β))
  | [] => return []
  | arm@(.mk _ test body) :: rest => do
    let arm := CondBranch.mk (← f (.condBranch arm)) (← test.traverse f) (← Stmt.traverseList f body)
    return arm :: (← Stmt.traverseArms f rest)

end

def Program.traverse (f : Node α → m β) (p : Program α) : m (Program β) := do
  return { note := ← f (.program p), stmts := ← Stmt.traverseList f p.stmts }

end LyaLang.Ast
