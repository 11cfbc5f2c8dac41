import Mathlib.Tactic.Simps.Basic
import LyaLang.Ast.Node
import LyaLang.Text.Utf8

/-! # Trees up to layout and spelling

A tree with its names in lower case and its notes replaced. Two trees that are equal after their notes
have been replaced by nothing say the same: they differ in layout and in the case of names only.
-/

namespace LyaLang.Ast

variable {α β : Type}

/-- A name in lower case with its note replaced. -/
@[simps] def Ident.blur (f : α → β) (i : Ident α) : Ident β := ⟨f i.note, Text.toLower i.name⟩

mutual

/-- An expression with its names in lower case and its notes replaced. -/
def Expr.blur (f : α → β) : Expr α → Expr β
  | int note value => int (f note) value
  | bool note value => bool (f note) value
  | char note value => char (f note) value
  | text note value => text (f note) value
  | ident id => ident (id.blur f)
  | unary note op x => unary (f note) op (x.blur f)
  | binary note op x y => binary (f note) op (x.blur f) (y.blur f)
  | cond note branches otherwise => cond (f note) (Expr.blurArms f branches) (otherwise.blur f)
  | call note callee args => call (f note) (callee.blur f) (Expr.blurList f args)
  | index note x indexes => index (f note) (x.blur f) (Expr.blurList f indexes)
  | deref note x => deref (f note) (x.blur f)
  | ref note x => ref (f note) (x.blur f)

/-- Expressions with their names in lower case and their notes replaced. -/
def Expr.blurList (f : α → β) : List (Expr α) → List (Expr β)
  | [] => []
  | e :: rest => e.blur f :: Expr.blurList f rest

/-- The arms of a conditional expression with their names in lower case and their notes replaced. -/
def Expr.blurArms (f : α → β) : List (CondValue α) → List (CondValue β)
  | [] => []
  | .mk note test value :: rest => .mk (f note) (test.blur f) (value.blur f) :: Expr.blurArms f rest

end

/-- A named mode in lower case with its notes replaced. -/
def ModeName.blur (f : α → β) (m : ModeName α) : ModeName β := ⟨f m.note, m.id.blur f⟩

mutual

/-- A mode expression with its names in lower case and its notes replaced. -/
def ModeExpr.blur (f : α → β) : ModeExpr α → ModeExpr β
  | name m => name (m.blur f)
  | range note base lo hi => range (f note) (base.map (ModeName.blur f)) (lo.blur f) (hi.blur f)
  | ref note elem => ref (f note) (elem.blur f)
  | chars note len => chars (f note) (len.blur f)
  | array note indexes elem => array (f note) (ModeExpr.blurList f indexes) (elem.blur f)

/-- Mode expressions with their names in lower case and their notes replaced. -/
def ModeExpr.blurList (f : α → β) : List (ModeExpr α) → List (ModeExpr β)
  | [] => []
  | m :: rest => m.blur f :: ModeExpr.blurList f rest

end

/-- A declaration with its names in lower case and its notes replaced. -/
@[simps] def Declaration.blur (f : α → β) (d : Declaration α) : Declaration β :=
  { note := f d.note, names := d.names.map (Ident.blur f), mode := d.mode.blur f, loc := d.loc,
    init := d.init.map (Expr.blur f) }

/-- A synonym definition with its names in lower case and its notes replaced. -/
@[simps] def SynonymDef.blur (f : α → β) (d : SynonymDef α) : SynonymDef β :=
  { note := f d.note, names := d.names.map (Ident.blur f), mode := d.mode.map (ModeExpr.blur f),
    value := d.value.blur f }

/-- A mode definition with its names in lower case and its notes replaced. -/
@[simps] def ModeDef.blur (f : α → β) (d : ModeDef α) : ModeDef β :=
  { note := f d.note, names := d.names.map (Ident.blur f), mode := d.mode.blur f }

/-- A parameter group with its names in lower case and its notes replaced. -/
@[simps] def FormalParam.blur (f : α → β) (p : FormalParam α) : FormalParam β :=
  { note := f p.note, names := p.names.map (Ident.blur f), mode := p.mode.blur f, loc := p.loc }

/-- A result clause with its names in lower case and its notes replaced. -/
@[simps] def ResultSpec.blur (f : α → β) (r : ResultSpec α) : ResultSpec β :=
  { note := f r.note, mode := r.mode.blur f, loc := r.loc }

/-- A counting clause with its names in lower case and its notes replaced. -/
@[simps] def ForControl.blur (f : α → β) (c : ForControl α) : ForControl β :=
  { note := f c.note, counter := c.counter.blur f, start := c.start.blur f, step := c.step.map (Expr.blur f),
    down := c.down, stop := c.stop.blur f }

mutual

/-- A statement with its names in lower case and its notes replaced. -/
def Stmt.blur (f : α → β) : Stmt α → Stmt β
  | declare note decls => declare (f note) (decls.map (Declaration.blur f))
  | synonym note defs => synonym (f note) (defs.map (SynonymDef.blur f))
  | modes note defs => modes (f note) (defs.map (ModeDef.blur f))
  | proc note name params spec body =>
    proc (f note) (name.blur f) (params.map (FormalParam.blur f)) (spec.map (ResultSpec.blur f))
      (Stmt.blurList f body)
  | assign note target op value => assign (f note) (target.blur f) op (value.blur f)
  | branch note branches otherwise => branch (f note) (Stmt.blurArms f branches) (Stmt.blurElse f otherwise)
  | loop note control whilst body =>
    loop (f note) (control.map (ForControl.blur f)) (whilst.map (Expr.blur f)) (Stmt.blurList f body)
  | call note callNote callee args => call (f note) (f callNote) (callee.blur f) (Expr.blurList f args)
  | ret note value => ret (f note) (value.map (Expr.blur f))
  | result note value => result (f note) (value.blur f)

/-- Statements with their names in lower case and their notes replaced. -/
def Stmt.blurList (f : α → β) : List (Stmt α) → List (Stmt β)
  | [] => []
  | s :: rest => s.blur f :: Stmt.blurList f rest

/-- An optional body with its names in lower case and its notes replaced. -/
def Stmt.blurElse (f : α → β) : Option (List (Stmt α)) → Option (List (Stmt β))
  | none => none
  | some body => some (Stmt.blurList f body)

/-- The arms of an `if` chain with their names in lower case and their notes replaced. -/
def Stmt.blurArms (f : α → β) : List (CondBranch α) → List (CondBranch β)
  | [] => []
  | .mk note test body :: rest => .mk (f note) (test.blur f) (Stmt.blurList f body) :: Stmt.blurArms f rest

end

/-- A program with its names in lower case and its notes replaced. -/
@[simps] def Program.blur (f : α → β) (p : Program α) : Program β := ⟨f p.note, Stmt.blurList f p.stmts⟩

/-- What a program says: its tree without notes and with names in lower case. -/
def Program.plain (p : Program α) : Program Unit := p.blur fun _ => ()

end LyaLang.Ast
