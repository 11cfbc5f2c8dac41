import LyaLang.Ast.Basic

/-! # Constructs with a note

Access to the note of every kind of construct that is checked on its own.
-/

namespace LyaLang.Ast

variable {α : Type}

def ModeExpr.setNote (note : α) : ModeExpr α → ModeExpr α
  | name mode => name { mode with note }
  | range _ base lo hi => range note base lo hi
  | ref _ elem => ref note elem
  | chars _ len => chars note len
  | array _ indexes elem => array note indexes elem

def Stmt.setNote (note : α) : Stmt α → Stmt α
  | declare _ decls => declare note decls
  | synonym _ defs => synonym note defs
  | modes _ defs => modes note defs
  | proc _ name params spec body => proc note name params spec body
  | assign _ target op value => assign note target op value
  | branch _ branches otherwise => branch note branches otherwise
  | loop _ control whilst body => loop note control whilst body
  | call _ callNote callee args => call note callNote callee args
  | ret _ value => ret note value
  | result _ value => result note value

/-- A construct with a note that can be replaced. -/
class Noted (τ : Type → Type) where
  note {β : Type} : τ β → β
  setNote {β : Type} : β → τ β → τ β

instance : Noted Expr := ⟨Expr.note, Expr.setNote⟩
instance : Noted ModeExpr := ⟨ModeExpr.note, ModeExpr.setNote⟩
instance : Noted Stmt := ⟨Stmt.note, Stmt.setNote⟩
instance : Noted ModeName := ⟨ModeName.note, fun note m => { m with note }⟩
instance : Noted Declaration := ⟨Declaration.note, fun note d => { d with note }⟩
instance : Noted SynonymDef := ⟨SynonymDef.note, fun note d => { d with note }⟩
instance : Noted ModeDef := ⟨ModeDef.note, fun note d => { d with note }⟩
instance : Noted Program := ⟨Program.note, fun note p => { p with note }⟩

/-- The construct with its note changed by a function. -/
def Noted.update {τ : Type → Type} [Noted τ] (f : α → α) (x : τ α) : τ α :=
  Noted.setNote (f (Noted.note x)) x

end LyaLang.Ast
