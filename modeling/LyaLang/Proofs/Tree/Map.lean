import LyaLang.Ast.Noted
import LyaLang.Check.Note

/-! # Trees under a change of notes

A tree keeps its shape, names and literals when each of its notes is replaced. Two trees that agree
up to notes have equal images under a map that forgets the notes, which is how later stages are
compared with earlier ones: checking adds to the notes of a tree and changes nothing else.
-/

namespace LyaLang.Ast

variable {α β γ : Type}

/-- A name with its note replaced. -/
def Ident.map (f : α → β) (i : Ident α) : Ident β := ⟨f i.note, i.name⟩

mutual

/-- An expression with its notes replaced. -/
def Expr.map (f : α → β) : Expr α → Expr β
  | int note value => int (f note) value
  | bool note value => bool (f note) value
  | char note value => char (f note) value
  | text note value => text (f note) value
  | ident id => ident (id.map f)
  | unary note op x => unary (f note) op (x.map f)
  | binary note op x y => binary (f note) op (x.map f) (y.map f)
  | cond note branches otherwise => cond (f note) (Expr.mapArms f branches) (otherwise.map f)
  | call note callee args => call (f note) (callee.map f) (Expr.mapList f args)
  | index note x indexes => index (f note) (x.map f) (Expr.mapList f indexes)
  | deref note x => deref (f note) (x.map f)
  | ref note x => ref (f note) (x.map f)

/-- Expressions with their notes replaced. -/
def Expr.mapList (f : α → β) : List (Expr α) → List (Expr β)
  | [] => []
  | e :: rest => e.map f :: Expr.mapList f rest

/-- The arms of a conditional expression with their notes replaced. -/
def Expr.mapArms (f : α → β) : List (CondValue α) → List (CondValue β)
  | [] => []
  | .mk note test value :: rest => .mk (f note) (test.map f) (value.map f) :: Expr.mapArms f rest

end

/-- A named mode with its notes replaced. -/
def ModeName.map (f : α → β) (m : ModeName α) : ModeName β := ⟨f m.note, m.id.map f⟩

mutual

/-- A mode expression with its notes replaced. -/
def ModeExpr.map (f : α → β) : ModeExpr α → ModeExpr β
  | name m => name (m.map f)
  | range note base lo hi => range (f note) (base.map (ModeName.map f)) (lo.map f) (hi.map f)
  | ref note elem => ref (f note) (elem.map f)
  | chars note len => chars (f note) (len.map f)
  | array note indexes elem => array (f note) (ModeExpr.mapList f indexes) (elem.map f)

/-- Mode expressions with their notes replaced. -/
def ModeExpr.mapList (f : α → β) : List (ModeExpr α) → List (ModeExpr β)
  | [] => []
  | m :: rest => m.map f :: ModeExpr.mapList f rest

end

/-- A declaration with its notes replaced. -/
def Declaration.map (f : α → β) (d : Declaration α) : Declaration β :=
  { note := f d.note, names := d.names.map (Ident.map f), mode := d.mode.map f, loc := d.loc,
    init := d.init.map (Expr.map f) }

/-- A synonym definition with its notes replaced. -/
def SynonymDef.map (f : α → β) (d : SynonymDef α) : SynonymDef β :=
  { note := f d.note, names := d.names.map (Ident.map f), mode := d.mode.map (ModeExpr.map f),
    value := d.value.map f }

/-- A mode definition with its notes replaced. -/
def ModeDef.map (f : α → β) (d : ModeDef α) : ModeDef β :=
  { note := f d.note, names := d.names.map (Ident.map f), mode := d.mode.map f }

/-- A parameter group with its notes replaced. -/
def FormalParam.map (f : α → β) (p : FormalParam α) : FormalParam β :=
  { note := f p.note, names := p.names.map (Ident.map f), mode := p.mode.map f, loc := p.loc }

/-- A result clause with its notes replaced. -/
def ResultSpec.map (f : α → β) (r : ResultSpec α) : ResultSpec β :=
  { note := f r.note, mode := r.mode.map f, loc := r.loc }

/-- A counting clause with its notes replaced. -/
def ForControl.map (f : α → β) (c : ForControl α) : ForControl β :=
  { note := f c.note, counter := c.counter.map f, start := c.start.map f, step := c.step.map (Expr.map f),
    down := c.down, stop := c.stop.map f }

mutual

/-- A statement with its notes replaced. -/
def Stmt.map (f : α → β) : Stmt α → Stmt β
  | declare note decls => declare (f note) (decls.map (Declaration.map f))
  | synonym note defs => synonym (f note) (defs.map (SynonymDef.map f))
  | modes note defs => modes (f note) (defs.map (ModeDef.map f))
  | proc note name params spec body =>
    proc (f note) (name.map f) (params.map (FormalParam.map f)) (spec.map (ResultSpec.map f))
      (Stmt.mapList f body)
  | assign note target op value => assign (f note) (target.map f) op (value.map f)
  | branch note branches otherwise => branch (f note) (Stmt.mapArms f branches) (Stmt.mapElse f otherwise)
  | loop note control whilst body =>
    loop (f note) (control.map (ForControl.map f)) (whilst.map (Expr.map f)) (Stmt.mapList f body)
  | call note callNote callee args => call (f note) (f callNote) (callee.map f) (Expr.mapList f args)
  | ret note value => ret (f note) (value.map (Expr.map f))
  | result note value => result (f note) (value.map f)

/-- Statements with their notes replaced. -/
def Stmt.mapList (f : α → β) : List (Stmt α) → List (Stmt β)
  | [] => []
  | s :: rest => s.map f :: Stmt.mapList f rest

/-- An optional body with its notes replaced. -/
def Stmt.mapElse (f : α → β) : Option (List (Stmt α)) → Option (List (Stmt β))
  | none => none
  | some body => some (Stmt.mapList f body)

/-- The arms of an `if` chain with their notes replaced. -/
def Stmt.mapArms (f : α → β) : List (CondBranch α) → List (CondBranch β)
  | [] => []
  | .mk note test body :: rest => .mk (f note) (test.map f) (Stmt.mapList f body) :: Stmt.mapArms f rest

end

@[simp] theorem Expr.mapArms_length (f : α → β) (arms : List (CondValue α)) :
    (Expr.mapArms f arms).length = arms.length := by
  induction arms with
  | nil => rfl
  | cons arm rest ih =>
    cases arm
    simp only [Expr.mapArms, List.length_cons, ih]

@[simp] theorem Stmt.mapArms_length (f : α → β) (arms : List (CondBranch α)) :
    (Stmt.mapArms f arms).length = arms.length := by
  induction arms with
  | nil => rfl
  | cons arm rest ih =>
    cases arm
    simp only [Stmt.mapArms, List.length_cons, ih]

/-- A program with its notes replaced. -/
def Program.map (f : α → β) (p : Program α) : Program β := ⟨f p.note, Stmt.mapList f p.stmts⟩

@[simp] theorem Ident.map_map (g : β → γ) (f : α → β) (i : Ident α) : (i.map f).map g = i.map (g ∘ f) := rfl

mutual

@[simp] theorem Expr.map_map (g : β → γ) (f : α → β) : ∀ e : Expr α, (e.map f).map g = e.map (g ∘ f)
  | .int _ _ | .bool _ _ | .char _ _ | .text _ _ | .ident _ => rfl
  | .unary _ _ x | .deref _ x | .ref _ x => by simp only [Expr.map, Expr.map_map g f x, Function.comp_apply]
  | .binary _ _ x y => by simp only [Expr.map, Expr.map_map g f x, Expr.map_map g f y, Function.comp_apply]
  | .cond _ branches otherwise => by
    simp only [Expr.map, Expr.mapArms_mapArms g f branches, Expr.map_map g f otherwise, Function.comp_apply]
  | .call _ _ args => by
    simp only [Expr.map, Expr.mapList_mapList g f args, Ident.map_map, Function.comp_apply]
  | .index _ x indexes => by
    simp only [Expr.map, Expr.map_map g f x, Expr.mapList_mapList g f indexes, Function.comp_apply]

theorem Expr.mapList_mapList (g : β → γ) (f : α → β) :
    ∀ es : List (Expr α), Expr.mapList g (Expr.mapList f es) = Expr.mapList (g ∘ f) es
  | [] => rfl
  | e :: rest => by simp only [Expr.mapList, Expr.map_map g f e, Expr.mapList_mapList g f rest]

theorem Expr.mapArms_mapArms (g : β → γ) (f : α → β) :
    ∀ arms : List (CondValue α), Expr.mapArms g (Expr.mapArms f arms) = Expr.mapArms (g ∘ f) arms
  | [] => rfl
  | .mk _ test value :: rest => by
    simp only [Expr.mapArms, Expr.map_map g f test, Expr.map_map g f value, Expr.mapArms_mapArms g f rest,
      Function.comp_apply]

end

mutual

@[simp] theorem Expr.map_id : ∀ e : Expr α, e.map id = e
  | .int _ _ | .bool _ _ | .char _ _ | .text _ _ | .ident _ => rfl
  | .unary _ _ x | .deref _ x | .ref _ x => by simp only [Expr.map, Expr.map_id x, id]
  | .binary _ _ x y => by simp only [Expr.map, Expr.map_id x, Expr.map_id y, id]
  | .cond _ branches otherwise => by
    simp only [Expr.map, Expr.mapArms_id branches, Expr.map_id otherwise, id]
  | .call _ _ args => by
    simp only [Expr.map, Expr.mapList_id args, id]
    rfl
  | .index _ x indexes => by simp only [Expr.map, Expr.map_id x, Expr.mapList_id indexes, id]

theorem Expr.mapList_id : ∀ es : List (Expr α), Expr.mapList id es = es
  | [] => rfl
  | e :: rest => by simp only [Expr.mapList, Expr.map_id e, Expr.mapList_id rest]

theorem Expr.mapArms_id : ∀ arms : List (CondValue α), Expr.mapArms id arms = arms
  | [] => rfl
  | .mk _ test value :: rest => by
    simp only [Expr.mapArms, Expr.map_id test, Expr.map_id value, Expr.mapArms_id rest, id]

end

end LyaLang.Ast
