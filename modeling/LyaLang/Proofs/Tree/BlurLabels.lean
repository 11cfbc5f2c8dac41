import LyaLang.Check.Labels
import LyaLang.Proofs.Check.Blur

/-! # Labels up to layout

Labels are given out by the shape of the tree alone, so trees that say the same get the same labels.
-/

namespace LyaLang.Ast

variable {α β : Type}

/-- The arm of a conditional expression, blurred. -/
def CondValue.blur (f : α → β) : CondValue α → CondValue β
  | mk note test value => mk (f note) (test.blur f) (value.blur f)

/-- The arm of an `if` chain, blurred. -/
def CondBranch.blur (f : α → β) : CondBranch α → CondBranch β
  | mk note test body => mk (f note) (test.blur f) (Stmt.blurList f body)

/-- A node with its names in lower case and its notes replaced. -/
def Node.blur (f : α → β) : Node α → Node β
  | program p => program (p.blur f)
  | stmt s => stmt (s.blur f)
  | declaration d => declaration (d.blur f)
  | synonymDef d => synonymDef (d.blur f)
  | modeDef d => modeDef (d.blur f)
  | formalParam p => formalParam (p.blur f)
  | resultSpec r => resultSpec (r.blur f)
  | condBranch b => condBranch (b.blur f)
  | forControl c => forControl (c.blur f)
  | modeExpr m => modeExpr (m.blur f)
  | expr e => expr (e.blur f)
  | condValue v => condValue (v.blur f)
  | ident i => ident (i.blur f)

theorem Expr.blurArms_length (f : α → β) (arms : List (CondValue α)) : (Expr.blurArms f arms).length = arms.length := by
  induction arms with
  | nil => rfl
  | cons arm rest ih =>
    cases arm
    exact congrArg (· + 1) ih

theorem Stmt.blurArms_length (f : α → β) (arms : List (CondBranch α)) : (Stmt.blurArms f arms).length = arms.length := by
  induction arms with
  | nil => rw [Stmt.blurArms, List.length_nil, List.length_nil]
  | cons arm rest ih =>
    obtain ⟨note, test, body⟩ := arm
    simp only [Stmt.blurArms, List.length_cons, ih]

theorem Node.labelBudget_blur (f : α → β) (node : Node α) : (node.blur f).labelBudget = node.labelBudget := by
  cases node with
  | stmt s =>
    cases s with
    | branch note arms otherwise => simp only [Node.blur, Stmt.blur, Node.labelBudget, Stmt.blurArms_length]
    | _ => rfl
  | expr e =>
    cases e with
    | cond note arms otherwise => exact congrArg (· + 1) (Expr.blurArms_length f arms)
    | _ => rfl
  | _ => rfl

/-- The labels of a node as a note. -/
def reservePlain (node : Node Unit) : StateM Int64 Note := fun next =>
  match node.labelBudget with
  | 0 => ({ span := default }, next)
  | count => ({ span := default, labels := some ⟨next, count⟩ }, next + Int64.ofNat count)

/-! ## New notes on a blurred tree -/

/-- The second effect gives out the labels that the first one does, with results changed by a function. -/
def Follows {γ δ : Type} (f : γ → δ) (x : StateM Int64 γ) (y : StateM Int64 δ) : Prop :=
  ∀ next : Int64, y next = (f (x next).1, (x next).2)

namespace Follows

variable {γ δ γ' δ' : Type} {f : γ → δ} {g : γ' → δ'}

theorem pure {a : γ} {b : δ} (same : f a = b) : Follows f (pure a) (pure b) := by
  subst same
  exact fun _ => rfl

theorem bind {x : StateM Int64 γ'} {y : StateM Int64 δ'} {k : γ' → StateM Int64 γ} {k' : δ' → StateM Int64 δ}
    (first : Follows g x y) (next : ∀ a, Follows f (k a) (k' (g a))) : Follows f (x >>= k) (y >>= k') := by
  intro n
  change k' (y n).1 (y n).2 = _
  rw [first n]
  exact next (x n).1 (x n).2

theorem option {ε ε' ζ ζ' : Type} {run : ε → StateM Int64 ζ} {run' : ε' → StateM Int64 ζ'} {c : ε → ε'} {m : ζ → ζ'}
    (each : ∀ x, Follows m (run x) (run' (c x))) (x : Option ε) :
    Follows (Option.map m) (traverseOption run x) (traverseOption run' (x.map c)) := by
  cases x with
  | none => exact .pure rfl
  | some x => exact (each x).bind fun _ => .pure rfl

theorem parts {ε ε' ζ ζ' : Type} {run : ε → StateM Int64 ζ} {run' : ε' → StateM Int64 ζ'} {c : ε → ε'} {m : ζ → ζ'}
    (each : ∀ x, Follows m (run x) (run' (c x))) (xs : List ε) :
    Follows (List.map m) (traverseParts run xs) (traverseParts run' (xs.map c)) := by
  induction xs with
  | nil => exact .pure rfl
  | cons x rest ih => exact (each x).bind fun _ => ih.bind fun _ => .pure rfl

end Follows

/-- A tree without notes. -/
abbrev bare : Span → Unit := fun _ => ()

theorem reserveNode_follows (node : Node Span) :
    Follows Note.blur (reserveNode node) (reservePlain (node.blur bare)) := by
  intro next
  rw [reservePlain, reserveNode, Node.labelBudget_blur]
  cases node.labelBudget <;> rfl

/-- A traversal that starts with the labels of a node. -/
theorem Follows.node {γ δ : Type} {f : γ → δ} {node : Node Span} {k : Note → StateM Int64 γ} {k' : Note → StateM Int64 δ}
    (next : ∀ note, Follows f (k note) (k' note.blur)) :
    Follows f (reserveNode node >>= k) (reservePlain (node.blur bare) >>= k') :=
  (reserveNode_follows node).bind next

theorem Ident.traverse_follows (i : Ident Span) :
    Follows (Ident.blur Note.blur) (i.traverse reserveNode) ((i.blur bare).traverse reservePlain) :=
  .node fun _ => .pure rfl

mutual

theorem Expr.traverse_follows : ∀ e : Expr Span,
    Follows (Expr.blur Note.blur) (e.traverse reserveNode) ((e.blur bare).traverse reservePlain)
  | int _ _ | bool _ _ | char _ _ | text _ _ => .node fun _ => .pure rfl
  | ident id => id.traverse_follows.bind fun _ => .pure rfl
  | unary _ _ x | deref _ x | ref _ x =>
    .node fun _ => (Expr.traverse_follows x).bind fun _ => .pure rfl
  | binary _ _ x y => .node fun _ => (Expr.traverse_follows x).bind fun _ =>
    (Expr.traverse_follows y).bind fun _ => .pure rfl
  | cond _ arms otherwise => .node fun _ => (Expr.traverseArms_follows arms).bind fun _ =>
    (Expr.traverse_follows otherwise).bind fun _ => .pure rfl
  | call _ callee args => .node fun _ => callee.traverse_follows.bind fun _ =>
    (Expr.traverseList_follows args).bind fun _ => .pure rfl
  | index _ x indexes => .node fun _ => (Expr.traverse_follows x).bind fun _ =>
    (Expr.traverseList_follows indexes).bind fun _ => .pure rfl

theorem Expr.traverseList_follows : ∀ es : List (Expr Span),
    Follows (Expr.blurList Note.blur) (Expr.traverseList reserveNode es) (Expr.traverseList reservePlain (Expr.blurList bare es))
  | [] => .pure rfl
  | e :: rest => (Expr.traverse_follows e).bind fun _ => (Expr.traverseList_follows rest).bind fun _ => .pure rfl

theorem Expr.traverseArms_follows : ∀ arms : List (CondValue Span),
    Follows (Expr.blurArms Note.blur) (Expr.traverseArms reserveNode arms) (Expr.traverseArms reservePlain (Expr.blurArms bare arms))
  | [] => .pure rfl
  | .mk _ test value :: rest => .node fun _ => (Expr.traverse_follows test).bind fun _ =>
    (Expr.traverse_follows value).bind fun _ => (Expr.traverseArms_follows rest).bind fun _ => .pure rfl

end

/-! ## Modes -/

theorem ModeName.traverse_follows (m : ModeName Span) :
    Follows (ModeName.blur Note.blur) (m.traverse reserveNode) ((m.blur bare).traverse reservePlain) :=
  .node fun _ => m.id.traverse_follows.bind fun _ => .pure rfl

mutual

theorem ModeExpr.traverse_follows : ∀ m : ModeExpr Span,
    Follows (ModeExpr.blur Note.blur) (m.traverse reserveNode) ((m.blur bare).traverse reservePlain)
  | name m => m.traverse_follows.bind fun _ => .pure rfl
  | range _ base lo hi => .node fun _ => (Follows.option ModeName.traverse_follows base).bind fun _ =>
    lo.traverse_follows.bind fun _ => hi.traverse_follows.bind fun _ => .pure rfl
  | ref _ elem => .node fun _ => (ModeExpr.traverse_follows elem).bind fun _ => .pure rfl
  | chars _ len => .node fun _ => len.traverse_follows.bind fun _ => .pure rfl
  | array _ indexes elem => .node fun _ => (ModeExpr.traverseList_follows indexes).bind fun _ =>
    (ModeExpr.traverse_follows elem).bind fun _ => .pure rfl

theorem ModeExpr.traverseList_follows : ∀ ms : List (ModeExpr Span),
    Follows (ModeExpr.blurList Note.blur) (ModeExpr.traverseList reserveNode ms) (ModeExpr.traverseList reservePlain (ModeExpr.blurList bare ms))
  | [] => .pure rfl
  | m :: rest => (ModeExpr.traverse_follows m).bind fun _ => (ModeExpr.traverseList_follows rest).bind fun _ => .pure rfl

end

/-! ## Declarations -/

theorem Declaration.traverse_follows (d : Declaration Span) :
    Follows (Declaration.blur Note.blur) (d.traverse reserveNode) ((d.blur bare).traverse reservePlain) :=
  .node fun _ => (Follows.parts Ident.traverse_follows d.names).bind fun _ =>
    d.mode.traverse_follows.bind fun _ => (Follows.option Expr.traverse_follows d.init).bind fun _ => .pure rfl

theorem SynonymDef.traverse_follows (d : SynonymDef Span) :
    Follows (SynonymDef.blur Note.blur) (d.traverse reserveNode) ((d.blur bare).traverse reservePlain) :=
  .node fun _ => (Follows.parts Ident.traverse_follows d.names).bind fun _ =>
    (Follows.option ModeExpr.traverse_follows d.mode).bind fun _ => d.value.traverse_follows.bind fun _ => .pure rfl

theorem ModeDef.traverse_follows (d : ModeDef Span) :
    Follows (ModeDef.blur Note.blur) (d.traverse reserveNode) ((d.blur bare).traverse reservePlain) :=
  .node fun _ => (Follows.parts Ident.traverse_follows d.names).bind fun _ =>
    d.mode.traverse_follows.bind fun _ => .pure rfl

theorem FormalParam.traverse_follows (p : FormalParam Span) :
    Follows (FormalParam.blur Note.blur) (p.traverse reserveNode) ((p.blur bare).traverse reservePlain) :=
  .node fun _ => (Follows.parts Ident.traverse_follows p.names).bind fun _ =>
    p.mode.traverse_follows.bind fun _ => .pure rfl

theorem ResultSpec.traverse_follows (r : ResultSpec Span) :
    Follows (ResultSpec.blur Note.blur) (r.traverse reserveNode) ((r.blur bare).traverse reservePlain) :=
  .node fun _ => r.mode.traverse_follows.bind fun _ => .pure rfl

theorem ForControl.traverse_follows (c : ForControl Span) :
    Follows (ForControl.blur Note.blur) (c.traverse reserveNode) ((c.blur bare).traverse reservePlain) :=
  .node fun _ => c.counter.traverse_follows.bind fun _ => c.start.traverse_follows.bind fun _ =>
    (Follows.option Expr.traverse_follows c.step).bind fun _ => c.stop.traverse_follows.bind fun _ => .pure rfl

/-! ## Statements -/

mutual

theorem Stmt.traverse_follows : ∀ s : Stmt Span,
    Follows (Stmt.blur Note.blur) (s.traverse reserveNode) ((s.blur bare).traverse reservePlain)
  | declare _ decls => .node fun _ =>
    (Follows.parts Declaration.traverse_follows decls).bind fun _ => .pure rfl
  | synonym _ defs => .node fun _ =>
    (Follows.parts SynonymDef.traverse_follows defs).bind fun _ => .pure rfl
  | modes _ defs => .node fun _ => (Follows.parts ModeDef.traverse_follows defs).bind fun _ => .pure rfl
  | proc _ name params spec body => .node fun _ => name.traverse_follows.bind fun _ =>
    (Follows.parts FormalParam.traverse_follows params).bind fun _ =>
      (Follows.option ResultSpec.traverse_follows spec).bind fun _ =>
        (Stmt.traverseList_follows body).bind fun _ => .pure rfl
  | assign _ target _ value => .node fun _ => target.traverse_follows.bind fun _ =>
    value.traverse_follows.bind fun _ => .pure rfl
  | branch _ arms otherwise => .node fun _ => (Stmt.traverseArms_follows arms).bind fun _ =>
    (Stmt.traverseElse_follows otherwise).bind fun _ => .pure rfl
  | loop _ control whilst body => .node fun _ =>
    (Follows.option ForControl.traverse_follows control).bind fun _ =>
      (Follows.option Expr.traverse_follows whilst).bind fun _ => (Stmt.traverseList_follows body).bind fun _ => .pure rfl
  | call _ _ callee args => .node fun _ => .node fun _ =>
    callee.traverse_follows.bind fun _ => (Expr.traverseList_follows args).bind fun _ => .pure rfl
  | ret _ value => .node fun _ => (Follows.option Expr.traverse_follows value).bind fun _ => .pure rfl
  | result _ value => .node fun _ => value.traverse_follows.bind fun _ => .pure rfl

theorem Stmt.traverseList_follows : ∀ ss : List (Stmt Span),
    Follows (Stmt.blurList Note.blur) (Stmt.traverseList reserveNode ss) (Stmt.traverseList reservePlain (Stmt.blurList bare ss))
  | [] => .pure rfl
  | s :: rest => (Stmt.traverse_follows s).bind fun _ => (Stmt.traverseList_follows rest).bind fun _ => .pure rfl

theorem Stmt.traverseElse_follows : ∀ body : Option (List (Stmt Span)),
    Follows (Stmt.blurElse Note.blur) (Stmt.traverseElse reserveNode body) (Stmt.traverseElse reservePlain (Stmt.blurElse bare body))
  | none => .pure rfl
  | some body => (Stmt.traverseList_follows body).bind fun _ => .pure rfl

theorem Stmt.traverseArms_follows : ∀ arms : List (CondBranch Span),
    Follows (Stmt.blurArms Note.blur) (Stmt.traverseArms reserveNode arms) (Stmt.traverseArms reservePlain (Stmt.blurArms bare arms))
  | [] => .pure rfl
  | .mk _ test body :: rest => .node fun _ => test.traverse_follows.bind fun _ =>
    (Stmt.traverseList_follows body).bind fun _ => (Stmt.traverseArms_follows rest).bind fun _ => .pure rfl

end

end LyaLang.Ast
