import Mathlib
import LyaLang.Check.Labels
import LyaLang.Proofs.Tree.Map

/-! # Nodes under a change of notes

Replacing the notes of a tree replaces those of its nodes and leaves their order alone. So the weight of
a tree, which bounds its labels and its names, does not depend on its notes.
-/

namespace LyaLang.Ast

variable {α β : Type}

/-- The arm of a conditional expression with its notes replaced. -/
def CondValue.map (f : α → β) : CondValue α → CondValue β
  | mk note test value => mk (f note) (test.map f) (value.map f)

/-- The arm of an `if` chain with its notes replaced. -/
def CondBranch.map (f : α → β) : CondBranch α → CondBranch β
  | mk note test body => mk (f note) (test.map f) (Stmt.mapList f body)

/-- A node with its notes replaced. -/
def Node.map (f : α → β) : Node α → Node β
  | program p => program (p.map f)
  | stmt s => stmt (s.map f)
  | declaration d => declaration (d.map f)
  | synonymDef d => synonymDef (d.map f)
  | modeDef d => modeDef (d.map f)
  | formalParam p => formalParam (p.map f)
  | resultSpec r => resultSpec (r.map f)
  | condBranch b => condBranch (b.map f)
  | forControl c => forControl (c.map f)
  | modeExpr m => modeExpr (m.map f)
  | expr e => expr (e.map f)
  | condValue v => condValue (v.map f)
  | ident i => ident (i.map f)

variable (f : α → β)

mutual

theorem Expr.nodes_map : ∀ e : Expr α, (e.map f).nodes = e.nodes.map (Node.map f)
  | int _ _ | bool _ _ | char _ _ | text _ _ | ident _ => rfl
  | unary note op x => by
    simp only [Expr.map, Expr.nodes, Expr.nodes_map x, List.map_cons, Node.map]
  | deref note x => by
    simp only [Expr.map, Expr.nodes, Expr.nodes_map x, List.map_cons, Node.map]
  | ref note x => by
    simp only [Expr.map, Expr.nodes, Expr.nodes_map x, List.map_cons, Node.map]
  | binary note op x y => by
    simp only [Expr.map, Expr.nodes, Expr.nodes_map x, Expr.nodes_map y, List.map_cons, List.map_append, Node.map]
  | cond note branches otherwise => by
    simp only [Expr.map, Expr.nodes, Expr.armNodes_map branches, Expr.nodes_map otherwise, List.map_cons,
      List.map_append, Node.map]
  | call note callee args => by
    simp only [Expr.map, Expr.nodes, Expr.listNodes_map args, List.map_cons, Node.map]
  | index note x indexes => by
    simp only [Expr.map, Expr.nodes, Expr.nodes_map x, Expr.listNodes_map indexes, List.map_cons, List.map_append,
      Node.map]

theorem Expr.listNodes_map :
    ∀ es : List (Expr α), Expr.listNodes (Expr.mapList f es) = (Expr.listNodes es).map (Node.map f)
  | [] => rfl
  | e :: rest => by
    simp only [Expr.mapList, Expr.listNodes, Expr.nodes_map e, Expr.listNodes_map rest, List.map_append]

theorem Expr.armNodes_map :
    ∀ arms : List (CondValue α), Expr.armNodes (Expr.mapArms f arms) = (Expr.armNodes arms).map (Node.map f)
  | [] => rfl
  | .mk note test value :: rest => by
    simp only [Expr.mapArms, Expr.armNodes, Expr.nodes_map test, Expr.nodes_map value, Expr.armNodes_map rest,
      List.map_cons, List.map_append, Node.map, CondValue.map]

end

theorem identNodes_map (names : List (Ident α)) :
    identNodes (names.map (Ident.map f)) = (identNodes names).map (Node.map f) := by
  simp [identNodes, Node.map]

theorem optionalNodes_map (e : Option (Expr α)) :
    optionalNodes (e.map (Expr.map f)) = (optionalNodes e).map (Node.map f) := by
  cases e with
  | none => rfl
  | some e => exact e.nodes_map f

mutual

theorem ModeExpr.nodes_map : ∀ m : ModeExpr α, (m.map f).nodes = m.nodes.map (Node.map f)
  | name m => rfl
  | range note base lo hi => by
    cases base <;> simp only [ModeExpr.map, ModeExpr.nodes, Expr.nodes_map, List.map_cons, List.map_append, Node.map,
      Option.map_none, Option.map_some, Option.getD_none, Option.getD_some, ModeName.nodes, ModeName.map, List.map_nil]
  | ref note elem => by
    simp only [ModeExpr.map, ModeExpr.nodes, ModeExpr.nodes_map elem, List.map_cons, Node.map]
  | chars note len => by
    simp only [ModeExpr.map, ModeExpr.nodes, Expr.nodes_map, List.map_cons, Node.map]
  | array note indexes elem => by
    simp only [ModeExpr.map, ModeExpr.nodes, ModeExpr.listNodes_map indexes, ModeExpr.nodes_map elem, List.map_cons,
      List.map_append, Node.map]

theorem ModeExpr.listNodes_map :
    ∀ ms : List (ModeExpr α), ModeExpr.listNodes (ModeExpr.mapList f ms) = (ModeExpr.listNodes ms).map (Node.map f)
  | [] => rfl
  | m :: rest => by
    simp only [ModeExpr.mapList, ModeExpr.listNodes, ModeExpr.nodes_map m, ModeExpr.listNodes_map rest,
      List.map_append]

end

theorem Declaration.nodes_map (d : Declaration α) : (d.map f).nodes = d.nodes.map (Node.map f) := by
  simp only [Declaration.nodes, Declaration.map, identNodes_map, ModeExpr.nodes_map, optionalNodes_map,
    List.map_cons, List.map_append, Node.map]

theorem SynonymDef.nodes_map (d : SynonymDef α) : (d.map f).nodes = d.nodes.map (Node.map f) := by
  cases mode : d.mode <;>
    simp [SynonymDef.nodes, SynonymDef.map, mode, identNodes_map, ModeExpr.nodes_map, Expr.nodes_map, Node.map]

theorem ModeDef.nodes_map (d : ModeDef α) : (d.map f).nodes = d.nodes.map (Node.map f) := by
  simp [ModeDef.nodes, ModeDef.map, identNodes_map, ModeExpr.nodes_map, Node.map]

theorem FormalParam.nodes_map (p : FormalParam α) : (p.map f).nodes = p.nodes.map (Node.map f) := by
  simp [FormalParam.nodes, FormalParam.map, identNodes_map, ModeExpr.nodes_map, Node.map]

theorem ResultSpec.nodes_map (r : ResultSpec α) : (r.map f).nodes = r.nodes.map (Node.map f) := by
  simp [ResultSpec.nodes, ResultSpec.map, ModeExpr.nodes_map, Node.map]

theorem ForControl.nodes_map (c : ForControl α) : (c.map f).nodes = c.nodes.map (Node.map f) := by
  simp [ForControl.nodes, ForControl.map, optionalNodes_map, Expr.nodes_map, Node.map]

/-- Lists of constructs keep their nodes if the constructs do. -/
private theorem flatMap_nodes_map {γ : Type → Type} {map : γ α → γ β} {nodes : ∀ {δ}, γ δ → List (Node δ)}
    (each : ∀ x, nodes (map x) = (nodes x).map (Node.map f)) (xs : List (γ α)) :
    (xs.map map).flatMap nodes = (xs.flatMap nodes).map (Node.map f) := by
  induction xs with
  | nil => rfl
  | cons x rest ih => simp only [List.map_cons, List.flatMap_cons, each, ih, List.map_append]

mutual

theorem Stmt.nodes_map : ∀ s : Stmt α, (s.map f).nodes = s.nodes.map (Node.map f)
  | declare note decls => by
    simp only [Stmt.map, Stmt.nodes, flatMap_nodes_map f (Declaration.nodes_map f), List.map_cons, Node.map]
  | synonym note defs => by
    simp only [Stmt.map, Stmt.nodes, flatMap_nodes_map f (SynonymDef.nodes_map f), List.map_cons, Node.map]
  | modes note defs => by
    simp only [Stmt.map, Stmt.nodes, flatMap_nodes_map f (ModeDef.nodes_map f), List.map_cons, Node.map]
  | proc note name params spec body => by
    cases spec <;> simp only [Stmt.map, Stmt.nodes, flatMap_nodes_map f (FormalParam.nodes_map f),
      ResultSpec.nodes_map, Stmt.listNodes_map body, List.map_cons, List.map_append, Node.map, Option.map_none,
      Option.map_some, Option.getD_none, Option.getD_some, List.map_nil]
  | assign note target op value => by
    simp only [Stmt.map, Stmt.nodes, Expr.nodes_map, List.map_cons, List.map_append, Node.map]
  | branch note branches none => by
    simp only [Stmt.map, Stmt.mapElse, Stmt.nodes, Stmt.armNodes_map branches, List.map_cons, List.append_nil, Node.map]
  | branch note branches (some body) => by
    simp only [Stmt.map, Stmt.mapElse, Stmt.nodes, Stmt.armNodes_map branches, Stmt.listNodes_map body, List.map_cons,
      List.map_append, Node.map]
  | loop note control whilst body => by
    cases control <;> simp only [Stmt.map, Stmt.nodes, ForControl.nodes_map, optionalNodes_map,
      Stmt.listNodes_map body, List.map_cons, List.map_append, Node.map, Option.map_none, Option.map_some,
      Option.getD_none, Option.getD_some, List.map_nil]
  | call note callNote callee args => by
    exact congrArg _ ((Expr.call callNote callee args).nodes_map f)
  | ret note value => by
    simp only [Stmt.map, Stmt.nodes, optionalNodes_map, List.map_cons, Node.map]
  | result note value => by
    simp only [Stmt.map, Stmt.nodes, Expr.nodes_map, List.map_cons, Node.map]

theorem Stmt.listNodes_map :
    ∀ ss : List (Stmt α), Stmt.listNodes (Stmt.mapList f ss) = (Stmt.listNodes ss).map (Node.map f)
  | [] => rfl
  | s :: rest => by
    simp only [Stmt.mapList, Stmt.listNodes, Stmt.nodes_map s, Stmt.listNodes_map rest, List.map_append]

theorem Stmt.armNodes_map :
    ∀ arms : List (CondBranch α), Stmt.armNodes (Stmt.mapArms f arms) = (Stmt.armNodes arms).map (Node.map f)
  | [] => rfl
  | .mk note test body :: rest => by
    simp only [Stmt.mapArms, Stmt.armNodes, Expr.nodes_map, Stmt.listNodes_map body, Stmt.armNodes_map rest,
      List.map_cons, List.map_append, Node.map, CondBranch.map]

end

theorem Program.nodes_map (p : Program α) : (p.map f).nodes = p.nodes.map (Node.map f) := by
  simp only [Program.nodes, Stmt.listNodes_map, Program.map, List.map_cons, Node.map]

/-- The nodes of an optional body. -/
def Stmt.elseNodes : Option (List (Stmt α)) → List (Node α)
  | none => []
  | some body => Stmt.listNodes body

theorem Stmt.nodes_branch (note : α) (branches : List (CondBranch α)) (otherwise : Option (List (Stmt α))) :
    (Stmt.branch note branches otherwise).nodes =
      .stmt (.branch note branches otherwise) :: (Stmt.armNodes branches ++ Stmt.elseNodes otherwise) := by
  cases otherwise <;> rfl

/-! ## Weight -/

/-- The words that a counted loop keeps at most: its counter, its bound and its step. -/
def ForControl.wordCount (f : ForControl α) : Nat := if f.step.isSome then 3 else 2

/-- The weight of a node: a name, a string and an operator between two operands count twice, a counted loop four
times for each of its words, and everything else once for each of its labels. -/
def Node.weight (node : Node α) : Nat :=
  match node with
  | ident _ | expr (.text _ _) | expr (.binary _ _ _ _) => 2
  | stmt (.loop _ (some f) _ _) => 4 * f.wordCount
  | node => node.labelBudget

/-- The weight of nodes. -/
def weigh (nodes : List (Node α)) : Nat := (nodes.map Node.weight).sum

@[simp] theorem weigh_nil : weigh ([] : List (Node α)) = 0 := rfl

@[simp] theorem weigh_cons (node : Node α) (rest : List (Node α)) : weigh (node :: rest) = node.weight + weigh rest := rfl

@[simp] theorem weigh_append (front rest : List (Node α)) : weigh (front ++ rest) = weigh front + weigh rest := by
  simp [weigh]

theorem Node.note_map (n : Node α) : (n.map f).note = f n.note := by
  cases n with
  | stmt s => cases s <;> simp only [Node.map, Stmt.map, Node.note, Stmt.note]
  | expr e => cases e <;> simp only [Node.map, Expr.map, Node.note, Expr.note, Ident.map]
  | modeExpr m => cases m <;> simp only [Node.map, ModeExpr.map, Node.note, ModeExpr.note, ModeName.map]
  | condBranch b => cases b; rfl
  | condValue v => cases v; rfl
  | _ => rfl

@[simp] theorem Node.labelBudget_map (node : Node α) : (node.map f).labelBudget = node.labelBudget := by
  cases node with
  | stmt s => cases s <;> simp [Node.map, Node.labelBudget, Stmt.map]
  | expr e => cases e <;> simp [Node.map, Node.labelBudget, Expr.map]
  | _ => rfl

theorem Node.weight_map (node : Node α) : (node.map f).weight = node.weight := by
  cases node with
  | stmt s =>
    cases s with
    | loop _ control _ _ => cases control <;> simp [Node.map, Node.weight, Node.labelBudget, Stmt.map,
        ForControl.wordCount, ForControl.map]
    | _ => simp [Node.map, Node.weight, Node.labelBudget, Stmt.map]
  | expr e => cases e <;> simp [Node.map, Node.weight, Node.labelBudget, Expr.map]
  | _ => rfl

theorem weigh_map (nodes : List (Node α)) : weigh (nodes.map (Node.map f)) = weigh nodes := by
  simp only [weigh, List.map_map, Function.comp_def, Node.weight_map]

end LyaLang.Ast
