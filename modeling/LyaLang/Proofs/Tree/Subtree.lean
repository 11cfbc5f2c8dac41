import LyaLang.Proofs.Tree.Nodes

/-! # Subtrees

The nodes below a node follow it among the nodes of the tree, without a gap and in their order.
-/

namespace LyaLang.Ast

/-- A node and the nodes below it. -/
def Node.subtree {α : Type} : Node α → List (Node α)
  | program p => p.nodes
  | stmt s => s.nodes
  | declaration d => d.nodes
  | synonymDef d => d.nodes
  | modeDef d => d.nodes
  | formalParam p => p.nodes
  | resultSpec r => r.nodes
  | condBranch b => Stmt.armNodes [b]
  | forControl f => f.nodes
  | modeExpr m => m.nodes
  | expr e => e.nodes
  | condValue v => Expr.armNodes [v]
  | ident i => [.ident i]

/-- The subtree of every node starts where the node stands. -/
def Nested {α : Type} (nodes : List (Node α)) : Prop := ∀ n rest, n :: rest <:+ nodes → n.subtree <+: n :: rest

namespace Nested

variable {α : Type} {nodes front back : List (Node α)}

theorem nil : Nested ([] : List (Node α)) := fun _ _ tail => by cases List.suffix_nil.mp tail

theorem cons {n : Node α} (here : n.subtree <+: n :: back) (rest : Nested back) : Nested (n :: back) := by
  intro m after tail
  rcases List.suffix_cons_iff.mp tail with same | tail
  · cases same
    exact here
  · exact rest m after tail

theorem append (first : Nested front) (second : Nested back) : Nested (front ++ back) := by
  induction front with
  | nil => exact second
  | cons n front ih =>
    refine .cons ((first n front List.suffix_rfl).trans (List.prefix_append _ _)) (ih fun m after tail => ?_)
    exact first m after (tail.trans (List.suffix_cons _ _))

theorem flatMap {γ : Type} {f : γ → List (Node α)} (each : ∀ x, Nested (f x)) (xs : List γ) : Nested (xs.flatMap f) := by
  induction xs with
  | nil => exact nil
  | cons x rest ih => exact (each x).append ih

theorem optional {γ : Type} {f : γ → List (Node α)} (each : ∀ x, Nested (f x)) (x : Option γ) :
    Nested ((x.map f).getD []) := by
  cases x with
  | none => exact nil
  | some x => exact each x

/-- A name before other nodes. -/
theorem ident {i : Ident α} (rest : Nested back) : Nested (.ident i :: back) := .cons ⟨back, rfl⟩ rest

theorem identNodes (names : List (Ident α)) : Nested (identNodes names) := by
  induction names with
  | nil => exact nil
  | cons id rest ih => exact .ident ih

theorem sublist (nested : Nested nodes) {n : Node α} (member : n ∈ nodes) : n.subtree.Sublist nodes := by
  obtain ⟨before, after, rfl⟩ := List.append_of_mem member
  exact (nested n after (List.suffix_append _ _)).sublist.trans (List.sublist_append_right _ _)

end Nested

variable {α : Type}

mutual

theorem Expr.nested : ∀ e : Expr α, Nested e.nodes
  | .int _ _ | .bool _ _ | .char _ _ | .text _ _ | .ident _ => .cons List.prefix_rfl .nil
  | .unary _ _ x | .deref _ x | .ref _ x => .cons List.prefix_rfl x.nested
  | .binary _ _ x y => .cons List.prefix_rfl (x.nested.append y.nested)
  | .cond _ arms otherwise => .cons List.prefix_rfl ((Expr.nested_arms arms).append otherwise.nested)
  | .call _ _ args =>
    .cons List.prefix_rfl (.ident (Expr.nested_list args))
  | .index _ x indexes => .cons List.prefix_rfl (x.nested.append (Expr.nested_list indexes))

theorem Expr.nested_list : ∀ es : List (Expr α), Nested (Expr.listNodes es)
  | [] => .nil
  | e :: rest => e.nested.append (Expr.nested_list rest)

theorem Expr.nested_arms : ∀ arms : List (CondValue α), Nested (Expr.armNodes arms)
  | [] => .nil
  | .mk note test value :: rest => by
    refine .cons ?_ ((test.nested.append value.nested).append (Expr.nested_arms rest))
    rw [Node.subtree, Expr.armNodes, Expr.armNodes, List.append_nil]
    exact ⟨_, rfl⟩

end

theorem ModeName.nested (m : ModeName α) : Nested m.nodes :=
  .cons List.prefix_rfl (.ident .nil)

mutual

theorem ModeExpr.nested : ∀ m : ModeExpr α, Nested m.nodes
  | .name m => m.nested
  | .range _ base lo hi => .cons List.prefix_rfl (((Nested.optional ModeName.nested base).append lo.nested).append hi.nested)
  | .ref _ elem => .cons List.prefix_rfl elem.nested
  | .chars _ len => .cons List.prefix_rfl len.nested
  | .array _ indexes elem => .cons List.prefix_rfl ((ModeExpr.nested_list indexes).append elem.nested)

theorem ModeExpr.nested_list : ∀ ms : List (ModeExpr α), Nested (ModeExpr.listNodes ms)
  | [] => .nil
  | m :: rest => m.nested.append (ModeExpr.nested_list rest)

end

theorem Declaration.nested (d : Declaration α) : Nested d.nodes :=
  .cons List.prefix_rfl (((Nested.identNodes d.names).append d.mode.nested).append (.optional Expr.nested d.init))

theorem SynonymDef.nested (d : SynonymDef α) : Nested d.nodes :=
  .cons List.prefix_rfl (((Nested.identNodes d.names).append (.optional ModeExpr.nested d.mode)).append d.value.nested)

theorem ModeDef.nested (d : ModeDef α) : Nested d.nodes :=
  .cons List.prefix_rfl ((Nested.identNodes d.names).append d.mode.nested)

theorem FormalParam.nested (p : FormalParam α) : Nested p.nodes :=
  .cons List.prefix_rfl ((Nested.identNodes p.names).append p.mode.nested)

theorem ResultSpec.nested (r : ResultSpec α) : Nested r.nodes := .cons List.prefix_rfl r.mode.nested

theorem ForControl.nested (f : ForControl α) : Nested f.nodes :=
  .cons List.prefix_rfl (.ident
    ((f.start.nested.append (.optional Expr.nested f.step)).append f.stop.nested))

mutual

theorem Stmt.nested : ∀ s : Stmt α, Nested s.nodes
  | .declare _ decls => .cons List.prefix_rfl (.flatMap Declaration.nested decls)
  | .synonym _ defs => .cons List.prefix_rfl (.flatMap SynonymDef.nested defs)
  | .modes _ defs => .cons List.prefix_rfl (.flatMap ModeDef.nested defs)
  | .proc _ _ params spec body =>
    .cons List.prefix_rfl (.ident (((Nested.flatMap FormalParam.nested params).append
      (.optional ResultSpec.nested spec)).append (Stmt.nested_list body)))
  | .assign _ target _ value => .cons List.prefix_rfl (target.nested.append value.nested)
  | .branch note arms otherwise => by
    rw [Stmt.nodes_branch]
    refine .cons ?_ ((Stmt.nested_arms arms).append (Stmt.nested_else otherwise))
    rw [Node.subtree, Stmt.nodes_branch]
  | .loop _ control whilst body =>
    .cons List.prefix_rfl (((Nested.optional ForControl.nested control).append (.optional Expr.nested whilst)).append
      (Stmt.nested_list body))
  | .call _ callNote callee args => .cons List.prefix_rfl (Expr.call callNote callee args).nested
  | .ret _ value => .cons List.prefix_rfl (.optional Expr.nested value)
  | .result _ value => .cons List.prefix_rfl value.nested

theorem Stmt.nested_list : ∀ ss : List (Stmt α), Nested (Stmt.listNodes ss)
  | [] => .nil
  | s :: rest => s.nested.append (Stmt.nested_list rest)

theorem Stmt.nested_else : ∀ body : Option (List (Stmt α)), Nested (Stmt.elseNodes body)
  | none => .nil
  | some body => Stmt.nested_list body

theorem Stmt.nested_arms : ∀ arms : List (CondBranch α), Nested (Stmt.armNodes arms)
  | [] => .nil
  | .mk note test body :: rest => by
    refine .cons ?_ ((test.nested.append (Stmt.nested_list body)).append (Stmt.nested_arms rest))
    rw [Node.subtree, Stmt.armNodes, Stmt.armNodes, List.append_nil]
    exact ⟨_, rfl⟩

end

theorem Program.nested (p : Program α) : Nested p.nodes := .cons List.prefix_rfl (Stmt.nested_list p.stmts)

end LyaLang.Ast
