import LyaLang.Check.Labels
import LyaLang.Proofs.Tree.Nodes

/-! # Numbering a tree

Label reservation visits every construct once and gives it a block of labels next to the blocks of
the constructs before it. Read off in the order of the nodes, the labels of a reserved tree are
consecutive machine integers, and each construct has as many as it needs.
-/

namespace LyaLang

open Ast

variable {next after : Int64}

/-- What a construct has before it is checked: where it stands, and its labels. -/
structure Origin where
  span : Span
  labels : Option LabelBlock

/-- The note of a construct about which nothing else is known. -/
def Origin.note (o : Origin) : Note := { span := o.span, labels := o.labels }

/-- What a note says of the time before the check. -/
def Note.origin (n : Note) : Origin := ⟨n.span, n.labels⟩

@[simp] theorem Origin.origin_note (o : Origin) : o.note.origin = o := rfl

theorem Ast.Expr.origin_note (e : Expr Origin) : (e.map Origin.note).map Note.origin = e := by
  rw [Expr.map_map]
  exact Expr.map_id e

/-- Consecutive labels. -/
def labelRun (first : Int64) (count : Nat) : List Int64 :=
  (List.range count).map fun i => first + Int64.ofNat i

@[simp] theorem labelRun_length (first : Int64) (count : Nat) : (labelRun first count).length = count := by
  simp [labelRun]

theorem int64_add_ofNat_add (first : Int64) (m n : Nat) :
    first + Int64.ofNat m + Int64.ofNat n = first + Int64.ofNat (m + n) := by
  rw [Int64.add_assoc, Int64.ofNat_add]

theorem labelRun_add (first : Int64) (m n : Nat) :
    labelRun first (m + n) = labelRun first m ++ labelRun (first + Int64.ofNat m) n := by
  simp only [labelRun, List.range_add, List.map_append, List.map_map]
  congr 1
  apply List.map_congr_left
  intro i _
  exact (int64_add_ofNat_add first m i).symm

theorem labelRun_nodup {first : Int64} {count : Nat} (few : count ≤ 2 ^ 64) : (labelRun first count).Nodup := by
  refine List.Nodup.map_on (fun i inRange j inRange' same => ?_) List.nodup_range
  have same : Int64.ofNat i = Int64.ofNat j := by simpa using same
  have bits := congrArg (fun n : Int64 => n.toBitVec.toNat) same
  simp only [Int64.toBitVec_ofNat', BitVec.toNat_ofNat] at bits
  rw [List.mem_range] at inRange inRange'
  omega

/-- The labels of a construct itself. -/
def Ast.Node.ownLabels (node : Node Origin) : List Int64 :=
  match node.note.labels with
  | none => []
  | some block => labelRun block.first block.count

/-- The labels of a construct that has a block for them. -/
theorem ownLabels_of_block {node : Node Origin} {first : Int64}
    (labels : node.note.labels = if node.labelBudget = 0 then none else some ⟨first, node.labelBudget⟩) :
    node.ownLabels = labelRun first node.labelBudget := by
  unfold Node.ownLabels
  rw [labels]
  by_cases none : node.labelBudget = 0
  · rw [none]
    rfl
  · rw [if_neg none]

/-- The labels of nodes in their order. -/
def labelsOf (nodes : List (Node Origin)) : List Int64 := nodes.flatMap Node.ownLabels

/-- Every node has a block with as many labels as it needs, and none if it needs none. -/
def Labeled (nodes : List (Node Origin)) : Prop :=
  ∀ node ∈ nodes, ∃ first, node.note.labels = if node.labelBudget = 0 then none else some ⟨first, node.labelBudget⟩

/-- The nodes have the labels from one integer up to another. -/
structure Numbers (next : Int64) (nodes : List (Node Origin)) (after : Int64) : Prop where
  after_eq : after = next + Int64.ofNat (labelsOf nodes).length
  labels_eq : labelsOf nodes = labelRun next (labelsOf nodes).length
  labeled : Labeled nodes

variable {rest : List (Node Origin)}

namespace Numbers

theorem nil (next : Int64) : Numbers next [] next :=
  ⟨by simp [labelsOf], rfl, by simp [Labeled]⟩

theorem append {middle : Int64} {front : List (Node Origin)}
    (first : Numbers next front middle) (second : Numbers middle rest after) :
    Numbers next (front ++ rest) after := by
  have labels : labelsOf (front ++ rest) = labelsOf front ++ labelsOf rest := List.flatMap_append
  refine ⟨?_, ?_, ?_⟩
  · rw [labels, List.length_append, second.after_eq, first.after_eq, int64_add_ofNat_add]
  · rw [labels, List.length_append, labelRun_add, ← first.labels_eq, ← first.after_eq, ← second.labels_eq]
  · intro node member
    rcases List.mem_append.mp member with earlier | later
    · exact first.labeled node earlier
    · exact second.labeled node later

/-- A node with its labels before the nodes of its parts. -/
theorem cons {node : Node Origin} (block : node.note.labels = if node.labelBudget = 0 then none else some ⟨next, node.labelBudget⟩)
    (parts : Numbers (next + Int64.ofNat node.labelBudget) rest after) : Numbers next (node :: rest) after := by
  have single : labelsOf [node] = labelRun next node.labelBudget := by
    simp only [labelsOf, List.flatMap_cons, List.flatMap_nil, List.append_nil, ownLabels_of_block block]
  have one : Numbers next [node] (next + Int64.ofNat node.labelBudget) := by
    refine ⟨?_, ?_, ?_⟩
    · rw [single, labelRun_length]
    · rw [single, labelRun_length]
    · intro other member
      obtain rfl := List.mem_singleton.mp member
      exact ⟨next, block⟩
  exact one.append parts

/-- A node without labels before the nodes of its parts. -/
theorem plain {node : Node Origin} (parts : Numbers next rest after) (budget : node.labelBudget = 0 := by rfl)
    (block : node.note.labels = none := by rfl) : Numbers next (node :: rest) after := by
  apply cons
  · rw [block, if_pos budget]
  · rw [budget]
    simpa using parts

end Numbers

theorem reserveNode_eq (node : Node Span) (next : Int64) :
    ∃ o : Origin, reserveNode node next = (o.note, next + Int64.ofNat node.labelBudget) ∧ o.span = node.note ∧
      o.labels = if node.labelBudget = 0 then none else some ⟨next, node.labelBudget⟩ := by
  unfold reserveNode
  cases node.labelBudget with
  | zero => exact ⟨⟨node.note, none⟩, congrArg (Prod.mk _) (Int64.add_zero next).symm, rfl, rfl⟩
  | succ count => exact ⟨⟨node.note, some ⟨next, count + 1⟩⟩, rfl, rfl, rfl⟩

/-- Reserving labels for a construct gives it the notes of a numbered tree, and changes nothing else. -/
def Reserved {τ : Type → Type} (run : StateM Int64 (τ Note)) (map : ∀ {α β : Type}, (α → β) → τ α → τ β)
    (nodes : τ Origin → List (Node Origin)) (x : τ Span) : Prop :=
  ∀ next, ∃ tree after, run next = (map Origin.note tree, after) ∧ map Origin.span tree = x ∧
    Numbers next (nodes tree) after

namespace Reserved

variable {σ τ : Type → Type} {run : StateM Int64 (σ Note)} {run' : StateM Int64 (τ Note)}
  {map : ∀ {α β : Type}, (α → β) → σ α → σ β} {map' : ∀ {α β : Type}, (α → β) → τ α → τ β}
  {nodes : σ Origin → List (Node Origin)} {nodes' : τ Origin → List (Node Origin)} {x : σ Span} {y : τ Span}

/-- Two parts, one after the other. -/
theorem both (first : Reserved run map nodes x) (second : Reserved run' map' nodes' y) :
    Reserved (τ := fun α => σ α × τ α) (do return (← run, ← run')) (fun f t => (map f t.1, map' f t.2))
      (fun t => nodes t.1 ++ nodes' t.2) (x, y) := by
  intro next
  obtain ⟨left, middle, ran, spans, numbers⟩ := first next
  obtain ⟨right, after, ran', spans', numbers'⟩ := second middle
  refine ⟨(left, right), after, ?_, congr (congrArg Prod.mk spans) spans', numbers.append numbers'⟩
  simp only [bind, StateT.bind, ran, ran']
  rfl

/-- A construct that consists of its parts. -/
theorem of (parts : Reserved run map nodes x) (make : ∀ {α : Type}, σ α → τ α)
    (natural : ∀ {α β : Type} (f : α → β) (t : σ α), map' f (make t) = make (map f t))
    (same : ∀ t, nodes' (make t) = nodes t) : Reserved (do return make (← run)) map' nodes' (make x) := by
  intro next
  obtain ⟨tree, after, ran, spans, numbers⟩ := parts next
  refine ⟨make tree, after, ?_, (natural Origin.span tree).trans (congrArg make spans), same tree ▸ numbers⟩
  simp only [bind, StateT.bind, ran, natural]
  rfl

/-- A construct with a node of its own before those of its parts. -/
theorem node {note : Span} (parts : Reserved run map nodes x) (make : ∀ {α : Type}, α → σ α → τ α)
    (own : ∀ {α : Type}, τ α → Node α)
    (natural : ∀ {α β : Type} (f : α → β) (o : α) (t : σ α), map' f (make o t) = make (f o) (map f t))
    (split : ∀ o t, nodes' (make o t) = own (make o t) :: nodes t)
    (noted : ∀ {α : Type} (o : α) (t : σ α), (own (make o t)).note = o)
    (budget : ∀ o t, map Origin.span t = x → (own (make o t)).labelBudget = (own (make note x)).labelBudget) :
    Reserved (do let n ← reserveNode (own (make note x)); return make n (← run)) map' nodes' (make note x) := by
  intro next
  obtain ⟨tree, after, ran, spans, numbers⟩ := parts (next + Int64.ofNat (own (make note x)).labelBudget)
  obtain ⟨o, isNote, isSpan, block⟩ := reserveNode_eq (own (make note x)) next
  refine ⟨make o tree, after, ?_, (natural Origin.span o tree).trans ?_, ?_⟩
  · simp only [bind, StateT.bind, isNote, ran, natural]
    rfl
  · rw [isSpan, noted]
    exact congrArg (make note) spans
  · rw [split]
    refine .cons ?_ ?_
    · rw [noted, budget o tree spans]
      exact block
    · rwa [budget o tree spans]

section

variable {each : σ Span → StateM Int64 (σ Note)} (reserved : ∀ x, Reserved (each x) map nodes x)

include reserved

theorem option (x : Option (σ Span)) :
    Reserved (τ := fun α => Option (σ α)) (traverseOption each x) (fun f => Option.map (map f))
      (fun tree => (tree.map nodes).getD []) x := by
  cases x with
  | none => exact fun next => ⟨none, next, rfl, rfl, .nil _⟩
  | some x => refine (reserved x).of some ?_ ?_ <;> intros <;> rfl

theorem parts (xs : List (σ Span)) :
    Reserved (τ := fun α => List (σ α)) (traverseParts each xs) (fun f => List.map (map f)) (List.flatMap nodes) xs := by
  induction xs with
  | nil => exact fun next => ⟨[], next, rfl, rfl, .nil _⟩
  | cons x rest ih => refine ((reserved x).both ih).of (fun t => t.1 :: t.2) ?_ ?_ <;> intros <;> rfl

end

end Reserved

namespace Ast

theorem Ident.reserved (i : Ident Span) :
    Reserved (i.traverse reserveNode) Ident.map (fun i => [.ident i]) i :=
  fun next => ⟨⟨⟨i.note, none⟩, i.name⟩, next, rfl, rfl, .plain (.nil _)⟩

mutual

theorem Expr.reserved : ∀ e : Expr Span, Reserved (e.traverse reserveNode) Expr.map Expr.nodes e
  | int note value => fun next => ⟨.int ⟨note, none⟩ value, next, rfl, rfl, .plain (.nil _)⟩
  | bool note value => fun next => ⟨.bool ⟨note, none⟩ value, next, rfl, rfl, .plain (.nil _)⟩
  | char note value => fun next => ⟨.char ⟨note, none⟩ value, next, rfl, rfl, .plain (.nil _)⟩
  | text note value => fun next => ⟨.text ⟨note, none⟩ value, next, rfl, rfl, .plain (.nil _)⟩
  | ident id => by
    refine id.reserved.of Expr.ident ?_ ?_ <;> intros <;> rfl
  | unary note op x => by
    refine x.reserved.node (fun o x => unary o op x) .expr ?_ ?_ ?_ ?_ <;> intros <;> rfl
  | binary note op x y => by
    refine (x.reserved.both y.reserved).node (fun o t => binary o op t.1 t.2) .expr ?_ ?_ ?_ ?_ <;> intros <;> rfl
  | cond note branches otherwise => by
    refine ((Expr.reservedArms branches).both otherwise.reserved).node (fun o t => cond o t.1 t.2) .expr ?_ ?_ ?_ ?_
    case refine_4 =>
      intro o t same
      have length := Expr.mapArms_length Origin.span t.1
      rw [(Prod.mk.inj same).1] at length
      exact congrArg (· + 1) length.symm
    all_goals intros; rfl
  | call note callee args => by
    refine (callee.reserved.both (Expr.reservedList args)).node (fun o t => call o t.1 t.2) .expr ?_ ?_ ?_ ?_ <;> intros <;> rfl
  | index note x indexes => by
    refine (x.reserved.both (Expr.reservedList indexes)).node (fun o t => index o t.1 t.2) .expr ?_ ?_ ?_ ?_ <;> intros <;> rfl
  | deref note x => by
    refine x.reserved.node deref .expr ?_ ?_ ?_ ?_ <;> intros <;> rfl
  | ref note x => by
    refine x.reserved.node ref .expr ?_ ?_ ?_ ?_ <;> intros <;> rfl

theorem Expr.reservedList : ∀ es : List (Expr Span), Reserved (Expr.traverseList reserveNode es) Expr.mapList Expr.listNodes es
  | [] => fun next => ⟨[], next, rfl, rfl, .nil _⟩
  | e :: rest => by
    refine (e.reserved.both (Expr.reservedList rest)).of (fun t => t.1 :: t.2) ?_ ?_ <;> intros <;> rfl

theorem Expr.reservedArms : ∀ arms : List (CondValue Span),
    Reserved (Expr.traverseArms reserveNode arms) Expr.mapArms Expr.armNodes arms
  | [] => fun next => ⟨[], next, rfl, rfl, .nil _⟩
  | .mk note test value :: rest => fun next => by
    obtain ⟨t, after, run, spans, numbers⟩ := (test.reserved.both value.reserved).both (Expr.reservedArms rest) next
    refine ⟨.mk ⟨note, none⟩ t.1.1 t.1.2 :: t.2, after, ?_, ?_, .plain numbers⟩
    · exact congrArg (fun r => (.mk { span := note } r.1.1.1 r.1.1.2 :: r.1.2, r.2)) run
    · exact congrArg (fun r => .mk note r.1.1 r.1.2 :: r.2) spans

end

theorem reservedIdents (names : List (Ident Span)) :
    Reserved (τ := fun α => List (Ident α)) (traverseParts (Ident.traverse reserveNode) names)
      (fun f => List.map (Ident.map f)) identNodes names := by
  intro next
  obtain ⟨tree, after, run, spans, numbers⟩ := Reserved.parts Ident.reserved names next
  refine ⟨tree, after, run, spans, ?_⟩
  rwa [identNodes, List.map_eq_flatMap]

theorem ModeName.reserved (m : ModeName Span) :
    Reserved (m.traverse reserveNode) ModeName.map ModeName.nodes m := by
  refine m.id.reserved.node ModeName.mk (fun m => .modeExpr (.name m)) ?_ ?_ ?_ ?_ <;> intros <;> rfl

mutual

theorem ModeExpr.reserved : ∀ m : ModeExpr Span, Reserved (m.traverse reserveNode) ModeExpr.map ModeExpr.nodes m
  | name m => by
    refine m.reserved.of name ?_ ?_ <;> intros <;> rfl
  | range note base lo hi => by
    refine (((Reserved.option ModeName.reserved base).both lo.reserved).both hi.reserved).node
      (fun o t => range o t.1.1 t.1.2 t.2) .modeExpr ?_ ?_ ?_ ?_ <;> intros <;> rfl
  | ref note elem => by
    refine elem.reserved.node ref .modeExpr ?_ ?_ ?_ ?_ <;> intros <;> rfl
  | chars note len => by
    refine len.reserved.node chars .modeExpr ?_ ?_ ?_ ?_ <;> intros <;> rfl
  | array note indexes elem => by
    refine ((ModeExpr.reservedList indexes).both elem.reserved).node (fun o t => array o t.1 t.2) .modeExpr
      ?_ ?_ ?_ ?_ <;> intros <;> rfl

theorem ModeExpr.reservedList : ∀ ms : List (ModeExpr Span),
    Reserved (ModeExpr.traverseList reserveNode ms) ModeExpr.mapList ModeExpr.listNodes ms
  | [] => fun next => ⟨[], next, rfl, rfl, .nil _⟩
  | m :: rest => by
    refine (m.reserved.both (ModeExpr.reservedList rest)).of (fun t => t.1 :: t.2) ?_ ?_ <;> intros <;> rfl

end

theorem Declaration.reserved (d : Declaration Span) :
    Reserved (d.traverse reserveNode) Declaration.map Declaration.nodes d := by
  refine (((reservedIdents d.names).both d.mode.reserved).both (Reserved.option Expr.reserved d.init)).node
    (fun o t => ⟨o, t.1.1, t.1.2, d.loc, t.2⟩) .declaration ?_ ?_ ?_ ?_ <;> intros <;> rfl

theorem SynonymDef.reserved (d : SynonymDef Span) :
    Reserved (d.traverse reserveNode) SynonymDef.map SynonymDef.nodes d := by
  refine (((reservedIdents d.names).both (Reserved.option ModeExpr.reserved d.mode)).both d.value.reserved).node
    (fun o t => ⟨o, t.1.1, t.1.2, t.2⟩) .synonymDef ?_ ?_ ?_ ?_ <;> intros <;> rfl

theorem ModeDef.reserved (d : ModeDef Span) : Reserved (d.traverse reserveNode) ModeDef.map ModeDef.nodes d := by
  refine ((reservedIdents d.names).both d.mode.reserved).node (fun o t => ⟨o, t.1, t.2⟩) .modeDef ?_ ?_ ?_ ?_ <;>
    intros <;> rfl

theorem FormalParam.reserved (p : FormalParam Span) :
    Reserved (p.traverse reserveNode) FormalParam.map FormalParam.nodes p := by
  refine ((reservedIdents p.names).both p.mode.reserved).node (fun o t => ⟨o, t.1, t.2, p.loc⟩) .formalParam
    ?_ ?_ ?_ ?_ <;> intros <;> rfl

theorem ResultSpec.reserved (r : ResultSpec Span) :
    Reserved (r.traverse reserveNode) ResultSpec.map ResultSpec.nodes r := by
  refine r.mode.reserved.node (fun o t => ⟨o, t, r.loc⟩) .resultSpec ?_ ?_ ?_ ?_ <;> intros <;> rfl

theorem ForControl.reserved (c : ForControl Span) :
    Reserved (c.traverse reserveNode) ForControl.map ForControl.nodes c := by
  refine (c.counter.reserved.both ((c.start.reserved.both (Reserved.option Expr.reserved c.step)).both
    c.stop.reserved)).node (fun o t => ⟨o, t.1, t.2.1.1, t.2.1.2, c.down, t.2.2⟩) .forControl ?_ ?_ ?_ ?_ <;>
    intros <;> rfl

mutual

theorem Stmt.reserved : ∀ s : Stmt Span, Reserved (s.traverse reserveNode) Stmt.map Stmt.nodes s
  | declare note decls => by
    refine (Reserved.parts Declaration.reserved decls).node declare .stmt ?_ ?_ ?_ ?_ <;> intros <;> rfl
  | synonym note defs => by
    refine (Reserved.parts SynonymDef.reserved defs).node synonym .stmt ?_ ?_ ?_ ?_ <;> intros <;> rfl
  | modes note defs => by
    refine (Reserved.parts ModeDef.reserved defs).node modes .stmt ?_ ?_ ?_ ?_ <;> intros <;> rfl
  | proc note name params spec body => by
    refine (name.reserved.both (((Reserved.parts FormalParam.reserved params).both
      (Reserved.option ResultSpec.reserved spec)).both (Stmt.reservedList body))).node
      (fun o t => proc o t.1 t.2.1.1 t.2.1.2 t.2.2) .stmt ?_ ?_ ?_ ?_ <;> intros <;> rfl
  | assign note target op value => by
    refine (target.reserved.both value.reserved).node (fun o t => assign o t.1 op t.2) .stmt ?_ ?_ ?_ ?_ <;>
      intros <;> rfl
  | branch note branches otherwise => by
    refine ((Stmt.reservedArms branches).both (Stmt.reservedElse otherwise)).node (fun o t => branch o t.1 t.2) .stmt
      ?_ ?_ ?_ ?_
    case refine_2 => exact fun o t => Stmt.nodes_branch o t.1 t.2
    case refine_4 =>
      intro o t same
      have length := Stmt.mapArms_length Origin.span t.1
      rw [(Prod.mk.inj same).1] at length
      exact congrArg (· + 1) length.symm
    all_goals intros; rfl
  | loop note control whilst body => by
    refine (((Reserved.option ForControl.reserved control).both (Reserved.option Expr.reserved whilst)).both
      (Stmt.reservedList body)).node (fun o t => loop o t.1.1 t.1.2 t.2) .stmt ?_ ?_ ?_ ?_ <;> intros <;> rfl
  | call note callNote callee args => fun next => by
    obtain ⟨t, after, run, spans, numbers⟩ := callee.reserved.both (Expr.reservedList args) next
    refine ⟨.call ⟨note, none⟩ ⟨callNote, none⟩ t.1 t.2, after, ?_, ?_, .plain (.plain numbers)⟩
    · exact congrArg (fun r => (Stmt.call { span := note } { span := callNote } r.1.1 r.1.2, r.2)) run
    · exact congrArg (fun r => Stmt.call note callNote r.1 r.2) spans
  | ret note value => by
    refine (Reserved.option Expr.reserved value).node ret .stmt ?_ ?_ ?_ ?_ <;> intros <;> rfl
  | result note value => by
    refine value.reserved.node result .stmt ?_ ?_ ?_ ?_ <;> intros <;> rfl

theorem Stmt.reservedList : ∀ ss : List (Stmt Span),
    Reserved (Stmt.traverseList reserveNode ss) Stmt.mapList Stmt.listNodes ss
  | [] => fun next => ⟨[], next, rfl, rfl, .nil _⟩
  | s :: rest => by
    refine (s.reserved.both (Stmt.reservedList rest)).of (fun t => t.1 :: t.2) ?_ ?_ <;> intros <;> rfl

theorem Stmt.reservedElse : ∀ body : Option (List (Stmt Span)),
    Reserved (Stmt.traverseElse reserveNode body) Stmt.mapElse Stmt.elseNodes body
  | none => fun next => ⟨none, next, rfl, rfl, .nil _⟩
  | some body => by
    refine (Stmt.reservedList body).of some ?_ ?_ <;> intros <;> rfl

theorem Stmt.reservedArms : ∀ arms : List (CondBranch Span),
    Reserved (Stmt.traverseArms reserveNode arms) Stmt.mapArms Stmt.armNodes arms
  | [] => fun next => ⟨[], next, rfl, rfl, .nil _⟩
  | .mk note test body :: rest => fun next => by
    obtain ⟨t, after, run, spans, numbers⟩ := (test.reserved.both (Stmt.reservedList body)).both (Stmt.reservedArms rest) next
    refine ⟨.mk ⟨note, none⟩ t.1.1 t.1.2 :: t.2, after, ?_, ?_, .plain numbers⟩
    · exact congrArg (fun r => (.mk { span := note } r.1.1.1 r.1.1.2 :: r.1.2, r.2)) run
    · exact congrArg (fun r => .mk note r.1.1 r.1.2 :: r.2) spans

end

/-- Reserving labels numbers the tree of a program and changes nothing else. -/
theorem Program.reserved (p : Program Span) : Reserved (reserveProgram p) Program.map Program.nodes p := by
  refine (Stmt.reservedList p.stmts).node Program.mk .program ?_ ?_ ?_ ?_ <;> intros <;> rfl

end Ast

end LyaLang
