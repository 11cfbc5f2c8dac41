import LyaLang.Proofs.Emit.Expr
import LyaLang.Proofs.Emit.Occurs

/-! # How often code defines a label

The code of an expression defines each label of its conditional expressions once. The code of a statement
defines each of its labels at most once, as long as no declaration in it initializes several names by an
expression with labels: such an initializer is emitted for every name, with the same labels.
-/

namespace LyaLang

open Ast

variable {o : Opcode}

/-! ## Labels as multisets -/

/-- The labels that code defines, as often as it does. -/
def defines (code : List Draft) : Multiset Int64 := definedLabels code

/-- The labels of nodes, as many for each as it needs. -/
def claims (nodes : List (Node Note)) : Multiset Int64 :=
  (nodes.flatMap fun n => labelRun n.note.firstLabel n.labelBudget : List Int64)

@[simp] theorem defines_nil : defines [] = 0 := rfl

@[simp] theorem defines_append (front rest : List Draft) : defines (front ++ rest) = defines front + defines rest := by
  simp [defines]

@[simp] theorem defines_label (l : Int64) (rest : List Draft) :
    defines (.op1 .lbl l :: rest) = {l} + defines rest := rfl

theorem defines_cons {d : Draft} (plain : d.instruction.op ≠ .lbl) (rest : List Draft) :
    defines (d :: rest) = defines rest := by
  simp [defines, definedLabels, Draft.label?, plain]

@[simp] theorem defines_op (plain : o ≠ .lbl) (rest : List Draft) :
    defines (.op o :: rest) = defines rest := defines_cons plain rest

@[simp] theorem defines_op1 {a : Int64} (plain : o ≠ .lbl) (rest : List Draft) :
    defines (.op1 o a :: rest) = defines rest := defines_cons plain rest

@[simp] theorem defines_op2 {a b : Int64} (plain : o ≠ .lbl) (rest : List Draft) :
    defines (.op2 o a b :: rest) = defines rest := defines_cons plain rest

@[simp] theorem defines_load (k : Word) (rest : List Draft) : defines (.load k :: rest) = defines rest :=
  defines_cons (by simp [Draft.load]) rest

@[simp] theorem defines_pooled (plain : o ≠ .lbl) (s : Bytes) (b : Int64) (rest : List Draft) :
    defines (.pooled o s b :: rest) = defines rest := defines_cons plain rest

@[simp] theorem defines_constant (k : Word) (rest : List Draft) : defines (.constant k :: rest) = defines rest := by
  unfold Draft.constant
  split <;> simp

@[simp] theorem defines_loadDraft (s : Symbol) (rest : List Draft) : defines (s.loadDraft :: rest) = defines rest := by
  unfold Symbol.loadDraft
  split <;> simp

@[simp] theorem defines_storeDraft (s : Symbol) (rest : List Draft) : defines (s.storeDraft :: rest) = defines rest := by
  unfold Symbol.storeDraft
  split <;> simp

@[simp] theorem defines_addressDraft (s : Symbol) (rest : List Draft) :
    defines (s.addressDraft :: rest) = defines rest := by
  unfold Symbol.addressDraft
  split <;> simp

@[simp] theorem Ast.UnaryOp.opcode_ne_lbl (o : UnaryOp) : o.opcode ≠ .lbl := by
  cases o <;> nofun

@[simp] theorem Ast.BinaryOp.opcode_ne_lbl (o : BinaryOp) : o.opcode ≠ .lbl := by
  cases o <;> nofun

@[simp] theorem Ast.BinaryOp.stringOpcode_ne_lbl (o : BinaryOp) : o.stringOpcode ≠ .lbl := by
  cases o <;> nofun

@[simp] theorem defines_indirectCode (m : Mode) : defines m.indirectCode = 0 := by
  unfold Mode.indirectCode
  split
  · rfl
  · split <;> simp

@[simp] theorem defines_symbolCode (s : Symbol) : defines s.code = 0 := by
  unfold Symbol.code
  split
  · simp
  · split
    · split
      · simp
      · split <;> simp
    · simp

@[simp] theorem defines_elementCode (m : Mode) : defines m.elementCode = 0 := by
  unfold Mode.elementCode
  split <;> simp

@[simp] theorem claims_nil : claims [] = 0 := rfl

@[simp] theorem claims_append (front rest : List (Node Note)) : claims (front ++ rest) = claims front + claims rest := by
  simp [claims]

theorem claims_cons (n : Node Note) (rest : List (Node Note)) :
    claims (n :: rest) = (labelRun n.note.firstLabel n.labelBudget) + claims rest := by
  simp [claims]

@[simp] theorem labelRun_zero (first : Int64) : labelRun first 0 = [] := rfl

/-- A construct without labels of its own. -/
theorem claims_plain {n : Node Note} {rest : List (Node Note)} (budget : n.labelBudget = 0) :
    claims (n :: rest) = claims rest := by
  rw [claims_cons, budget]
  exact zero_add _

theorem labelRun_succ (first : Int64) (count : Nat) :
    (labelRun first (count + 1) : Multiset Int64) = {first} + (labelRun (first + 1) count) := by
  have one : labelRun first 1 = [first] := by simp [labelRun]
  rw [Nat.add_comm, labelRun_add, one]
  rfl

theorem labelRun_last (first : Int64) (count : Nat) :
    (labelRun first (count + 1) : Multiset Int64) =
      (labelRun first count) + {first + Int64.ofNat count} := by
  rw [labelRun_add, ← Multiset.coe_add]
  simp [labelRun]

/-! ## Expressions -/

namespace Ast

attribute [local simp] Expr.valueCode Expr.addressCode Expr.indexesCode Expr.nodes Expr.listNodes claims_cons Node.labelBudget

variable {symbols : List Symbol}

/-- A call passes its arguments in one way, and defines no label besides. -/
theorem defines_callCode (good : ∀ s ∈ symbols, s.Good) {callee : Ident Note} {args : List (Expr Note)}
    {result : Option Mode} (typed : CallTyped symbols callee args result) :
    ∃ how : Passing, how.Fits args ∧ ∀ code, defines (callCode callee code) = defines (code how) := by
  obtain ⟨proc, called, fine, takes, _⟩ := typed.procedure good
  unfold Procedure.Takes at takes
  unfold callCode
  cases builtin : proc.builtin with
  | none =>
    rw [builtin] at takes
    exact ⟨.params proc.params, takes, fun code => by simp [called, builtin]⟩
  | some b =>
    rw [builtin] at takes
    cases b with
    | read => exact ⟨.read, takes, fun code => by simp [called, builtin]⟩
    | print => exact ⟨.print, takes, fun code => by simp [called, builtin]⟩
    | operation op accepts =>
      obtain ⟨a, rfl, _⟩ := takes
      have plain : op ≠ .lbl := by
        rintro rfl
        cases fine.operation_ordinary builtin
      exact ⟨.operand, ⟨a, rfl⟩, fun code => by simp [called, builtin, plain]⟩

@[simp] theorem defines_callResultCode (callee : Ident Note) : defines (callResultCode callee) = 0 := by
  unfold callResultCode
  split
  · rfl
  · split <;> simp

theorem defines_readCode {a : Expr Note} {m : Mode} (isMode : a.note.mode = some m) {address : List Draft}
    (plain : ∀ id, a = .ident id → defines address = 0) : defines (readCode a address) = defines address := by
  unfold readCode
  rw [isMode]
  dsimp only
  split
  · simp
  · cases a with
    | ident id =>
      rw [plain id rfl]
      dsimp only
      cases id.note.symbol <;> simp
    | _ => simp

theorem defines_printCode {a : Expr Note} {m : Mode} (isMode : a.note.mode = some m) {value address : List Draft}
    {labels : Multiset Int64} (plain : ∀ note s, a = .text note s → labels = 0) (valued : defines value = labels)
    (addressed : m.isArray = true → defines address = labels) : defines (printCode a value address) = labels := by
  cases a with
  | text note s => simp [printCode, plain note s rfl]
  | _ =>
    unfold printCode
    simp only [isMode]
    split
    · simp [valued]
    · split
      case isTrue array => simp [addressed array]
      case isFalse => simp [valued]

mutual

/-- The code for the value of an expression defines each of its labels once. -/
theorem Expr.defines_valueCode (good : ∀ s ∈ symbols, s.Good) :
    ∀ {e : Expr Note}, e.Typed symbols → defines e.valueCode = claims e.nodes
  | .int _ _, _ | .bool _ _, _ | .char _ _, _ | .text _ _, _ => by
    simp
  | .ident id, typed => by
    obtain ⟨symbol, _, isSymbol, _⟩ := typed
    simp [isSymbol]
  | .unary _ o x, typed => by simp [Expr.defines_valueCode good typed.1]
  | .binary _ o x y, typed => by
    have plain : defines [.op (if x.note.type = .string then o.stringOpcode else o.opcode)] = 0 := by split <;> simp
    simp [plain, Expr.defines_valueCode good typed.1, Expr.defines_valueCode good typed.2.1]
  | .cond note arms otherwise, typed => by
    rw [Expr.nodes, claims_cons, Expr.valueCode]
    simp only [Node.labelBudget, Node.note, Expr.note, labelRun_last, defines_append, claims_append, defines_label,
      defines_nil, Expr.defines_armsCode good typed.1, Expr.defines_valueCode good typed.2.1]
    abel
  | .call _ callee args, typed => by
    obtain ⟨how, fits, code⟩ := defines_callCode good typed.2.1
    simp [code, Expr.defines_argumentsCode good typed.1 fits]
  | .index note x indexes, typed => by
    obtain ⟨m, r, isMode, proper, result, indexed⟩ := typed.index_modes good
    obtain ⟨typedX, location, typedIndexes, _⟩ := typed
    simp [isMode, result, Expr.defines_addressCode good typedX location,
      Expr.defines_indexesCode good typedIndexes proper indexed]
  | .deref note x, typed => by
    obtain ⟨m, isMode, _⟩ := Expr.Typed.hasMode good typed
    have isMode : note.mode = some m := isMode
    simp [isMode, Expr.defines_valueCode good typed.1]
  | .ref _ x, typed => by
    exact Expr.defines_addressCode good typed.1 typed.2.1

/-- The code for the address of a location defines each of its labels once. -/
theorem Expr.defines_addressCode (good : ∀ s ∈ symbols, s.Good) :
    ∀ {e : Expr Note}, e.Typed symbols → e.isLocation = true → defines e.addressCode = claims e.nodes
  | .int _ _, _, location | .bool _ _, _, location | .char _ _, _, location | .text _ _, _, location
  | .unary _ _ _, _, location | .binary _ _ _ _, _, location | .cond _ _ _, _, location
  | .ref _ _, _, location => by cases location
  | .ident id, typed, _ => by
    obtain ⟨symbol, _, isSymbol, _⟩ := typed
    simp [isSymbol]
  | .call _ callee args, typed, _ => by
    obtain ⟨how, fits, code⟩ := defines_callCode good typed.2.1
    simp [code, Expr.defines_argumentsCode good typed.1 fits]
  | .index note x indexes, typed, _ => by
    obtain ⟨m, r, isMode, proper, result, indexed⟩ := typed.index_modes good
    obtain ⟨typedX, location, typedIndexes, _⟩ := typed
    simp [isMode, Expr.defines_addressCode good typedX location,
      Expr.defines_indexesCode good typedIndexes proper indexed]
  | .deref note x, typed, _ => by
    exact Expr.defines_valueCode good typed.1

theorem Expr.defines_indexesCode (good : ∀ s ∈ symbols, s.Good) :
    ∀ {indexes : List (Expr Note)}, Expr.TypedList symbols indexes → ∀ {m r : Mode}, m.Proper →
      m.indexed? indexes.length = some r → defines (Expr.indexesCode (some m) indexes) = claims (Expr.listNodes indexes)
  | [], _, _, _, _, _ => rfl
  | i :: rest, typed, m, r, proper, indexed => by
    obtain ⟨elem, isElem, properElem, indexedElem, _⟩ := emitElement_emits proper indexed
    simp [isElem, Expr.defines_valueCode good typed.1,
      Expr.defines_indexesCode good typed.2 properElem indexedElem]

/-- The arms of a conditional expression define their own labels and those of their parts. -/
theorem Expr.defines_armsCode (good : ∀ s ∈ symbols, s.Good) {type : ValueType} :
    ∀ {arms : List (CondValue Note)}, Expr.TypedArms symbols type arms → ∀ {exit label : Int64},
      defines (Expr.armsCode exit label arms) =
        labelRun label arms.length + claims (Expr.armNodes arms)
  | [], _, _, _ => rfl
  | .mk _ test value :: rest, typed, exit, label => by
    obtain ⟨typedTest, _, typedValue, _, typedRest⟩ := typed
    rw [Expr.armNodes, claims_plain rfl, Expr.armsCode, List.length_cons, labelRun_succ]
    simp only [defines_append, claims_append, ne_eq, reduceCtorEq, not_false_eq_true, defines_op1, defines_label,
      Expr.defines_valueCode good typedTest, Expr.defines_valueCode good typedValue, Expr.defines_armsCode good typedRest]
    abel

theorem Expr.defines_argumentsCode (good : ∀ s ∈ symbols, s.Good) :
    ∀ {args : List (Expr Note)}, Expr.TypedList symbols args → ∀ {how : Passing}, how.Fits args →
      defines (Expr.argumentsCode how args) = claims (Expr.listNodes args)
  | [], _, how, fits => by
    cases how with
    | params ps =>
      cases fits
      rfl
    | _ => rfl
  | a :: rest, typed, how, fits => by
    obtain ⟨typedA, typedRest⟩ := typed
    obtain ⟨m, isMode, _⟩ := typedA.hasMode good
    have valued := Expr.defines_valueCode good typedA
    rw [Expr.listNodes, claims_append]
    cases how with
    | read =>
      obtain ⟨readable, fits⟩ := List.forall_mem_cons.mp fits
      have addressed := Expr.defines_addressCode good typedA readable.1
      rw [Expr.argumentsCode, defines_append, @Expr.defines_argumentsCode good _ typedRest .read fits,
        defines_readCode isMode, addressed]
      rintro id rfl
      rw [addressed, Expr.nodes, claims_plain rfl, claims_nil]
    | print =>
      obtain ⟨printable, fits⟩ := List.forall_mem_cons.mp fits
      rw [Expr.argumentsCode, defines_append, @Expr.defines_argumentsCode good _ typedRest .print fits,
        defines_printCode isMode ?_ valued fun array => ?_]
      · rintro note s rfl
        simp
      · have isArray : a.type.isArray = true := by
          rw [show a.type = m.type from type_of_mode isMode]
          exact array
        exact Expr.defines_addressCode good typedA (printable.2 isArray).2
    | operand =>
      obtain ⟨_, same⟩ := fits
      cases same
      rw [Expr.argumentsCode, valued, Expr.listNodes, claims_nil, add_zero]
    | params ps =>
      cases fits with
      | @cons p _ ps _ takes fits =>
        rw [Expr.argumentsCode, defines_append, @Expr.defines_argumentsCode good _ typedRest (.params ps) fits]
        obtain ⟨_, _, _, located⟩ := takes
        split
        case isTrue loc => rw [Expr.defines_addressCode good typedA (located loc).1]
        case isFalse => rw [valued]

end

/-! ## Conditional expressions -/

variable {α β : Type}

/-- Whether a node is a conditional expression. -/
def Node.isConditional : Node α → Bool
  | .expr (.cond _ _ _) => true
  | _ => false

/-- Whether an expression is a conditional one or has one as a part. -/
def Expr.hasConditional (e : Expr α) : Bool := e.nodes.any Node.isConditional

/-- A node has labels if it is a conditional expression, and only then. -/
def Node.Branches (n : Node α) : Prop := n.isConditional = true ↔ n.labelBudget ≠ 0

attribute [local simp] Node.Branches Node.isConditional

mutual

/-- Of the nodes of an expression, the conditional ones have labels. -/
theorem Expr.branches : ∀ e : Expr α, ∀ n ∈ e.nodes, n.Branches
  | .int _ _ | .bool _ _ | .char _ _ | .text _ _ | .ident _ => by simp
  | .unary _ _ x | .deref _ x | .ref _ x => List.forall_mem_cons.mpr ⟨by simp, x.branches⟩
  | .binary _ _ x y => List.forall_mem_cons.mpr ⟨by simp, List.forall_mem_append.mpr ⟨x.branches, y.branches⟩⟩
  | .cond _ arms otherwise =>
    List.forall_mem_cons.mpr ⟨by simp, List.forall_mem_append.mpr ⟨Expr.arms_branch arms, otherwise.branches⟩⟩
  | .call _ _ args =>
    List.forall_mem_cons.mpr ⟨by simp, List.forall_mem_cons.mpr ⟨by simp, Expr.list_branches args⟩⟩
  | .index _ x indexes =>
    List.forall_mem_cons.mpr ⟨by simp, List.forall_mem_append.mpr ⟨x.branches, Expr.list_branches indexes⟩⟩

theorem Expr.list_branches : ∀ es : List (Expr α), ∀ n ∈ Expr.listNodes es, n.Branches
  | [] => List.forall_mem_nil _
  | e :: rest => List.forall_mem_append.mpr ⟨e.branches, Expr.list_branches rest⟩

theorem Expr.arms_branch : ∀ arms : List (CondValue α), ∀ n ∈ Expr.armNodes arms, n.Branches
  | [] => List.forall_mem_nil _
  | .mk _ test value :: rest =>
    List.forall_mem_cons.mpr ⟨by simp,
      List.forall_mem_append.mpr ⟨List.forall_mem_append.mpr ⟨test.branches, value.branches⟩, Expr.arms_branch rest⟩⟩

end

/-- Nodes have no label exactly if none of them needs one. -/
theorem claims_eq_zero_iff {nodes : List (Node Note)} : claims nodes = 0 ↔ ∀ n ∈ nodes, n.labelBudget = 0 := by
  rw [claims, Multiset.coe_eq_zero, List.flatMap_eq_nil_iff]
  refine forall₂_congr fun n _ => ?_
  rw [← List.length_eq_zero_iff, labelRun_length]

theorem Node.isConditional_map (f : α → β) (node : Node α) : (node.map f).isConditional = node.isConditional := by
  cases node with
  | expr e => cases e <;> rfl
  | _ => rfl

theorem Expr.hasConditional_map (f : α → β) (e : Expr α) : (e.map f).hasConditional = e.hasConditional := by
  unfold Expr.hasConditional
  rw [Expr.nodes_map, List.any_map]
  congr 1
  funext node
  exact Node.isConditional_map f node

/-- An expression has labels exactly if it has a conditional part. -/
theorem Expr.claims_eq_zero_iff {e : Expr Note} : claims e.nodes = 0 ↔ e.hasConditional = false := by
  rw [Ast.claims_eq_zero_iff, Expr.hasConditional, List.any_eq_false]
  exact forall₂_congr fun node member => (not_not.symm.trans (not_congr (e.branches node member).symm))

/-- A constant expression has no labels. -/
theorem Expr.claims_of_constant {e : Expr Note} (typed : e.Typed symbols) {k : Word}
    (constant : e.note.constant = some k) : claims e.nodes = 0 := by
  match e, typed, constant with
  | .int _ _, _, _ | .bool _ _, _, _ | .char _ _, _, _ | .text _ _, _, _ | .ident _, _, _ => exact claims_plain rfl
  | .unary note o x, typed, constant =>
    obtain ⟨_, isConstant, _⟩ := Option.map_eq_some_iff.mp (typed.2.2.2.symm.trans constant)
    rw [Expr.nodes, claims_plain rfl, Expr.claims_of_constant typed.1 isConstant]
  | .binary note o x y, typed, constant =>
    obtain ⟨a, isA, rest⟩ := Option.bind_eq_some_iff.mp (typed.2.2.2.2.2.symm.trans constant)
    obtain ⟨b, isB, _⟩ := Option.bind_eq_some_iff.mp rest
    rw [Expr.nodes, claims_plain rfl, claims_append, Expr.claims_of_constant typed.1 isA,
      Expr.claims_of_constant typed.2.1 isB, add_zero]
  | .cond _ _ _, typed, constant => cases typed.2.2.2.2.2.symm.trans constant
  | .call _ _ _, typed, constant => cases typed.2.2.symm.trans constant
  | .index _ _ _, typed, constant => cases typed.2.2.2.2.2.2.symm.trans constant
  | .deref _ _, typed, constant | .ref _ _, typed, constant => cases typed.2.2.2.symm.trans constant

/-! ## Declarations -/

mutual

/-- The declarations of a statement and of its parts. -/
def Stmt.declarations : Stmt α → List (Declaration α)
  | .declare _ decls => decls
  | .proc _ _ _ _ body | .loop _ _ _ body => Stmt.listDeclarations body
  | .branch _ arms otherwise => Stmt.armDeclarations arms ++ Stmt.elseDeclarations otherwise
  | .synonym _ _ | .modes _ _ | .assign _ _ _ _ | .call _ _ _ _ | .ret _ _ | .result _ _ => []

/-- The declarations of statements. -/
def Stmt.listDeclarations : List (Stmt α) → List (Declaration α)
  | [] => []
  | s :: rest => s.declarations ++ Stmt.listDeclarations rest

/-- The declarations of an optional body. -/
def Stmt.elseDeclarations : Option (List (Stmt α)) → List (Declaration α)
  | none => []
  | some body => Stmt.listDeclarations body

/-- The declarations of the arms of an `if` chain. -/
def Stmt.armDeclarations : List (CondBranch α) → List (Declaration α)
  | [] => []
  | .mk _ _ body :: rest => Stmt.listDeclarations body ++ Stmt.armDeclarations rest

end

/-- The declarations of a program. -/
def Program.declarations (p : Program α) : List (Declaration α) := Stmt.listDeclarations p.stmts

/-- Whether a declaration initializes several names by an expression with a conditional part. -/
def Declaration.repeatsLabels (d : Declaration α) : Bool := 1 < d.names.length && d.init.any Expr.hasConditional

mutual

theorem Stmt.declarations_map (f : α → β) :
    ∀ s : Stmt α, (s.map f).declarations = s.declarations.map (Declaration.map f)
  | .declare _ _ | .synonym _ _ | .modes _ _ | .assign _ _ _ _ | .call _ _ _ _ | .ret _ _ | .result _ _ => rfl
  | .proc _ _ _ _ body | .loop _ _ _ body => Stmt.listDeclarations_map f body
  | .branch _ arms otherwise => by
    rw [Stmt.map, Stmt.declarations, Stmt.declarations, List.map_append, Stmt.armDeclarations_map,
      Stmt.elseDeclarations_map]

theorem Stmt.listDeclarations_map (f : α → β) :
    ∀ ss : List (Stmt α), Stmt.listDeclarations (Stmt.mapList f ss) = (Stmt.listDeclarations ss).map (Declaration.map f)
  | [] => rfl
  | s :: rest => by
    rw [Stmt.mapList, Stmt.listDeclarations, Stmt.listDeclarations, List.map_append, Stmt.declarations_map,
      Stmt.listDeclarations_map]

theorem Stmt.elseDeclarations_map (f : α → β) : ∀ body : Option (List (Stmt α)),
    Stmt.elseDeclarations (Stmt.mapElse f body) = (Stmt.elseDeclarations body).map (Declaration.map f)
  | none => rfl
  | some body => Stmt.listDeclarations_map f body

theorem Stmt.armDeclarations_map (f : α → β) : ∀ arms : List (CondBranch α),
    Stmt.armDeclarations (Stmt.mapArms f arms) = (Stmt.armDeclarations arms).map (Declaration.map f)
  | [] => rfl
  | .mk _ _ body :: rest => by
    rw [Stmt.mapArms, Stmt.armDeclarations, Stmt.armDeclarations, List.map_append, Stmt.listDeclarations_map,
      Stmt.armDeclarations_map]

end

theorem Declaration.repeatsLabels_map (f : α → β) (d : Declaration α) :
    (d.map f).repeatsLabels = d.repeatsLabels := by
  unfold Declaration.repeatsLabels Declaration.map
  cases d.init with
  | none => simp
  | some e => simp [Expr.hasConditional_map]

end Ast

end LyaLang
