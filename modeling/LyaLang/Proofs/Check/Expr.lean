import LyaLang.Proofs.Check.Outcome
import LyaLang.Proofs.Check.Typed
import LyaLang.Proofs.Tree.Labels

/-! # Checked expressions are typed

Checking an expression leaves its shape, its labels and the scopes alone. It is valid exactly if the
check was silent, and without an issue it is typed under the visible symbols. The lemmas follow the
functions of the checker one by one; each says what a check tells of its result.
-/

namespace LyaLang.Ast

open Check

variable {s t : CheckState}

variable {symbols : List Symbol}

/-! ## Notes that change nothing -/

@[simp] theorem Expr.markUsage_type (usage : Usage) (e : Expr Note) : (e.markUsage usage).type = e.type := by
  cases e <;> rfl

@[simp] theorem Expr.markUsage_mode (usage : Usage) (e : Expr Note) : (e.markUsage usage).note.mode = e.note.mode := by
  cases e <;> rfl

@[simp] theorem Expr.markUsage_isLocation (usage : Usage) (e : Expr Note) :
    (e.markUsage usage).isLocation = e.isLocation := by
  cases e <;> rfl

@[simp] theorem Expr.markUsage_typed (usage : Usage) (symbols : List Symbol) (e : Expr Note) :
    (e.markUsage usage).Typed symbols ↔ e.Typed symbols := by
  cases e <;> rfl

@[simp] theorem Expr.markUsage_origin (usage : Usage) (e : Expr Note) :
    (e.markUsage usage).map Note.origin = e.map Note.origin := by
  cases e <;> rfl

/-- An expression before and after a check, which may have marked how its name is used. -/
def Marked (a a' : Expr Note) : Prop := a' = a ∨ ∃ usage, usage ≠ .declaration ∧ a' = a.markUsage usage

namespace Marked

variable {a a' : Expr Note} {args args' : List (Expr Note)} {ns : List (Node Note)} {v : Bool} {P : List Symbol → Prop}

theorem refl (a : Expr Note) : Marked a a := .inl rfl

theorem mark {usage : Usage} (other : usage ≠ .declaration) : Marked a (a.markUsage usage) := .inr ⟨usage, other, rfl⟩

theorem facts (marked : Marked a a') :
    a'.type = a.type ∧ a'.note.mode = a.note.mode ∧ a'.isLocation = a.isLocation ∧
      a'.map Note.origin = a.map Note.origin ∧ (∀ symbols, a'.Typed symbols ↔ a.Typed symbols) := by
  rcases marked with rfl | ⟨usage, _, rfl⟩
  · simp
  · simp

/-- Marking how a name is used leaves its verdict and what it denotes alone. -/
theorem nodes (marked : Marked a a') :
    ((∀ n ∈ a'.nodes, n.Faithful) ↔ ∀ n ∈ a.nodes, n.Faithful) ∧ (Silent a'.nodes ↔ Silent a.nodes) ∧
      ∀ e, (∀ n ∈ a.nodes, n.Resolves e) → ∀ n ∈ a'.nodes, n.Resolves e := by
  rcases marked with rfl | ⟨usage, other, rfl⟩
  · exact ⟨Iff.rfl, Iff.rfl, fun _ => id⟩
  · cases a with
    | ident id =>
      simp only [Expr.markUsage, Node.Faithful, Silent, Expr.nodes, Node.subtree, List.forall_mem_singleton, Node.note,
        true_and]
      exact fun e resolves symbol isSymbol => ⟨fun same => other (Option.some.inj same), (resolves symbol isSymbol).2⟩
    | _ => exact ⟨Iff.rfl, Iff.rfl, fun _ => id⟩

theorem listNodes (marked : List.Forall₂ Marked args args') :
    ((∀ n ∈ Expr.listNodes args', n.Faithful) ↔ ∀ n ∈ Expr.listNodes args, n.Faithful) ∧
      (Silent (Expr.listNodes args') ↔ Silent (Expr.listNodes args)) ∧
      ∀ e, (∀ n ∈ Expr.listNodes args, n.Resolves e) → ∀ n ∈ Expr.listNodes args', n.Resolves e := by
  induction marked with
  | nil => exact ⟨Iff.rfl, Iff.rfl, fun _ => id⟩
  | cons first _ ih =>
    simp only [Expr.listNodes, Silent, List.forall_mem_append] at ih ⊢
    exact ⟨and_congr first.nodes.1 ih.1, and_congr first.nodes.2.1 ih.2.1, fun e => .imp (first.nodes.2.2 e) (ih.2.2 e)⟩

theorem passed (marked : Marked a a') (passed : Passed s t a.nodes v P) : Passed s t a'.nodes v P :=
  { passed with
    settled := ⟨marked.nodes.1.mpr passed.settled.1, passed.settled.2.trans marked.nodes.2.1.symm⟩
    resolved := marked.nodes.2.2 _ passed.resolved }

theorem passedList (marked : List.Forall₂ Marked args args') (passed : Passed s t (Expr.listNodes args) v P) :
    Passed s t (Expr.listNodes args') v P :=
  have nodes := listNodes marked
  { passed with
    settled := ⟨nodes.1.mpr passed.settled.1, passed.settled.2.trans nodes.2.1.symm⟩
    resolved := nodes.2.2 _ passed.resolved }

theorem mapList_origin (marked : List.Forall₂ Marked args args') :
    Expr.mapList Note.origin args' = Expr.mapList Note.origin args := by
  induction marked with
  | nil => rfl
  | cons head _ ih => rw [Expr.mapList, Expr.mapList, head.facts.2.2.2.1, ih]

theorem typedList (marked : List.Forall₂ Marked args args') (typed : Expr.TypedList symbols args) :
    Expr.TypedList symbols args' := by
  induction marked with
  | nil => exact typed
  | cons head _ ih => exact ⟨(head.facts.2.2.2.2 symbols).mpr typed.1, ih typed.2⟩

theorem same (args : List (Expr Note)) : List.Forall₂ Marked args args := List.forall₂_same.mpr fun a _ => .refl a

theorem forall_mem {P : Expr Note → Prop} (keeps : ∀ a a', Marked a a' → P a → P a')
    (marked : List.Forall₂ Marked args args') (all : ∀ a ∈ args, P a) : ∀ a ∈ args', P a := by
  induction marked with
  | nil => exact all
  | cons head _ ih =>
    obtain ⟨first, others⟩ := List.forall_mem_cons.mp all
    exact List.forall_mem_cons.mpr ⟨keeps _ _ head first, ih others⟩

theorem params_take {params : List Parameter} (marked : List.Forall₂ Marked args args')
    (takes : List.Forall₂ Parameter.Takes params args) : List.Forall₂ Parameter.Takes params args' := by
  induction takes generalizing args' with
  | nil =>
    cases marked
    exact .nil
  | cons takes _ ih =>
    cases marked with
    | cons head tail =>
      obtain ⟨type, mode, location, _⟩ := head.facts
      obtain ⟨m, isMode, sameType, byLocation⟩ := takes
      refine .cons ⟨m, isMode, type.trans sameType, ?_⟩ (ih tail)
      rw [Expr.IsLocationOf, mode, location]
      exact byLocation

/-- What a procedure takes does not depend on how the names in its arguments are used. -/
theorem takes {proc : Procedure} (marked : List.Forall₂ Marked args args') (takes : proc.Takes args) :
    proc.Takes args' := by
  unfold Procedure.Takes at takes ⊢
  cases builtin : proc.builtin with
  | none =>
    rw [builtin] at takes
    exact params_take marked takes
  | some builtin' =>
    rw [builtin] at takes
    cases builtin' with
    | read =>
      refine forall_mem (fun a a' head readable => ?_) marked takes
      obtain ⟨type, _, location, _⟩ := head.facts
      simpa [Readable, type, location] using readable
    | print =>
      refine forall_mem (fun a a' head printable => ?_) marked takes
      obtain ⟨type, _, location, _⟩ := head.facts
      simpa [Printable, type, location] using printable
    | operation op accepts =>
      obtain ⟨a, rfl, accepted⟩ := takes
      cases marked with
      | cons head tail =>
        cases tail
        exact ⟨_, rfl, by rw [head.facts.1]; exact accepted⟩

end Marked

/-! ## The parts of the checker -/

/-- A name that is found denotes the first visible symbol under it. -/
theorem visible_of_lookup {name : Bytes} {symbol : Symbol} (found : s.context.environment.lookup? name = some symbol)
    (good : s.context.environment.Good) : findSymbol s.context.environment.visible name = some symbol :=
  (good.find _).symm.trans found

theorem resolves_of_lookup {i : Ident Note} {symbol : Symbol} (found : s.context.environment.lookup? i.name = some symbol)
    {note : Note} {usage : Usage} (isSymbol : note.symbol = some symbol) (isUsage : note.usage = some usage)
    (used : usage ≠ .declaration) : Ident.Resolves s.context.environment ⟨note, i.name⟩ := by
  intro symbol' same
  cases isSymbol.symm.trans same
  exact ⟨isUsage ▸ fun same => used (Option.some.inj same), found⟩

theorem checkIdent_tells (i : Ident Origin) :
    Tells (checkIdent (i.map Origin.note)) s
      (fun id => id.map Note.origin = i ∧ id.Resolves s.context.environment) fun id => (Expr.ident id).Typed := by
  refine .environment ?_
  split
  case h_1 => exact .report ⟨rfl, Ident.resolves_of_none rfl⟩
  case h_2 symbol found =>
    have resolves : ∀ {note : Note}, note.symbol = some symbol → note.usage = some .value →
        Ident.Resolves s.context.environment ⟨note, i.name⟩ := fun isSymbol isUsage =>
      resolves_of_lookup found isSymbol isUsage (by decide)
    split
    case h_1 | h_2 => exact .report ⟨rfl, resolves rfl rfl⟩
    case h_3 category =>
      refine .known ⟨rfl, resolves rfl rfl⟩ fun good => ⟨symbol, visible_of_lookup found good, rfl, ?_, rfl, ?_⟩
      · simp [Symbol.IsValue, category]
      · simp [Symbol.constant?, category]
    case h_4 notMode notProcedure notSynonym =>
      refine .known ⟨rfl, resolves rfl rfl⟩ fun good => ⟨symbol, visible_of_lookup found good, rfl, ?_, rfl, ?_⟩
      · exact ⟨notMode, notProcedure⟩
      · exact (if_neg notSynonym).symm

theorem checkUnary_tells (o : Origin) (op : UnaryOp) (x : Expr Note) :
    Tells (checkUnary o.note op x) s (·.origin = o) fun note _ => HasMode x.note →
      op.definedOn x.type = true ∧ note.mode = Mode.ofScalar? x.type ∧
        note.constant = x.note.constant.map op.fold := by
  refine .ite (fun unknown => .pure rfl fun _ _ hasMode => ?_) fun _ => ?_
  · simp [Expr.type, hasMode.type_isKnown] at unknown
  · exact .ite (fun _ => .report rfl) fun defined => .pure rfl fun _ _ _ => ⟨by simpa using defined, rfl, rfl⟩

theorem checkBinary_tells (o : Origin) (op : BinaryOp) (x y : Expr Note) :
    Tells (checkBinary o.note op x y) s (·.origin = o) fun note _ => HasMode x.note → HasMode y.note →
      y.type = x.type ∧ op.definedOn x.type = true ∧
        note.mode = (if op.isRelational then some .bool else Mode.ofScalar? x.type) ∧
        note.constant = x.note.constant.bind fun a => y.note.constant.bind fun b => op.fold? a b := by
  refine .ite (fun unknown => .pure rfl fun _ _ hasMode hasMode' => ?_) fun known => ?_
  · simp [Expr.type, hasMode.type_isKnown, hasMode'.type_isKnown] at unknown
  have known : x.type.isKnown = true ∧ y.type.isKnown = true := by simpa using known
  refine (Tells.expect _ _ _).after fun b t _ => .ite (fun bad => .pure rfl fun _ _ agree => ?_) fun _ => ?_
  · simp [agree.1] at bad
  · refine .ite (fun _ => .report rfl) fun defined => .pure rfl fun _ _ agree _ _ => ?_
    exact ⟨agree.2 known.1 known.2, by simpa using defined, rfl, rfl⟩

/-- Arms whose values are each expected to be of one type. -/
private theorem expectArms_tells (want : ValueType) (branches : List (CondValue Note)) :
    Tells (forIn branches PUnit.unit fun arm _ => do
      let _ ← expect arm.value.line want arm.value.type
      pure (ForInStep.yield PUnit.unit)) s (fun _ => True) fun _ _ =>
        ∀ arm ∈ branches, want.isKnown = true → arm.value.type.isKnown = true → arm.value.type = want := by
  induction branches generalizing s with
  | nil => exact .pure trivial fun _ _ => List.forall_mem_nil _
  | cons arm rest ih =>
    rw [List.forIn_cons]
    have first : Tells (do
        let _ ← expect arm.value.line want arm.value.type
        pure (ForInStep.yield PUnit.unit)) s (· = .yield PUnit.unit) fun _ _ =>
          want.isKnown = true → arm.value.type.isKnown = true → arm.value.type = want :=
      (Tells.expect _ _ _).after fun _ _ _ => .pure rfl fun _ _ agree => agree.2
    refine first.after ?_
    rintro _ t rfl
    exact ih.imp fun _ _ done => ⟨trivial, done.2.imp fun _ _ others first => List.forall_mem_cons.mpr ⟨first, others⟩⟩

theorem checkCond_tells (o : Origin) (branches : List (CondValue Note)) (otherwise : Expr Note) :
    Tells (checkCond o.note branches otherwise) s (·.origin = o) fun note _ =>
      (∀ arm ∈ branches, HasMode arm.value.note) → HasMode otherwise.note →
      (∀ arm ∈ branches, arm.value.type = otherwise.type) ∧ otherwise.type.isArray = false ∧ otherwise.type ≠ .void ∧
        note.mode = (if otherwise.type = .string then some .string else otherwise.note.mode) ∧
        note.constant = none := by
  refine (expectArms_tells _ branches).after fun _ t _ => .ite (fun unknown => ?_) fun _ => ?_
  · refine .pure rfl fun _ _ _ _ hasMode => ?_
    simp [Expr.type, hasMode.type_isKnown] at unknown
  · refine .ite (fun _ => .report rfl) fun plain => .pure rfl fun _ _ agree hasModes hasMode => ?_
    have plain : otherwise.type.isArray = false ∧ otherwise.type ≠ .void := by simpa using plain
    refine ⟨fun arm member => ?_, plain.1, plain.2, by simp, rfl⟩
    exact agree arm member hasMode.type_isKnown (hasModes arm member).type_isKnown

theorem checkRead_tells (a : Expr Note) : Tells (checkRead a) s (Marked a) fun _ _ => Readable a := by
  refine .ite (fun _ => .report (.refl a)) fun location => .ite (fun _ => .report (.refl a)) fun plain => ?_
  have plain : (a.type.isKnown = true ∧ a.type.isArray = false) ∧ a.type.isReference = false := by simpa using plain
  exact .pure (.mark nofun) fun _ _ => ⟨by simpa using location, plain.1.2, plain.2⟩

theorem checkPrint_tells (a : Expr Note) : Tells (checkPrint a) s (fun _ => True) fun _ _ => Printable a := by
  refine .ite (fun _ => .reports) fun plain => ?_
  have notVoid : a.type ≠ .void := fun void => plain (by simp [void])
  refine .ite (fun array => .ite (fun _ => .reports) fun inner => .ite (fun _ => .reports) fun location => ?_) fun array => ?_
  · exact .pure trivial fun _ _ => ⟨notVoid, fun _ => ⟨by simpa using inner, by simpa using location⟩⟩
  · exact .pure trivial fun _ _ => ⟨notVoid, fun isArray => absurd isArray array⟩

theorem checkOperand_tells (accepts : List ValueType) (a : Expr Note) :
    Tells (checkOperand accepts a) s (fun _ => True) fun _ _ => a.type ∈ accepts :=
  .ite (fun _ => .reports) fun accepted => .pure trivial fun _ _ => by simpa using accepted

theorem checkArgument_tells (position : Nat) (p : Parameter) (a : Expr Note) :
    Tells (checkArgument position p a) s (Marked a) fun _ _ => p.Good → HasMode a.note → p.Takes a := by
  unfold checkArgument
  split
  case h_1 mode =>
    refine .pure (.refl a) fun _ _ good => ?_
    obtain ⟨m, isMode, _⟩ := good
    cases mode.symm.trans isMode
  case h_2 want mode =>
    refine (Tells.expect _ _ _).after fun b t _ => .ite (fun bad => .pure (.refl a) fun _ _ agree => ?_) fun _ => ?_
    · simp [agree.1] at bad
    refine .ite (fun byValue => .pure (.refl a) fun _ _ agree _ hasMode => ⟨want, mode, ?_, ?_⟩) fun _ => ?_
    · exact agree.2 want.type_isKnown hasMode.type_isKnown
    · intro byLocation
      simp [byLocation] at byValue
    refine .ite (fun _ => .report (.refl a)) fun location => ?_
    refine (Tells.sameSize _ _ _).after fun _ u _ => .pure (.mark nofun) fun _ _ size agree _ hasMode => ?_
    refine ⟨want, mode, agree.2 want.type_isKnown hasMode.type_isKnown, fun _ => ?_⟩
    obtain ⟨m, isMode, _⟩ := hasMode
    exact ⟨by simpa using location, m, isMode, size _ _ rfl isMode⟩

theorem checkArguments_tells (position : Nat) (params : List Parameter) (args : List (Expr Note)) :
    Tells (checkArguments position params args) s (List.Forall₂ Marked args) fun _ _ =>
      params.length = args.length → (∀ p ∈ params, p.Good) → (∀ a ∈ args, HasMode a.note) →
        List.Forall₂ Parameter.Takes params args := by
  induction params generalizing position args s with
  | nil =>
    refine .pure (Marked.same args) fun _ _ length _ _ => ?_
    cases List.length_eq_zero_iff.mp length.symm
    exact .nil
  | cons p rest ih =>
    cases args with
    | nil => exact .pure .nil fun _ _ length => by cases length
    | cons a args =>
      refine (checkArgument_tells position p a).after fun a' t marked => (ih _ args).after fun args' u markeds => ?_
      refine .pure (.cons marked markeds) fun _ _ others first length goods hasModes => ?_
      obtain ⟨good, goods⟩ := List.forall_mem_cons.mp goods
      obtain ⟨hasMode, hasModes⟩ := List.forall_mem_cons.mp hasModes
      exact .cons (first good hasMode) (others (Nat.succ.inj length) goods hasModes)

private theorem checkReads_tells (args : List (Expr Note)) :
    Tells (args.mapM checkRead) s (List.Forall₂ Marked args) fun _ _ => ∀ a ∈ args, Readable a := by
  induction args generalizing s with
  | nil => exact .pure .nil fun _ _ => List.forall_mem_nil _
  | cons a rest ih =>
    rw [List.mapM_cons]
    refine (checkRead_tells a).after fun a' t marked => ih.after fun args' u markeds => ?_
    exact .pure (.cons marked markeds) fun _ _ others first => List.forall_mem_cons.mpr ⟨first, others⟩

private theorem checkPrints_tells (args : List (Expr Note)) :
    Tells (args.forM checkPrint) s (fun _ => True) fun _ _ => ∀ a ∈ args, Printable a := by
  induction args generalizing s with
  | nil => exact .pure trivial fun _ _ => List.forall_mem_nil _
  | cons a rest ih =>
    refine (checkPrint_tells a).after fun _ t _ => ih.imp fun _ u done => ⟨trivial, done.2.imp fun _ _ others first => ?_⟩
    exact List.forall_mem_cons.mpr ⟨first, others⟩

/-- The arguments of a procedure stop the check only if there are none where one is needed. -/
theorem checkCallArguments_tells {proc : Procedure} {args : List (Expr Note)}
    (arity : proc.arity = .any ∨ proc.arity = .exactly args.length) (fine : s.issues = [] → proc.Good) :
    Tells (checkCallArguments proc args) s (List.Forall₂ Marked args) fun args' _ => proc.Good →
      (∀ a ∈ args, HasMode a.note) → proc.Takes args' := by
  unfold checkCallArguments
  split
  case h_1 builtin =>
    refine (checkReads_tells args).imp fun args' t done => ⟨done.1, done.2.imp fun _ _ sound _ _ => Marked.takes done.1 ?_⟩
    simp only [Procedure.Takes, builtin]
    exact sound
  case h_2 builtin =>
    refine (checkPrints_tells args).after fun _ t _ => .pure (Marked.same args) fun _ _ sound _ _ => ?_
    simp only [Procedure.Takes, builtin]
    exact sound
  case h_3 op accepts builtin =>
    cases args with
    | nil =>
      refine Yields.throw fun clean => ?_
      rw [(fine clean).arity_of_operation builtin] at arity
      simp at arity
    | cons a rest =>
      refine (checkOperand_tells accepts a).after fun _ t _ => .pure (Marked.same _) fun _ _ sound good _ => ?_
      have one : rest = [] := by
        rw [good.arity_of_operation builtin] at arity
        simpa using arity
      subst one
      simp only [Procedure.Takes, builtin]
      exact ⟨a, rfl, sound⟩
  case h_4 builtin =>
    refine (checkArguments_tells 1 proc.params args).imp fun args' t done =>
      ⟨done.1, done.2.imp fun _ _ sound good hasModes => Marked.takes done.1 ?_⟩
    obtain ⟨_, rest⟩ := good
    rw [builtin] at rest
    obtain ⟨exact', goods, _⟩ := rest
    have length : proc.params.length = args.length := by
      rcases arity with any | exactly
      · rw [any] at exact'
        cases exact'
      · rw [exactly] at exact'
        exact (Arity.exactly.inj exact').symm
    simp only [Procedure.Takes, builtin]
    exact sound length goods hasModes

/-- What is known of a checked call without regard to the visible symbols. -/
structure CallShape (e : Environment) (o : Origin) (i : Ident Origin) (args : List (Expr Note)) (c : CheckedCall) : Prop where
  valid : c.valid = args.all (·.isValid)
  note : c.note.origin = o
  callee : c.callee.map Note.origin = i
  unjudged : c.callee.note.verdict = none
  resolves : c.callee.Resolves e
  args : List.Forall₂ Marked args c.args

theorem checkCall_tells (o : Origin) (i : Ident Origin) (args : List (Expr Note)) :
    Tells (checkCall o.note (i.map Origin.note) args) s (CallShape s.context.environment o i args) fun c symbols =>
      c.valid = true → (∀ a ∈ args, HasMode a.note) →
        CallTyped symbols c.callee c.args c.note.mode ∧ c.note.constant = none := by
  refine .environment ?_
  split
  case h_1 => exact .report ⟨rfl, rfl, rfl, rfl, Ident.resolves_of_none rfl, Marked.same args⟩
  case h_2 symbol found =>
    have resolves : ((i.map Origin.note).resolve symbol .value).Resolves s.context.environment :=
      resolves_of_lookup found rfl rfl (by decide)
    split
    case h_1 proc category isProc =>
      refine .ite (fun _ => .report ⟨rfl, rfl, rfl, rfl, resolves, Marked.same args⟩) fun arity => ?_
      have arity : proc.arity = .any ∨ proc.arity = .exactly args.length := by
        by_cases any : proc.arity = .any
        · exact .inl any
        · exact .inr (by simpa [any] using arity)
      have fine (good : s.context.environment.Good) : proc.Good :=
        ((good.symbols symbol (findSymbol_some (visible_of_lookup found good)).1).proc category isProc).1
      refine .ite (fun invalid => .pure ⟨rfl, rfl, rfl, rfl, resolves, Marked.same args⟩ fun _ _ valid => ?_) fun _ => ?_
      · simp [show args.all (·.isValid) = true from valid] at invalid
      · intro fit
        refine (checkCallArguments_tells arity fun clean => fine (fit clean).scopes).bind (fun args' t marked passed => ?_) fit
        refine .pure ⟨⟨rfl, rfl, rfl, rfl, resolves, marked⟩, { passed with sound := fun clean _ hasModes => ⟨?_, rfl⟩ }⟩
        have good := (fit (passed.adds.clean clean).1).scopes
        exact ⟨symbol, proc, visible_of_lookup found good, rfl, category, isProc, passed.sound clean (fine good) hasModes, rfl⟩
    case h_2 => exact .report ⟨rfl, rfl, rfl, rfl, resolves, Marked.same args⟩

theorem checkIndexing_tells (mode : Option Mode) (indexes : List (Expr Note)) :
    Tells (checkIndexing mode indexes) s (fun _ => True) fun r _ => ∀ m, mode = some m → m.Proper →
      ∃ r', r = some (some r') ∧ m.indexed? indexes.length = some r' := by
  induction indexes generalizing mode s with
  | nil => exact .pure trivial fun _ _ m isMode _ => ⟨m, congrArg some isMode, rfl⟩
  | cons i rest ih =>
    rw [checkIndexing]
    refine .ite (fun array => (ih _).imp fun r t done => ⟨trivial, done.2.imp fun _ _ sound m isMode proper => ?_⟩)
      fun array => .ite (fun text => (ih _).imp fun r t done => ⟨trivial, done.2.imp fun _ _ sound m isMode _ => ?_⟩)
      fun _ => .report trivial
    · subst isMode
      have array : m.isArray = true := array
      obtain ⟨elem, element, properElem, _⟩ := proper.elem_of_isArray array
      simpa [Mode.indexed?, array, element] using sound elem element properElem
    · subst isMode
      have array : m.isArray = false := by simpa [Mode.optionIsArray] using array
      have text : m.isString = true := text
      simpa [Mode.indexed?, array, text] using sound .char rfl trivial

theorem checkIndex_tells (o : Origin) (x : Expr Note) (indexes : List (Expr Note)) :
    Tells (checkIndex o.note x indexes) s (·.origin = o) fun note _ => HasMode x.note →
      x.isLocation = true ∧ note.mode = x.note.mode.bind (·.indexed? indexes.length) ∧ note.mode.isSome = true ∧
        note.constant = none := by
  refine .ite (fun missing => .pure rfl fun _ _ hasMode => ?_) fun _ => .ite (fun _ => .report rfl) fun location => ?_
  · obtain ⟨m, mode, _⟩ := hasMode
    simp [mode] at missing
  refine (checkIndexing_tells _ indexes).after fun r t _ => ?_
  cases r with
  | none =>
    refine .pure rfl fun _ _ sound hasMode => ?_
    obtain ⟨m, mode, proper, _⟩ := hasMode
    obtain ⟨r', impossible, _⟩ := sound m mode proper
    cases impossible
  | some mode' =>
    refine .pure rfl fun _ _ sound hasMode => ?_
    obtain ⟨m, mode, proper, _⟩ := hasMode
    obtain ⟨r', result, indexed⟩ := sound m mode proper
    cases result
    refine ⟨by simpa using location, ?_, rfl, rfl⟩
    rw [mode, Option.bind_some, indexed]

theorem checkDeref_tells (o : Origin) (x : Expr Note) :
    Tells (checkDeref o.note x) s (·.origin = o) fun note _ => HasMode x.note →
      x.type.isReference = true ∧ note.mode = x.note.mode.bind Mode.elem? ∧ note.constant = none := by
  unfold checkDeref
  split
  case h_1 mode =>
    refine .pure rfl fun _ _ hasMode => ?_
    obtain ⟨m, isMode, _⟩ := hasMode
    cases mode.symm.trans isMode
  case h_2 m mode =>
    refine .ite (fun _ => .report rfl) fun reference => .pure rfl fun _ _ _ => ⟨?_, by rw [mode]; rfl, rfl⟩
    rw [Expr.type, type_of_mode mode]
    simpa using reference

theorem checkRef_tells (o : Origin) (x : Expr Note) :
    Tells (checkRef o.note x) s (fun r => r.1.origin = o ∧ Marked x r.2) fun r _ => HasMode x.note →
      x.isLocation = true ∧ r.1.mode = x.note.mode.map .ref ∧ r.1.constant = none := by
  unfold checkRef
  split
  case h_1 mode =>
    refine .pure ⟨rfl, .refl x⟩ fun _ _ hasMode => ?_
    obtain ⟨m, isMode, _⟩ := hasMode
    cases mode.symm.trans isMode
  case h_2 m mode =>
    refine .ite (fun _ => .report ⟨rfl, .refl x⟩) fun location => .pure ⟨rfl, .mark nofun⟩ fun _ _ _ => ?_
    exact ⟨by simpa using location, by rw [mode]; rfl, rfl⟩

theorem expectType_tells {want : ValueType} (known : want.isKnown = true) (e : Expr Note) :
    Tells (expectType want e) s (fun _ => True) fun _ _ => e.isValid = true → HasMode e.note → e.type = want :=
  .ite (fun _ => (Tells.expect _ _ _).after fun _ _ _ => .pure trivial fun _ _ agree _ hasMode =>
      agree.2 known hasMode.type_isKnown)
    fun invalid => .pure trivial fun _ _ valid => absurd valid invalid

/-! ## Expressions -/

theorem hasModes_of_typedList (good : ∀ x ∈ symbols, x.Good) {es : List (Expr Note)}
    (typed : Expr.TypedList symbols es) : ∀ e ∈ es, HasMode e.note :=
  fun e member => (Expr.typedList_iff.mp typed e member).hasMode good

/-- What a silent check of the arms of a conditional establishes, before their values are compared. -/
def ArmsTyped (symbols : List Symbol) (arms : List (CondValue Note)) : Prop :=
  ∀ arm ∈ arms, arm.cond.Typed symbols ∧ arm.cond.type = .bool ∧ arm.value.Typed symbols

theorem ArmsTyped.typedArms {type : ValueType} {arms : List (CondValue Note)}
    (typed : ArmsTyped symbols arms) (types : ∀ arm ∈ arms, arm.value.type = type) :
    Expr.TypedArms symbols type arms := by
  induction arms with
  | nil => trivial
  | cons arm rest ih =>
    obtain ⟨⟨test, bool, value⟩, others⟩ := List.forall_mem_cons.mp typed
    obtain ⟨same, sames⟩ := List.forall_mem_cons.mp types
    cases arm
    exact ⟨test, bool, value, same, ih others sames⟩

theorem rooted_expr : Rooted Expr.nodes (Expr.map Note.origin) fun e symbols => e.Typed symbols where
  root e := by
    cases e with
    | ident id => exact ⟨.ident id, rfl, rfl, rfl⟩
    | _ => exact ⟨_, rfl, rfl, rfl⟩
  tail note e := by cases e <;> rfl
  note note e := by cases e <;> rfl
  kept verdict env e := by cases e <;> exact ⟨rfl, rfl, rfl⟩

/-- An expression whose type has been checked as well. -/
theorem typed_of_expected {want : ValueType} {e : Expr Note} {u : CheckState}
    (passed : Passed s t e.nodes e.isValid fun symbols => e.Typed symbols)
    (next : Passed t u [] true fun _ => e.isValid = true → HasMode e.note → e.type = want) :
    Passed s u e.nodes e.isValid fun symbols => e.Typed symbols ∧ e.type = want := by
  refine (passed.followed next).knowing.imp fun _ goods known => ?_
  obtain ⟨valid, _, typed, agree⟩ := known
  exact ⟨typed, agree valid (typed.hasMode goods)⟩

mutual

/-- Checking an expression. -/
theorem Expr.check_yields : ∀ (tree : Expr Origin) {s : CheckState},
    Yields (tree.map Origin.note).check s fun e t =>
      e.map Note.origin = tree ∧ Passed s t e.nodes e.isValid fun symbols => e.Typed symbols
  | .int o value, s | .bool o value, s | .char o value, s | .text o value, s =>
    rooted_expr.judged fun fit => ⟨fit, rfl, trivial, .silent fit fun _ => ⟨rfl, rfl⟩⟩
  | .ident i, s => by
    refine rooted_expr.judged ((checkIdent_tells i).bind fun id t shaped passed => .pure ?_)
    exact ⟨congrArg Expr.ident shaped.1, shaped.2, passed⟩
  | .unary o op x, s => by
    refine rooted_expr.judged ((Expr.check_yields x).bind fun x' t ⟨shape, passed⟩ => ?_)
    subst shape
    refine .ite (fun bad => .pure ⟨rfl, trivial, passed.stop bad⟩) fun good => ?_
    refine (checkUnary_tells o op x').bind fun note u origin next => .pure ⟨congrArg (Expr.unary · op _) origin, trivial, ?_⟩
    exact (passed.go good next).imp fun _ goods sound => ⟨sound.1, sound.2 (sound.1.hasMode goods)⟩
  | .binary o op x y, s => by
    refine rooted_expr.judged ((Expr.check_yields x).bind fun x' t ⟨shape, passed⟩ =>
      (Expr.check_yields y).bind fun y' t' ⟨shape', passed'⟩ => ?_)
    subst shape shape'
    have both := passed.trans passed'
    refine .ite (fun bad => .pure ⟨rfl, trivial, both.stop bad⟩) fun good => ?_
    refine (checkBinary_tells o op x' y').bind fun note u origin next =>
      .pure ⟨congrArg (Expr.binary · op _ _) origin, trivial, ?_⟩
    refine (both.go good next).imp fun _ goods sound => ?_
    obtain ⟨⟨typed, typed'⟩, rest⟩ := sound
    exact ⟨typed, typed', rest (typed.hasMode goods) (typed'.hasMode goods)⟩
  | .cond o branches otherwise, s => by
    refine rooted_expr.judged ((Expr.checkArms_yields branches).bind fun arms t ⟨shape, passed⟩ =>
      (Expr.check_yields otherwise).bind fun value t' ⟨shape', passed'⟩ => ?_)
    subst shape shape'
    have both := passed.trans passed'
    refine .ite (fun bad => .pure ⟨rfl, trivial, both.stop bad⟩) fun good => ?_
    refine (checkCond_tells o arms value).bind fun note u origin next =>
      .pure ⟨congrArg (Expr.cond · _ _) origin, trivial, ?_⟩
    refine (both.go good next).imp fun _ goods sound => ?_
    obtain ⟨⟨typed, typed'⟩, rest⟩ := sound
    obtain ⟨types, rest⟩ := rest (fun arm member => (typed arm member).2.2.hasMode goods) (typed'.hasMode goods)
    exact ⟨typed.typedArms types, typed', rest⟩
  | .call o i args, s => by
    refine rooted_expr.judged ((Expr.checkList_yields args).bind fun args' t ⟨shape, passed⟩ => ?_)
    subst shape
    refine (checkCall_tells o i args').bind fun c u call next => .pure ⟨?_, trivial, ?_⟩
    · exact congr (congr (congrArg Expr.call call.note) call.callee) (Marked.mapList_origin call.args)
    have both := ((Marked.passedList call.args passed).followed next).name call.unjudged (passed.context ▸ call.resolves)
    refine (both.valid_eq call.valid.symm).knowing.imp fun _ goods sound => ?_
    obtain ⟨valid, _, typed, rest⟩ := sound
    exact ⟨Marked.typedList call.args typed, rest valid (hasModes_of_typedList goods typed)⟩
  | .index o x indexes, s => by
    refine rooted_expr.judged ((Expr.check_yields x).bind fun x' t ⟨shape, passed⟩ =>
      (Expr.checkIndexes_yields indexes).bind fun indexes' t' ⟨shape', passed'⟩ => ?_)
    subst shape shape'
    have both := passed.trans passed'
    refine .ite (fun bad => .pure ⟨rfl, trivial, both.stop bad⟩) fun good => ?_
    refine (checkIndex_tells o x' indexes').bind fun note u origin next =>
      .pure ⟨congrArg (Expr.index · _ _) origin, trivial, ?_⟩
    refine (both.go good next).imp fun _ goods sound => ?_
    obtain ⟨⟨typed, typed', ints⟩, rest⟩ := sound
    obtain ⟨location, rest⟩ := rest (typed.hasMode goods)
    exact ⟨typed, location, typed', ints, rest⟩
  | .deref o x, s => by
    refine rooted_expr.judged ((Expr.check_yields x).bind fun x' t ⟨shape, passed⟩ => ?_)
    subst shape
    refine .ite (fun bad => .pure ⟨rfl, trivial, passed.stop bad⟩) fun good => ?_
    refine (checkDeref_tells o x').bind fun note u origin next => .pure ⟨congrArg (Expr.deref · _) origin, trivial, ?_⟩
    exact (passed.go good next).imp fun _ goods sound => ⟨sound.1, sound.2 (sound.1.hasMode goods)⟩
  | .ref o x, s => by
    refine rooted_expr.judged ((Expr.check_yields x).bind fun x' t ⟨shape, passed⟩ => ?_)
    subst shape
    refine .ite (fun bad => .pure ⟨rfl, trivial, passed.stop bad⟩) fun good => ?_
    refine (checkRef_tells o x').bind fun r u shaped next => .pure ?_
    obtain ⟨origin, marked⟩ := shaped
    obtain ⟨_, mode, location, same, typed⟩ := marked.facts
    refine ⟨congr (congrArg Expr.ref origin) same, trivial, ?_⟩
    refine (marked.passed (passed.go good next)).imp fun symbols goods sound => ⟨(typed symbols).mpr sound.1, ?_⟩
    rw [location, mode]
    exact sound.2 (sound.1.hasMode goods)

/-- Checking expressions. -/
theorem Expr.checkList_yields : ∀ (trees : List (Expr Origin)) {s : CheckState},
    Yields (Expr.checkList (Expr.mapList Origin.note trees)) s fun es t => Expr.mapList Note.origin es = trees ∧
      Passed s t (Expr.listNodes es) (es.all (·.isValid)) fun symbols => Expr.TypedList symbols es
  | [], s => fun fit => ⟨fit, rfl, .silent fit fun _ => trivial⟩
  | tree :: rest, s => by
    refine (Expr.check_yields tree).bind fun e t ⟨shape, passed⟩ =>
      (Expr.checkList_yields rest).bind fun es u ⟨shapes, passeds⟩ => .pure ?_
    subst shape shapes
    exact ⟨rfl, passed.trans passeds⟩

/-- Checking index expressions. -/
theorem Expr.checkIndexes_yields : ∀ (trees : List (Expr Origin)) {s : CheckState},
    Yields (Expr.checkIndexes (Expr.mapList Origin.note trees)) s fun es t => Expr.mapList Note.origin es = trees ∧
      Passed s t (Expr.listNodes es) (es.all (·.isValid)) fun symbols =>
        Expr.TypedList symbols es ∧ ∀ i ∈ es, i.type = .int
  | [], s => fun fit => ⟨fit, rfl, .silent fit fun _ => ⟨trivial, List.forall_mem_nil _⟩⟩
  | tree :: rest, s => by
    refine (Expr.check_yields tree).bind fun e t ⟨shape, passed⟩ => (expectType_tells rfl e).bind fun _ t' _ next =>
      (Expr.checkIndexes_yields rest).bind fun es u ⟨shapes, passeds⟩ => .pure ?_
    subst shape shapes
    refine ⟨rfl, ((typed_of_expected passed next).trans passeds).imp fun _ _ sound => ?_⟩
    exact ⟨⟨sound.1.1, sound.2.1⟩, List.forall_mem_cons.mpr ⟨sound.1.2, sound.2.2⟩⟩

/-- Checking the arms of a conditional expression. -/
theorem Expr.checkArms_yields : ∀ (trees : List (CondValue Origin)) {s : CheckState},
    Yields (Expr.checkArms (Expr.mapArms Origin.note trees)) s fun arms t => Expr.mapArms Note.origin arms = trees ∧
      Passed s t (Expr.armNodes arms) (arms.all fun arm => arm.cond.isValid && arm.value.isValid) fun symbols =>
        ArmsTyped symbols arms
  | [], s => fun fit => ⟨fit, rfl, .silent fit fun _ => List.forall_mem_nil _⟩
  | .mk o test value :: rest, s => by
    refine (Expr.check_yields test).bind fun test' t ⟨shape, passed⟩ => (expectType_tells rfl test').bind fun _ t₁ _ next =>
      (Expr.check_yields value).bind fun value' t₂ ⟨shape', passed'⟩ =>
      (Expr.checkArms_yields rest).bind fun arms u ⟨shapes, passeds⟩ => .pure ?_
    subst shape shape' shapes
    have all := ((typed_of_expected passed next).trans passed').trans passeds
    refine ⟨rfl, Passed.unjudged (all.imp fun _ _ sound => ?_) rfl fun _ => trivial⟩
    exact List.forall_mem_cons.mpr ⟨⟨sound.1.1.1, sound.1.1.2, sound.1.2⟩, sound.2⟩

end

end LyaLang.Ast
