import LyaLang.Proofs.Check.Action
import LyaLang.Proofs.Check.Procedure

/-! # Checked statements are sound

The check of a statement keeps its shape and labels, settles the verdicts on it and keeps track of its names.
Without an issue the statement is sound between the views before and after it. Blocks and procedures leave the
scopes around them as they were, but for the size of the frame and the procedure declared.
-/

namespace LyaLang

open Ast

variable {o : Origin} {header : CheckedHeader}

namespace Check

variable {s t u : CheckState} {v w : Bool} {ns : List (Node Note)} {P Q : Int64 → View → View → Prop}

/-! ## Blocks -/

/-- Leaving a block restores the view; what was given out in it stays part of the frame. -/
theorem Advanced.leave (advanced : Advanced (s.withScopes (s.context.environment.pushBlock none)) t P) (ready : Ready s) :
    Advanced s (t.withScopes t.context.environment.pop) (fun frame V V' => V' = V ∧ ∃ W, P frame V W) ∧
      0 ≤ t.context.environment.frameSize := by
  have left := Environment.leftBlock ready.scopes advanced.ready.scopes advanced.extends'
  have same : (t.withScopes t.context.environment.pop).view = s.view := by
    simp only [CheckState.view, CheckState.withScopes, left.visible, left.next, left.extends'.level_eq,
      Context.currentFunction?, advanced.functions]
  refine ⟨⟨⟨left.good, ?_⟩, left.extends', advanced.functions, fun frame large => ⟨same, ?_⟩⟩, ?_⟩
  · intro f around
    exact advanced.ready.function f around
  · exact ⟨_, advanced.sound frame (by rw [← left.frameSize]; exact large)⟩
  · exact advanced.ready.scopes.frameSize_nonneg

theorem fit_pushBlock (fit : Fit s) : Fit (s.withScopes (s.context.environment.pushBlock none)) :=
  fun clean => ⟨(fit clean).scopes.pushBlock none, (fit clean).function⟩

theorem Progress.leave (fit : Fit s) (progress : Progress (s.withScopes (s.context.environment.pushBlock none)) t ns v P) :
    Progress s (t.withScopes t.context.environment.pop) ns v fun frame V V' => V' = V ∧ ∃ W, P frame V W := by
  refine ⟨fit, progress.settled, fun known knows => ?_, progress.adds, fun clean => ?_⟩
  · obtain ⟨known', tracks, knows'⟩ := progress.tracked known ⟨knows.holds.pushBlock none, knows.serials⟩
    exact ⟨known', tracks, knows'.holds.pop, knows'.serials⟩
  · exact ((progress.sound clean).leave (fit (progress.adds.clean clean).1)).1

/-- A block leaves the view as it was. -/
theorem inBlock_yields {γ : Type} {check : Check γ} {R : γ → Prop} {N : γ → List (Node Note)} {B : γ → Bool}
    {S : γ → Int64 → View → View → Prop}
    (inner : Yields check (s.withScopes (s.context.environment.pushBlock none)) fun x t => R x ∧
      Progress (s.withScopes (s.context.environment.pushBlock none)) t (N x) (B x) (S x)) :
    Yields (inBlock check) s fun x t => R x ∧
      Progress s t (N x) (B x) fun frame V V' => V' = V ∧ ∃ W, S x frame V W := by
  refine .fit fun fit => .environment (.step rfl fit_pushBlock ?_)
  refine inner.bind fun x t ⟨shaped, progress⟩ => .environment (.step rfl (fun _ => (progress.leave fit).fits) ?_)
  exact .pure ⟨shaped, progress.leave fit⟩

/-! ## Procedures -/

/-- The body of a procedure starts in its open frame. -/
theorem EntersBody.ready (enters : EntersBody s t o header) :
    Ready { t with context := t.context.pushFunction header.symbol } := by
  obtain ⟨s₁, _, _, advanced, _, good, _⟩ := enters
  obtain ⟨_, isSymbol, _⟩ := advanced.sound _ (Int64.le_refl _)
  refine ⟨good, fun f around => ⟨header.procedure, ?_⟩⟩
  cases around
  rw [isSymbol]
  rfl

/-- The scopes after a procedure are those in which it was declared. -/
theorem procedure_advanced {body : List (Stmt Note)}
    (enters : EntersBody s t o header)
    (inner : Advanced { t with context := t.context.pushFunction header.symbol } u
      fun frame V V' => Stmt.SoundList frame V body V') :
    Advanced s
      { u with context := { u.context.popFunction with environment := u.context.popFunction.environment.pop } }
      fun frame V V' => Stmt.Sound frame V
        (.proc { o.note with
            symbol := some header.symbol
            frame := some u.context.popFunction.environment.frameSize } header.name header.params header.result body) V' := by
  obtain ⟨s₁, isName, isHeader, advanced, inside, good, functions, params⟩ := enters
  obtain ⟨serial, isSymbol, declared⟩ := advanced.sound _ (Int64.le_refl _)
  have popped : u.context.environment.pop = s₁.context.environment :=
    Environment.pop_of_push_extends (inside.trans inner.extends')
  have functions' : u.context.functions.tail = s₁.context.functions := by
    rw [inner.functions]
    exact functions
  have around : (u.context.functions.tail).head? = s₁.context.currentFunction? := by
    rw [functions']
    rfl
  refine ⟨⟨?_, ?_⟩, ?_, functions'.trans advanced.functions, fun frame large => ?_⟩
  · change u.context.environment.pop.Good
    rw [popped]
    exact advanced.ready.scopes
  · intro f isAround
    exact advanced.ready.function f (around.symm.trans isAround)
  · change s.context.environment.Extends u.context.environment.pop
    rw [popped]
    exact advanced.extends'
  · have view : CheckState.view { u with context :=
        { u.context.popFunction with environment := u.context.popFunction.environment.pop } } = s₁.view := by
      change View.mk u.context.environment.pop.visible u.context.environment.pop.inner.next
        u.context.environment.pop.inner.level _ = _
      rw [popped]
      exact congrArg (View.mk _ _ _) around
    rw [view]
    refine ⟨serial, header.procedure, u.context.environment.frameSize, _, u.view, declared, congrArg some isSymbol,
      isName.trans (congrArg some isSymbol), isHeader, rfl, inner.ready.scopes.frameSize_nonneg, ?_,
      inner.sound _ (Int64.le_refl _)⟩
    rw [← isSymbol]
    exact params

/-- The outcome of the check of a procedure, from those of its header and its body. -/
theorem Opens.progress {body : List (Stmt Note)} (fit : Fit s)
    (opens : Opens s t o header)
    (inner : Progress { t with context := t.context.pushFunction header.symbol } u (Stmt.listNodes body) v
      fun frame V V' => Stmt.SoundList frame V body V') :
    Progress s
      { u with context := { u.context.popFunction with environment := u.context.popFunction.environment.pop } }
      (headerNodes header ++ Stmt.listNodes body) (header.valid && v) fun frame V V' => Stmt.Sound frame V
        (.proc { o.note with
            symbol := some header.symbol
            frame := some u.context.popFunction.environment.frameSize } header.name header.params header.result body) V' := by
  refine ⟨fit, opens.settled.append inner.settled, fun known knows => ?_, opens.adds.trans inner.adds, fun clean => ?_⟩
  · obtain ⟨known₁, tracks₁, knows₁⟩ := opens.tracked known knows
    obtain ⟨known₂, tracks₂, knows₂⟩ := inner.tracked known₁ ⟨knows₁.holds, knows₁.serials⟩
    exact ⟨known₂, tracks₁.append tracks₂, knows₂.holds.pop, knows₂.serials⟩
  · exact procedure_advanced (opens.enters (inner.adds.clean clean).1) (inner.sound clean)

/-! ## Statements -/

theorem rooted_stmt : Rooted Stmt.nodes (Stmt.map Note.origin) fun st frame V V' => st.Sound frame V V' where
  root st := by cases st <;> exact ⟨_, rfl, rfl, rfl⟩
  tail _ st := by
    cases st with
    | branch note arms otherwise => cases otherwise <;> rfl
    | _ => rfl
  note _ st := by cases st <;> rfl
  kept _ _ st := by cases st <;> exact ⟨rfl, rfl, rfl⟩

theorem stmt_plain (e : Environment) (st : Stmt Note) : RootResolves e st.nodes := by cases st <;> trivial

mutual

theorem Stmt.check_yields : ∀ (tree : Stmt Origin) {s : CheckState},
    Yields (tree.map Origin.note).check s fun st t => st.map Note.origin = tree ∧
      Progress s t st.nodes st.note.isValid fun frame V V' => st.Sound frame V V'
  | .declare o decls, s => rooted_stmt.judgedProgress stmt_plain <|
    (checkEach_yields (fun tree _ => Declaration.check_yields tree) decls).bind fun _ _ ⟨shapes, progress⟩ =>
      .pure ⟨congrArg (Stmt.declare o) shapes, progress⟩
  | .synonym o defs, s => rooted_stmt.judgedProgress stmt_plain <|
    (checkEach_yields (fun tree _ => SynonymDef.check_yields tree) defs).bind fun _ _ ⟨shapes, progress⟩ =>
      .pure ⟨congrArg (Stmt.synonym o) shapes, progress⟩
  | .modes o defs, s => rooted_stmt.judgedProgress stmt_plain <|
    (checkEach_yields (fun tree _ => ModeDef.check_yields tree) defs).bind fun _ _ ⟨shapes, progress⟩ =>
      .pure ⟨congrArg (Stmt.modes o) shapes, progress⟩
  | .proc o name params spec body, s => by
    refine rooted_stmt.judgedProgress stmt_plain (.fit fun fit => (checkHeader_yields o name params spec).bind
      fun header t ⟨shape, shapes, shape', opens⟩ => .step rfl (fun _ clean => (opens.enters clean).ready) ?_)
    refine (Stmt.checkList_yields body).bind fun body' u ⟨shapes', progress⟩ => ?_
    have whole := opens.progress fit progress
    refine .step rfl (fun fit clean => ⟨(fit clean).scopes, (whole.fits clean).function⟩)
      (.environment (.environment (.step rfl (fun _ => whole.fits) (.pure ⟨?_, ?_⟩))))
    · exact congr (congr (congr (congrArg (Stmt.proc o) shape) shapes) shape') shapes'
    · exact whole.nodes_eq (by simp [headerNodes, Stmt.nodes])
  | .assign o target op value, s => by
    refine rooted_stmt.judgedProgress stmt_plain ((Expr.check_yields target).bind fun target' t₁ ⟨shape, passed⟩ =>
      (Expr.check_yields value).bind fun value' t₂ ⟨shape', passed'⟩ => ?_)
    subst shape shape'
    have both := passed.trans passed'
    refine .ite (fun bad => .pure ⟨rfl, (both.stop (Q := fun _ => False) bad).progress.imp
      fun _ _ _ _ holds => holds.2.elim⟩) fun good => ?_
    refine (checkAssign_tells _ target' op value' fun clean => ?_).bind fun marked t₃ isMarked next => .pure ⟨?_, ?_⟩
    · exact ⟨_, (passed.known (passed'.adds.clean clean).1).1, (passed.known (passed'.adds.clean clean).1).2⟩
    · exact congrArg (Stmt.assign o · op _) isMarked.facts.2.2.2.1
    · have all := ((isMarked.passed passed).trans passed').go good next
      refine all.progress.imp fun _ V V' _ holds => ?_
      obtain ⟨rfl, ⟨typed, typed'⟩, sound⟩ := holds
      exact ⟨rfl, sound typed typed'⟩
  | .branch o arms otherwise, s => by
    refine rooted_stmt.judgedProgress stmt_plain ((Stmt.checkArms_yields arms).bind fun arms' t₁ ⟨shapes, progress⟩ =>
      (Stmt.checkElse_yields otherwise).bind fun otherwise' t₂ ⟨shapes', progress'⟩ => .pure ⟨?_, ?_⟩)
    · exact congr (congrArg (Stmt.branch o) shapes) shapes'
    · refine ((progress.trans progress').imp fun _ V V' _ holds => ?_).nodes_eq ?_
      · obtain ⟨_, ⟨rfl, sound⟩, rfl, sound'⟩ := holds
        exact ⟨rfl, sound, sound'⟩
      · rw [Stmt.nodes_branch, List.tail_cons]
  | .loop o control whilst body, s => by
    refine rooted_stmt.judgedProgress stmt_plain ((inBlock_yields
      (S := fun x frame V _ => x.2.Sound frame V V) ?_).imp
        fun x t ⟨shape, progress⟩ => ⟨shape, progress.imp fun _ V V' _ ⟨same, _, sound⟩ => same ▸ sound⟩)
    generalize CheckState.withScopes _ _ = s₁
    -- the body, after a counting clause and a condition that have been checked
    have finish : ∀ {t₁ t₂ : CheckState} {control' : Option (ForControl Note)} {whilst' : Option (Expr Note)},
        control'.map (ForControl.map Note.origin) = control → whilst'.map (Expr.map Note.origin) = whilst →
        (Progress s₁ t₁ ((control'.map ForControl.nodes).getD []) (control'.all (·.isValid)) fun frame V V' =>
          match control' with
          | none => V' = V
          | some f => f.Sound frame V V') →
        (Passed t₁ t₂ (optionalNodes whilst') (whilst'.all (·.isValid)) fun symbols =>
          ∀ e, whilst' = some e → e.TypedAs symbols .bool) →
        Yields (do
          let body ← Stmt.checkList (Stmt.mapList Origin.note body)
          let valid := control'.all (·.isValid) && whilst'.all (·.isValid) && body.all (·.note.isValid)
          return (valid, .loop o.note control' whilst' body) : Check (Bool × Stmt Note)) t₂ fun x t =>
            x.2.map Note.origin = .loop o control whilst body ∧
              Progress s₁ t x.2.nodes.tail x.1 fun frame V _ => x.2.Sound frame V V := by
      intro t₁ t₂ control' whilst' shape₁ shape₂ progress passed
      refine (Stmt.checkList_yields body).bind fun body' t₃ ⟨shape₃, progress'⟩ => .pure ⟨?_, ?_⟩
      · exact congr (congr (congrArg (Stmt.loop o) shape₁) shape₂) shape₃
      · refine ((progress.thenPassed passed).trans progress').imp fun frame V V' _ holds => ?_
        obtain ⟨W, ⟨controlled, tested⟩, listed⟩ := holds
        exact ⟨rfl, W, V', controlled, tested, listed⟩
    cases control with
    | none =>
      refine .fit fun fit => .step rfl id ?_
      have uncontrolled : Progress s₁ s₁ [] true fun _ V V' => V' = V := .silent fit fun _ => rfl
      cases whilst with
      | none => exact .step rfl id (finish rfl rfl uncontrolled (.silent fit fun _ => nofun))
      | some test =>
        refine (checkCondition_yields test).bind fun test' t₂ ⟨shape, passed⟩ => .step rfl id ?_
        exact finish rfl (congrArg some shape) uncontrolled passed.ofSome
    | some f =>
      refine (ForControl.check_yields f).bind fun f' t₁ ⟨shape, progress⟩ => .step rfl id ?_
      cases whilst with
      | none => exact .step rfl id (finish (congrArg some shape) rfl progress (.silent progress.fits fun _ => nofun))
      | some test =>
        refine (checkCondition_yields test).bind fun test' t₂ ⟨shape', passed⟩ => .step rfl id ?_
        exact finish (congrArg some shape) (congrArg some shape') progress passed.ofSome
  | .call o callOrigin callee args, s => by
    refine rooted_stmt.judgedProgress stmt_plain ((Expr.check_yields (.call callOrigin callee args)).bind
      fun e t ⟨shape, passed⟩ => ?_)
    cases e with
    | call note callee' args' =>
      obtain ⟨rfl, rfl, rfl⟩ := Expr.call.inj shape
      exact .pure ⟨rfl, passed.progress⟩
    | _ => cases shape
  | .ret o value, s => by
    refine rooted_stmt.judgedProgress stmt_plain ((checkOptional_yields value).bind fun value' t ⟨shape, passed⟩ =>
      passed.thenResult.bind fun r u ⟨origin, shape', progress⟩ => .pure ⟨?_, progress⟩)
    exact congr (congrArg Stmt.ret origin) (shape'.trans shape)
  | .result o value, s => by
    refine rooted_stmt.judgedProgress stmt_plain ((Expr.check_yields value).bind fun value' t ⟨shape, passed⟩ => ?_)
    refine (passed.ofSome).thenResult.bind fun r u done => ?_
    obtain ⟨note, marked⟩ := r
    obtain ⟨origin, shape', progress⟩ := done
    cases marked with
    | none => cases shape'
    | some marked =>
      exact .pure ⟨congr (congrArg Stmt.result origin) ((Option.some.inj shape').trans shape), progress⟩

theorem Stmt.checkList_yields : ∀ (trees : List (Stmt Origin)) {s : CheckState},
    Yields (Stmt.checkList (Stmt.mapList Origin.note trees)) s fun stmts t => Stmt.mapList Note.origin stmts = trees ∧
      Progress s t (Stmt.listNodes stmts) (stmts.all (·.note.isValid)) fun frame V V' => Stmt.SoundList frame V stmts V'
  | [], _ => fun fit => ⟨fit, rfl, .silent fit fun _ => rfl⟩
  | tree :: rest, _ => (Stmt.check_yields tree).bind fun _ _ ⟨shape, progress⟩ =>
    (Stmt.checkList_yields rest).bind fun _ _ ⟨shapes, progress'⟩ =>
      .pure ⟨congr (congrArg List.cons shape) shapes, progress.trans progress'⟩

theorem Stmt.checkElse_yields : ∀ (tree : Option (List (Stmt Origin))) {s : CheckState},
    Yields (Stmt.checkElse (Stmt.mapElse Origin.note tree)) s fun otherwise t =>
      Stmt.mapElse Note.origin otherwise = tree ∧
        Progress s t (Stmt.elseNodes otherwise) (otherwise.all (·.all (·.note.isValid))) fun frame V V' => V' = V ∧ Stmt.SoundElse frame V otherwise
  | none, _ => fun fit => ⟨fit, rfl, .silent fit fun _ => ⟨rfl, trivial⟩⟩
  | some trees, _ => (inBlock_yields (Stmt.checkList_yields trees)).bind fun _ _ ⟨shapes, progress⟩ =>
    .pure ⟨congrArg some shapes, progress⟩

theorem Stmt.checkArms_yields : ∀ (trees : List (CondBranch Origin)) {s : CheckState},
    Yields (Stmt.checkArms (Stmt.mapArms Origin.note trees)) s fun arms t => Stmt.mapArms Note.origin arms = trees ∧
      Progress s t (Stmt.armNodes arms) (arms.all fun arm => arm.cond.isValid && arm.body.all (·.note.isValid))
        fun frame V V' => V' = V ∧ Stmt.SoundArms frame V arms
  | [], _ => fun fit => ⟨fit, rfl, .silent fit fun _ => ⟨rfl, trivial⟩⟩
  | .mk o test body :: rest, s => by
    refine (checkCondition_yields test).bind fun test' t₁ ⟨shape, passed⟩ =>
      (inBlock_yields (Stmt.checkList_yields body)).bind fun body' t₂ ⟨shapes, progress⟩ =>
        (Stmt.checkArms_yields rest).bind fun others t₃ ⟨shapes', progress'⟩ => .pure ⟨?_, ?_⟩
    · exact congr (congrArg List.cons (congr (congrArg (CondBranch.mk o) shape) shapes)) shapes'
    · refine .unjudged (((passed.andThen progress).trans progress').imp fun _ V V' _ holds => ?_) rfl fun _ => trivial
      obtain ⟨_, ⟨typed, rfl, sound⟩, rfl, sound'⟩ := holds
      exact ⟨rfl, typed, sound, sound'⟩

end

/-! ## Programs -/

theorem rooted_program :
    Rooted Program.nodes (Program.map Note.origin) fun p (_ : Int64) V V' => V' = V ∧ p.Sound V where
  root _ := ⟨_, rfl, rfl, rfl⟩
  tail _ _ := rfl
  note _ _ := rfl
  kept _ _ _ := ⟨rfl, rfl, rfl⟩

/-- The check of a program. Without an issue the program is sound under the names of its context. -/
theorem Program.check_yields (tree : Program Origin) :
    Yields (tree.map Origin.note).check s fun p t => p.map Note.origin = tree ∧
      Progress s t p.nodes p.note.isValid fun _ V V' => V' = V ∧ p.Sound V := by
  refine rooted_program.judgedProgress (fun _ _ => trivial) (.fit fun fit => .environment (.step rfl fit_pushBlock ?_))
  refine (Stmt.checkList_yields tree.stmts).bind fun stmts t ⟨shapes, progress⟩ => .environment (.environment ?_)
  have left := progress.leave fit
  refine .step rfl (fun _ => left.fits) (.pure ⟨congrArg (Program.mk tree.note) shapes, ?_⟩)
  refine { left with sound := fun clean => ?_ }
  obtain ⟨ready, extends', functions, sound⟩ := left.sound clean
  have inside := progress.sound clean
  refine ⟨ready, extends', functions, fun frame large => ⟨(sound frame large).1, ?_⟩⟩
  exact ⟨_, t.view, rfl, inside.ready.scopes.frameSize_nonneg, inside.sound _ (Int64.le_refl _)⟩

end Check

end LyaLang
