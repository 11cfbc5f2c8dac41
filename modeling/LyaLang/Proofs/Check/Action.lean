import LyaLang.Proofs.Check.Declaration

/-! # Checked actions are sound

What checks of the parts of actions establish: assignments, conditions, the values of `return` and `result`, and
the counting clauses of loops.
-/

namespace LyaLang

open Ast

namespace Check

variable {s t u : CheckState} {v w : Bool} {P Q : Int64 → View → View → Prop}

/-! ## Assignments and conditions -/

private theorem assignedArray_tells (target value : Expr Note) :
    Tells (do
      if target.type.isArray then
        if !value.isLocation then report value.line .arrayNeedsLocation
        else sameSize value.line target.note.mode value.note.mode
      return target) s (· = target) fun _ _ => HasMode target.note → HasMode value.note →
        target.type.isArray = true → ∃ m, target.note.mode = some m ∧ value.IsLocationOf m := by
  refine .ite (fun _ => .ite (fun _ => .report rfl) fun location => ?_) fun scalar => ?_
  · refine (Tells.sameSize _ _ _).after fun _ t _ => .pure rfl fun _ _ same hasMode hasMode' _ => ?_
    obtain ⟨m, isMode, _⟩ := hasMode
    obtain ⟨m', isMode', _⟩ := hasMode'
    exact ⟨m, isMode, by simpa using location, m', isMode', same m m' isMode isMode'⟩
  · exact .pure rfl fun _ _ _ _ array => absurd array scalar

theorem checkAssign_tells (note : Note) (target : Expr Note) (op : Option BinaryOp) (value : Expr Note)
    (known : s.issues = [] → ∃ symbols, (∀ x ∈ symbols, x.Good) ∧ target.Typed symbols) :
    Tells (checkAssign note target op value) s (Marked target) fun target' symbols => target.Typed symbols →
      value.Typed symbols → AssignSound symbols target' op value := by
  refine .ite (fun _ => ?_) fun location => ?_
  · cases target with
    | ident id =>
      dsimp only
      cases found : id.note.symbol with
      | some symbol => exact .report (.refl _)
      | none =>
        refine Yields.bind (M := fun _ _ => False) (.throw fun clean => ?_) fun _ _ impossible => impossible.elim
        obtain ⟨symbols, _, symbol, _, isSymbol, _⟩ := known clean
        cases found.symm.trans isSymbol
    | _ => exact .report (.refl _)
  have marked : Marked target (target.markUsage .assign) := .mark nofun
  -- what is left to establish once the types agree
  have assemble : ∀ {symbols : List Symbol} {t' : Expr Note}, (∀ x ∈ symbols, x.Good) → t' = target.markUsage .assign →
      ((target.markUsage .assign).type.isKnown = true → value.type.isKnown = true →
        value.type = (target.markUsage .assign).type) →
      (∀ o, op = some o → o.assignsOn (target.markUsage .assign).type = true) →
      (HasMode (target.markUsage .assign).note → HasMode value.note → (target.markUsage .assign).type.isArray = true →
        ∃ m, (target.markUsage .assign).note.mode = some m ∧ value.IsLocationOf m) →
      target.Typed symbols → value.Typed symbols → AssignSound symbols t' op value := by
    rintro symbols _ goods rfl agree operator array typed typed'
    have typed := (target.markUsage_typed .assign symbols).mpr typed
    have hasMode := typed.hasMode goods
    refine ⟨typed, ?_, ⟨typed', ?_⟩, operator, array hasMode (typed'.hasMode goods)⟩
    · simpa using location
    · exact agree hasMode.type_isKnown (typed'.hasMode goods).type_isKnown
  refine (Tells.expect _ _ _).afterClean fun b t _ fewer => .ite (fun disagree => ?_) fun _ => ?_
  · exact .pure marked fun _ _ agree => by simp [agree.1] at disagree
  cases op with
  | none =>
    refine (assignedArray_tells _ value).imp fun t' u ⟨same, passed⟩ => ⟨same ▸ marked, passed.imp fun _ goods array agree => ?_⟩
    exact assemble goods same agree.2 nofun array
  | some o =>
    refine .ite (fun unknown => ?_) fun _ => .ite (fun _ => .report marked) fun defined => ?_
    · refine Yields.bind (M := fun _ _ => False) (.throw fun clean => ?_) fun _ _ impossible => impossible.elim
      obtain ⟨symbols, goods, typed⟩ := known (fewer clean)
      rw [Expr.markUsage_type, Expr.type, (typed.hasMode goods).type_isKnown] at unknown
      cases unknown
    · refine (assignedArray_tells _ value).imp fun t' u ⟨same, passed⟩ =>
        ⟨same ▸ marked, passed.imp fun _ goods array agree => ?_⟩
      refine assemble goods same agree.2 (fun o' isOp => ?_) array
      cases isOp
      simpa using defined

private theorem checkTyped_yields {want : ValueType} (known : want.isKnown = true) (tree : Expr Origin) :
    Yields (do
      let e ← (tree.map Origin.note).check
      expectType want e
      return e) s fun e t =>
        e.map Note.origin = tree ∧ Passed s t e.nodes e.isValid fun symbols => e.TypedAs symbols want :=
  (Expr.check_yields tree).bind fun e _ ⟨shape, passed⟩ => (expectType_tells known e).bind fun _ _ _ next =>
    .pure ⟨shape, typed_of_expected passed next⟩

theorem checkCondition_yields (tree : Expr Origin) :
    Yields (checkCondition (tree.map Origin.note)) s fun e t =>
      e.map Note.origin = tree ∧ Passed s t e.nodes e.isValid fun symbols => e.TypedAs symbols .bool :=
  checkTyped_yields rfl tree

theorem checkInteger_yields (tree : Expr Origin) :
    Yields (checkInteger (tree.map Origin.note)) s fun e t =>
      e.map Note.origin = tree ∧ Passed s t e.nodes e.isValid fun symbols => e.TypedAs symbols .int :=
  checkTyped_yields rfl tree

theorem checkResultValue_tells (action : String) (o : Origin) (value : Option (Expr Note)) :
    Tells (checkResultValue action o.note value) s (fun r => r.1.origin = o ∧ Option.Rel Marked value r.2)
      fun r symbols => value.all (·.isValid) = true → (∀ e, value = some e → e.Typed symbols) →
        ResultSound { s.view with symbols } r.1 r.2 := by
  refine .fit fun fit => .step rfl id ?_
  cases around : s.context.currentFunction? with
  | none => exact Tells.report ⟨rfl, Marked.option_refl value⟩
  | some function =>
    cases value with
    | none =>
      refine fun fit => ⟨fit, ⟨rfl, .none⟩, { Passed.silent (P := fun _ => True) fit fun _ => trivial with sound := ?_ }⟩
      intro clean _ _
      obtain ⟨p, isProc⟩ := (fit clean).function function around
      exact ⟨function, p, around, rfl, isProc, nofun⟩
    | some e =>
      have kept : Option.Rel Marked (some e) (some e) := .some (.refl e)
      refine Tells.ite (fun bad => .pure ⟨rfl, kept⟩ fun _ _ valid => ?_) fun _ => ?_
      · rw [Option.all_some] at valid
        simp [valid] at bad
      cases isProc : function.proc with
      | none =>
        refine .throw fun clean => ?_
        obtain ⟨p, present⟩ := (fit clean).function function around
        cases isProc.symm.trans present
      | some p =>
        refine .ite (fun _ => .report ⟨rfl, kept⟩) fun notVoid => ?_
        have notVoid : p.result ≠ .void := by simpa using notVoid
        have types : ∀ {symbols : List Symbol}, (∀ x ∈ symbols, x.Good) → e.Typed symbols →
            (p.result.type.isKnown = true → e.type.isKnown = true → e.type = p.result.type) →
            e.TypedAs symbols p.result.type := fun goods typed agree =>
          ⟨typed, agree p.result.type_isKnown (typed.hasMode goods).type_isKnown⟩
        refine (Tells.expect _ _ _).after fun b t _ => .ite (fun disagree => ?_) fun _ => ?_
        · exact .pure ⟨rfl, kept⟩ fun _ _ agree => by simp [agree.1] at disagree
        refine .ite (fun byValue => ?_) fun _ => .ite (fun _ => .report ⟨rfl, kept⟩) fun location => ?_
        · refine .pure ⟨rfl, kept⟩ fun _ goods agree _ typed => ⟨function, p, around, rfl, isProc, ?_⟩
          rintro _ ⟨⟩
          refine ⟨types goods (typed e rfl) agree.2, notVoid, fun byLocation => ?_⟩
          simp [byLocation] at byValue
        · refine (Tells.sameSize _ _ _).after fun _ u _ => .pure ⟨rfl, .some (.mark nofun)⟩
            fun _ goods same agree _ typed => ⟨function, p, around, rfl, isProc, ?_⟩
          rintro _ ⟨⟩
          obtain ⟨typed, type⟩ := types goods (typed e rfl) agree.2
          obtain ⟨m, isMode, _⟩ := typed.hasMode goods
          refine ⟨⟨(e.markUsage_typed .reference _).mpr typed, by rw [Expr.markUsage_type, type]⟩, notVoid, fun _ => ?_⟩
          exact ⟨by simpa using location, m, by rw [Expr.markUsage_mode, isMode], same _ m rfl isMode⟩

theorem Passed.thenResult {action : String} {o : Origin} {value : Option (Expr Note)}
    (passed : Passed s t (optionalNodes value) (value.all (·.isValid)) fun symbols =>
      ∀ e, value = some e → e.Typed symbols) :
    Yields (checkResultValue action o.note value) t fun r u => r.1.origin = o ∧
      r.2.map (Expr.map Note.origin) = value.map (Expr.map Note.origin) ∧
      Progress s u (optionalNodes r.2) (value.all (·.isValid)) fun _ V V' => V' = V ∧ ResultSound V r.1 r.2 := by
  refine (checkResultValue_tells action o value).imp fun r u ⟨⟨origin, marked⟩, next⟩ =>
    ⟨origin, Marked.option_origin marked, ?_⟩
  have all := (Marked.passedOption marked passed).knowing.followed next
  refine { all.progress with sound := fun clean => ?_ }
  obtain ⟨ready, extends', functions, holds⟩ := all.progress.sound clean
  refine ⟨ready, extends', functions, fun frame large => ?_⟩
  obtain ⟨same, ⟨valid, _, typed⟩, sound⟩ := holds frame large
  have view : t.view = s.view := by rw [CheckState.view, CheckState.view, passed.context]
  exact ⟨same, view ▸ sound valid typed⟩

/-! ## Counting clauses -/

theorem checkCounter_yields (i : Ident Origin) :
    Yields (checkCounter (i.map Origin.note)) s fun r t =>
      Progress s t [.ident ((i.map Origin.note).resolve r.1 r.2.1)] true fun frame V V' =>
        (findSymbol V.symbols i.name = some r.1 ∧ r.1.category.hasStorage = true ∧ r.1.type = .int ∧
          r.2.2 = false ∧ V' = V) ∨
        ∃ serial, findSymbol V.symbols i.name = none ∧
          r.1 = V.place { counterSymbol (i.map Origin.note) with serial } ∧ V.next + 1 ≤ frame ∧ r.2.2 = true ∧
          V' = V.declare { counterSymbol (i.map Origin.note) with serial } := by
  refine .environment ?_
  split
  case h_1 absent =>
    have free : s.context.environment.find? i.name = none := List.findSome?_eq_none_iff.mp absent _ List.mem_cons_self
    refine (declare_yields (counterSymbol (i.map Origin.note)) free fun _ => ⟨.int, rfl, trivial, rfl, rfl⟩).bind
      fun x t declares => .pure ?_
    have progress := declares (i.map Origin.note) rfl rfl
    refine { progress with sound := fun clean => ?_ }
    obtain ⟨ready, extends', functions, holds⟩ := progress.sound clean
    refine ⟨ready, extends', functions, fun frame large => ?_⟩
    obtain ⟨serial, isSymbol, fits, view⟩ := holds frame large
    have good := (progress.fit (progress.adds.clean clean).1).scopes
    exact .inr ⟨serial, (good.find _).symm.trans absent, isSymbol, fits rfl, rfl, view⟩
  case h_2 symbol found =>
    have resolves : ((i.map Origin.note).resolve symbol .assign).Resolves s.context.environment :=
      resolves_of_lookup found rfl rfl (by decide)
    refine .ite (fun _ => .fit fun fit => .report fun t reported => .pure ?_) fun storage => ?_
    · have loud : Passed s t [] true fun _ => False := (Passed.silent (P := fun _ => True) fit fun _ => trivial).reported reported
      exact (loud.name rfl resolves).progress.imp fun _ _ _ _ holds => holds.2.elim
    · refine (Tells.expect _ _ _).bind fun b t _ expected => .pure ?_
      have visible : Passed s t [] true fun symbols => findSymbol symbols i.name = some symbol ∧ symbol.type = .int := by
        refine { expected with sound := fun clean => ?_ }
        have good := (expected.fit (expected.adds.clean clean).1).scopes
        have visible := visible_of_lookup found good
        obtain ⟨m, isMode, _⟩ := good.symbols symbol (findSymbol_some visible).1
        refine ⟨visible, (expected.sound clean).2 rfl ?_⟩
        rw [Symbol.type, isMode]
        exact m.type_isKnown
      refine (visible.name rfl resolves).progress.imp fun _ V V' _ holds => .inl ?_
      exact ⟨holds.2.1, by simpa using storage, holds.2.2, rfl, holds.1⟩

theorem reserve_yields (count : Int64) :
    Yields (Check.reserve count) s fun offset t => Progress s t [] true fun frame V V' =>
      offset = V.next ∧ V.next + count ≤ frame ∧ V' = V.reserve count := by
  intro fit
  have advanced : ∀ clean : s.issues = [], Advanced s
      { s with context := { s.context with environment := (s.context.environment.reserve count).1 } } fun frame V V' =>
        (s.context.environment.reserve count).2 = V.next ∧ V.next + count ≤ frame ∧ V' = V.reserve count := by
    intro clean
    obtain ⟨good, large⟩ := (fit clean).scopes.reserve count
    have extended := s.context.environment.reserve_extends count
    refine ⟨⟨good, (fit clean).function⟩, extended, rfl, fun frame fits => ⟨?_, Int64.le_trans large fits, ?_⟩⟩
    · exact s.context.environment.reserve_offset count
    · simp only [CheckState.view, View.reserve, Environment.reserve_visible, Environment.reserve_next, extended.level_eq]
      rfl
  refine ⟨fun clean => (advanced clean).ready, fit, .nil, fun known knows => ?_, .quiet rfl rfl, advanced⟩
  exact ⟨known, rfl, knows.holds.reserve count, knows.serials⟩

theorem ForControl.check_yields (tree : ForControl Origin) :
    Yields (tree.map Origin.note).check s fun f t => f.map Note.origin = tree ∧
      Progress s t f.nodes f.isValid fun frame V V' => f.Sound frame V V' := by
  obtain ⟨o, counter, startTree, stepTree, down, stopTree⟩ := tree
  refine (checkInteger_yields startTree).bind fun start t₁ ⟨shape₁, passed₁⟩ => ?_
  have finish : ∀ {t₂ : CheckState} {step : Option (Expr Note)}, step.map (Expr.map Note.origin) = stepTree →
      (Passed t₁ t₂ (optionalNodes step) (step.all (·.isValid)) fun symbols =>
        ∀ e, step = some e → e.TypedAs symbols .int) →
      Yields (do
        let stop ← checkInteger (stopTree.map Origin.note)
        let found ← checkCounter (counter.map Origin.note)
        let level := (← environment).inner.level
        let stopSlot ← reserve 1
        let stepSlot ← do
          if step.any (·.note.constant.isNone) then reserve 1 else pure (-1)
        let slots := some { level, stop := stopSlot, step := stepSlot }
        return {
          note := { o.note with symbol := some found.1, slots, declaresCounter := found.2.2 }
          counter := (counter.map Origin.note).resolve found.1 found.2.1
          start, step, down, stop } : Check (ForControl Note)) t₂ fun f t =>
        f.map Note.origin = ⟨o, counter, startTree, stepTree, down, stopTree⟩ ∧
          Progress s t f.nodes f.isValid fun frame V V' => f.Sound frame V V' := by
    intro t₂ step shape₂ passed₂
    refine (checkInteger_yields stopTree).bind fun stop t₃ ⟨shape₃, passed₃⟩ => (checkCounter_yields counter).bind
      fun found t₄ counted => .environment ((reserve_yields 1).bind fun stopSlot t₅ reserved => ?_)
    obtain ⟨symbol, usage, declares⟩ := found
    have exprs := (passed₁.trans passed₂).trans passed₃
    have leveled : Progress t₄ t₄ [] true fun _ V V' => V' = V ∧ V.level = t₄.context.environment.inner.level :=
      .silent counted.fits fun _ => ⟨rfl, rfl⟩
    have before := ((exprs.before counted).trans leveled).trans reserved
    have origins : ∀ note', note'.origin = o → ForControl.map Note.origin
        ⟨note', (counter.map Origin.note).resolve symbol usage, start, step, down, stop⟩ =
        ⟨o, counter, startTree, stepTree, down, stopTree⟩ := by
      intro note' origin
      simp only [ForControl.map, origin, shape₁, shape₂, shape₃]
      rfl
    refine .ite (fun keeps => (reserve_yields 1).bind fun stepSlot t₆ reserved' => .pure ⟨origins _ rfl, ?_⟩)
      fun constant => .step rfl id (.pure ⟨origins _ rfl, ?_⟩)
    · refine .unjudged ((((before.trans reserved').valid_eq ?_).nodes_eq ?_).imp fun frame V V' _ holds => ?_) rfl
        fun _ => trivial
      · simp [ForControl.isValid]
      · simp
      obtain ⟨_, ⟨W, ⟨_, ⟨⟨⟨typed₁, typed₂⟩, typed₃⟩, isCounter⟩, rfl, level⟩, rfl, fits, rfl⟩, rfl, fits', rfl⟩ := holds
      refine ⟨typed₁, typed₂, typed₃, symbol, W, rfl, rfl, isCounter, fits, ?_⟩
      rw [ForControl.keepsStep, if_pos keeps]
      exact ⟨fits', by rw [level]; rfl, rfl⟩
    · refine .unjudged (((before.valid_eq ?_).nodes_eq ?_).imp fun frame V V' _ holds => ?_) rfl fun _ => trivial
      · simp [ForControl.isValid]
      · simp
      obtain ⟨W, ⟨_, ⟨⟨⟨typed₁, typed₂⟩, typed₃⟩, isCounter⟩, rfl, level⟩, rfl, fits, rfl⟩ := holds
      refine ⟨typed₁, typed₂, typed₃, symbol, W, rfl, rfl, isCounter, fits, ?_⟩
      rw [ForControl.keepsStep, if_neg constant]
      exact ⟨by rw [level], rfl⟩
  cases stepTree with
  | none => exact .step rfl id (finish rfl (.silent passed₁.fits fun _ _ absent => by cases absent))
  | some stepTree =>
    refine (checkInteger_yields stepTree).bind fun step t₂ ⟨shape₂, passed₂⟩ => .step rfl id ?_
    exact finish (congrArg some shape₂) passed₂.ofSome

end Check

end LyaLang
