import LyaLang.Check.Stmt
import LyaLang.Proofs.Check.BlurExpr

/-! # Statements up to layout and spelling

A blurred statement declares the blurred symbols at the same places, finds the same faults and comes to the blurred
notes. Checking a blurred program therefore gives the blurred program.
-/

namespace LyaLang

open Ast Check

variable {γ : Type}

namespace Check

/-! ## Lists -/

theorem checkEach_blurs {check : γ → Check γ} {m : γ → γ} (each : ∀ x, Blurs m (check x) (check (m x)))
    (xs : List γ) : Blurs (List.map m) (checkEach check xs) (checkEach check (xs.map m)) := by
  induction xs with
  | nil => exact .pure rfl
  | cons x rest ih => exact (each x).bind fun x => ih.bind fun rest => .pure rfl

theorem all_blur {m : γ → γ} {valid : γ → Bool} (each : ∀ x, valid (m x) = valid x) (xs : List γ) :
    (xs.map m).all valid = xs.all valid := by
  rw [List.all_map]
  exact congrArg (fun valid => xs.all valid) (funext each)

theorem optionAll_blur {m : γ → γ} {valid : γ → Bool} (each : ∀ x, valid (m x) = valid x) (x : Option γ) :
    (x.map m).all valid = x.all valid := by
  cases x with
  | none => rfl
  | some x => exact each x

/-! ## Declarations -/

theorem declareNames_blurs {make make' : Ident Note → Symbol}
    (same : ∀ id, make' (id.blur Note.blur) = (make id).blur) (names : List (Ident Note)) :
    Blurs (List.map (Ident.blur Note.blur)) (declareNames make names)
      (declareNames make' (names.map (Ident.blur Note.blur))) := by
  induction names with
  | nil => exact .pure rfl
  | cons id rest ih =>
    refine (isFree_blurs id).bind fun free => .ite ?_ (ih.bind fun rest => .pure rfl)
    rw [same]
    exact (declare_blurs _).bind fun symbol => ih.bind fun rest => .pure rfl

theorem checkAlias_blurs (note : Note) (mode : Option Mode) (init : Option (Expr Note)) :
    Blurs (Option.map (Expr.blur Note.blur)) (checkAlias note mode init)
      (checkAlias note.blur (mode.map Mode.blur) (init.map (Expr.blur Note.blur))) := by
  cases init with
  | none => exact reported_blurs rfl rfl
  | some e =>
    unfold checkAlias
    rw [Option.map_some]
    dsimp only
    rw [Expr.type_blur, Expr.isLocation_blur, Expr.line_blur, Expr.mode_blur, Mode.optionType_blur, ← Expr.markUsage_blur]
    refine .ite (.pure rfl) (.ite ((report_blurs rfl).bind fun _ => .pure rfl) ?_)
    refine (expect_blurs _ _).bind fun agree => .ite ?_ (.pure rfl)
    exact (sameSize_blurs _ _).bind fun _ => .pure rfl

theorem checkInitial_blurs (mode : Option Mode) (e : Expr Note) :
    Blurs (fun r => r) (checkInitial mode e) (checkInitial (mode.map Mode.blur) (e.blur Note.blur)) := by
  unfold checkInitial
  rw [Expr.type_blur, Expr.isLocation_blur, Expr.line_blur, Expr.mode_blur, Mode.optionType_blur, Mode.optionIsArray_blur]
  refine (expect_blurs _ _).bind fun agree => .ite (.ite (report_blurs rfl) ?_) (.pure rfl)
  exact sameSize_blurs _ _

theorem storageMode_blurs (m : ModeExpr Note) :
    Blurs (Option.map Mode.blur) (storageMode m) (storageMode (m.blur Note.blur)) := by
  unfold storageMode
  rw [ModeExpr.mode_blur, ModeExpr.line_blur]
  cases m.note.mode with
  | none => exact .pure rfl
  | some mode =>
    simp only [Option.map_some, mode.size_blur]
    exact .ite (reported_blurs rfl rfl) (.pure rfl)

theorem checkOptional_blurs (e : Option (Expr Note)) :
    Blurs (Option.map (Expr.blur Note.blur)) (checkOptional e) (checkOptional (e.map (Expr.blur Note.blur))) := by
  cases e with
  | none => exact .pure rfl
  | some e => exact (Expr.check_blurs e).bind fun e => .pure rfl

/-- The words of declared storage. -/
theorem storage_blur (mode : Option Mode) : ((mode.map Mode.blur).map Mode.size).getD 0 = (mode.map Mode.size).getD 0 := by
  cases mode with
  | none => rfl
  | some m => exact m.size_blur

/-- The symbol that a declaration gives a name. -/
def declaredVariable (loc : Bool) (mode : Option Mode) (id : Ident Note) : Symbol :=
  { name := id.name
    category := if loc then .location else .var
    mode
    size := if loc then 1 else (mode.map Mode.size).getD 0
    line := Int64.ofNat id.note.line }

theorem declaredVariable_blur (loc : Bool) (mode : Option Mode) (id : Ident Note) :
    declaredVariable loc (mode.map Mode.blur) (id.blur Note.blur) = (declaredVariable loc mode id).blur := by
  rw [declaredVariable, storage_blur]
  rfl

theorem Declaration.check_blurs (d : Declaration Note) :
    Blurs (Declaration.blur Note.blur) d.check (d.blur Note.blur).check := by
  obtain ⟨note, names, modeExpr, loc, init⟩ := d
  refine judge_blurs (fun _ _ => rfl) ((ModeExpr.check_blurs modeExpr).bind fun modeExpr =>
    (checkOptional_blurs init).bind fun init => (storageMode_blurs modeExpr).bind fun mode => ?_)
  rw [ModeExpr.isValid_blur, optionAll_blur fun e : Expr Note => e.isValid_blur]
  have names' := declareNames_blurs (declaredVariable_blur loc mode) names
  refine .ite ((checkAlias_blurs note mode init).bind fun init => names'.bind fun _ => .pure rfl) ?_
  cases init with
  | none => exact names'.bind fun _ => .pure rfl
  | some e => exact (checkInitial_blurs mode e).bind fun _ => names'.bind fun _ => .pure rfl

theorem SynonymDef.check_blurs (d : SynonymDef Note) :
    Blurs (SynonymDef.blur Note.blur) d.check (d.blur Note.blur).check := by
  obtain ⟨note, names, modeExpr, value⟩ := d
  refine judge_blurs (fun _ _ => rfl) ((Expr.check_blurs value).bind fun value => ?_)
  cases modeExpr with
  | none =>
    simp only [SynonymDef.blur, Option.map_none, pure_bind, Option.all_none, Option.bind_none, Expr.isValid_blur,
      Expr.mode_blur, Expr.constant_blur, Expr.line_blur]
    refine .ite ?_ ?_
    all_goals
      refine .guard (report_blurs rfl) ?_
      exact (declareNames_blurs (fun _ => rfl) names).bind fun _ => .pure rfl
  | some m =>
    refine (ModeExpr.check_blurs m).bind fun m => ?_
    simp only [SynonymDef.blur, Option.map_some, pure_bind, Option.all_some, Option.bind_some, Expr.isValid_blur,
      ModeExpr.isValid_blur, ModeExpr.mode_blur, Expr.mode_blur, Expr.type_blur, Expr.constant_blur, Expr.line_blur]
    cases m.note.mode with
    | none =>
      refine .ite ?_ ?_
      all_goals
        refine .guard (report_blurs rfl) ?_
        exact (declareNames_blurs (fun _ => rfl) names).bind fun _ => .pure rfl
    | some mode =>
      simp only [Option.map_some, Mode.type_blur]
      refine .ite ?_ ((expect_blurs _ _).bind fun _ => ?_)
      all_goals
        refine .guard (report_blurs rfl) ?_
        exact (declareNames_blurs (fun _ => rfl) names).bind fun _ => .pure rfl

theorem ModeDef.check_blurs (d : ModeDef Note) : Blurs (ModeDef.blur Note.blur) d.check (d.blur Note.blur).check := by
  refine judge_blurs (fun _ _ => rfl) ((ModeExpr.check_blurs d.mode).bind fun modeExpr => ?_)
  rw [ModeExpr.mode_blur, ModeExpr.isValid_blur]
  simp only [storage_blur]
  refine (declareNames_blurs (fun id => ?_) d.names).bind fun names => .pure rfl
  cases modeExpr.note.mode <;> rfl

/-! ## Procedures -/

theorem checkResult_blurs (spec : Option (ResultSpec Note)) :
    Blurs (fun r => (r.1, r.2.1.map (ResultSpec.blur Note.blur), r.2.2.map Mode.blur)) (checkResult spec)
      (checkResult (spec.map (ResultSpec.blur Note.blur))) := by
  cases spec with
  | none => exact .pure rfl
  | some r =>
    refine (ModeExpr.check_blurs r.mode).bind fun mode => ?_
    rw [ModeExpr.isValid_blur, ModeExpr.mode_blur]
    refine .ite (.pure rfl) (.ite (.pure rfl) ((required_blurs _).bind fun result => ?_))
    rw [result.size_blur]
    exact .ite ((report_blurs rfl).bind fun _ => .pure rfl) (.pure rfl)

theorem FormalParam.checkMode_blurs (p : FormalParam Note) :
    Blurs (FormalParam.blur Note.blur) p.checkMode (p.blur Note.blur).checkMode := by
  refine (ModeExpr.check_blurs p.mode).bind fun mode => ?_
  rw [ModeExpr.isValid_blur, ModeExpr.mode_blur]
  refine .ite ((required_blurs _).bind fun passed => ?_) (.pure rfl)
  rw [passed.size_blur]
  exact .ite ((report_blurs rfl).bind fun _ => .pure rfl) (.pure rfl)

theorem declareParamNames_blurs (count : Nat) (level : Int64) (loc : Bool) (mode : Option Mode) (position : Nat)
    (names : List (Ident Note)) :
    Blurs (List.map (Ident.blur Note.blur)) (declareParamNames count level loc mode position names)
      (declareParamNames count level loc (mode.map Mode.blur) position (names.map (Ident.blur Note.blur))) := by
  induction names generalizing position with
  | nil => exact .pure rfl
  | cons id rest ih =>
    refine (isFree_blurs id).bind fun free => .ite ((declareAt_blurs _ _ _).bind fun symbol => ?_) ?_
    all_goals exact (ih (position + 1)).bind fun rest => .pure rfl

/-- The mode that the parameters of a group have. -/
theorem passed_blur (p : FormalParam Note) :
    (if (p.blur Note.blur).mode.note.isValid then (p.blur Note.blur).mode.note.mode else none) =
      (if p.mode.note.isValid then p.mode.note.mode else none).map Mode.blur := by
  rw [show (p.blur Note.blur).mode = p.mode.blur Note.blur from rfl, ModeExpr.isValid_blur, ModeExpr.mode_blur]
  split <;> rfl

theorem declareParams_blurs (count : Nat) (level : Int64) (position : Nat) (params : List (FormalParam Note)) :
    Blurs (List.map (FormalParam.blur Note.blur)) (declareParams count level position params)
      (declareParams count level position (params.map (FormalParam.blur Note.blur))) := by
  induction params generalizing position with
  | nil => exact .pure rfl
  | cons p rest ih =>
    have lengths : (p.blur Note.blur).names.length = p.names.length := List.length_map _
    rw [List.map_cons, declareParams, declareParams, lengths, passed_blur]
    exact (declareParamNames_blurs count level p.loc _ position p.names).bind fun names =>
      (ih (position + p.names.length)).bind fun rest => .pure rfl

/-- A checked header, blurred. -/
def blurHeader (h : CheckedHeader) : CheckedHeader where
  valid := h.valid
  symbol := h.symbol.blur
  procedure := h.procedure.blur
  name := h.name.blur Note.blur
  params := h.params.map (FormalParam.blur Note.blur)
  result := h.result.map (ResultSpec.blur Note.blur)

theorem count_blur (ps : List (FormalParam Note)) :
    FormalParam.count (ps.map (FormalParam.blur Note.blur)) = FormalParam.count ps := by
  rw [FormalParam.count, List.foldl_map]
  exact congrArg (fun add => ps.foldl add 0) (funext fun total => funext fun p => congrArg (total + ·) (List.length_map _))

theorem parameters_blur (ps : List (FormalParam Note)) :
    (ps.map (FormalParam.blur Note.blur)).flatMap FormalParam.parameters =
      (ps.flatMap FormalParam.parameters).map Parameter.blur := by
  have each (p : FormalParam Note) : (p.blur Note.blur).parameters = p.parameters.map Parameter.blur := by
    rw [FormalParam.parameters, FormalParam.parameters, passed_blur, List.map_map]
    exact List.map_map
  rw [List.flatMap_map, List.map_flatMap]
  exact congrArg (fun get => ps.flatMap get) (funext each)

theorem allParams_blur (ps : List (FormalParam Note)) :
    (ps.map (FormalParam.blur Note.blur)).all (·.mode.note.isValid) = ps.all (·.mode.note.isValid) :=
  all_blur (fun p => ModeExpr.isValid_blur p.mode) ps

theorem checkHeader_blurs (note : Note) (name : Ident Note) (ps : List (FormalParam Note))
    (result : Option (ResultSpec Note)) :
    Blurs blurHeader (checkHeader note name ps result)
      (checkHeader note.blur (name.blur Note.blur) (ps.map (FormalParam.blur Note.blur))
        (result.map (ResultSpec.blur Note.blur))) := by
  refine (checkResult_blurs result).bind fun r => environment_blurs.bind fun e => ?_
  obtain ⟨valid, result, mode⟩ := r
  refine (checkEach_blurs FormalParam.checkMode_blurs ps).bind fun ps => ?_
  have returned : (mode.map Mode.blur).getD .void = (mode.getD .void).blur := by cases mode <;> rfl
  have locs : (result.map (ResultSpec.blur Note.blur)).any (·.loc) = result.any (·.loc) := by cases result <;> rfl
  simp only [count_blur, parameters_blur, returned, locs]
  refine (isFree_blurs name).bind fun free => .ite ((declare_blurs _).bind fun k => ?_)
    (newSerial_blurs.bind fun serial => .bind (g := Symbol.blur) (.pure rfl) fun k => ?_)
  all_goals
    refine environment_blurs.bind fun e => (setEnvironment_blurs rfl).bind fun _ => ?_
    refine (declareParams_blurs _ _ 0 ps).bind fun params => .pure ?_
    rw [allParams_blur]
    rfl

theorem pushFunction_blurs (function : Symbol) :
    Blurs (fun r => r) (modify fun s => { s with context := s.context.pushFunction function })
      (modify fun s => { s with context := s.context.pushFunction function.blur }) := fun _ => rfl

theorem popFunction_blurs :
    Blurs (fun r => r) (modify fun s => { s with context := s.context.popFunction })
      (modify fun s => { s with context := s.context.popFunction }) := by
  refine modify_blurs fun s => ?_
  exact congrArg (fun functions => { s.blur with context := { s.blur.context with functions } }) List.map_tail.symm

/-! ## Actions -/

theorem checkAssign_blurs (note : Note) (target : Expr Note) (op : Option BinaryOp) (value : Expr Note) :
    Blurs (Expr.blur Note.blur) (checkAssign note target op value)
      (checkAssign note.blur (target.blur Note.blur) op (value.blur Note.blur)) := by
  have refused : Blurs (Expr.blur Note.blur) (do report target.line .targetNoLocation; return target)
      (do report 0 .targetNoLocation; return target.blur Note.blur) := reported_blurs rfl rfl
  unfold checkAssign
  simp only [← Expr.markUsage_blur, Expr.isLocation_blur, Expr.type_blur, Expr.line_blur, Expr.mode_blur]
  generalize target.markUsage .assign = used
  refine .ite ?_ ((expect_blurs _ _).bind fun agree => .ite (.pure rfl) ?_)
  · cases target with
    | ident id =>
      rw [show (Expr.ident id).blur Note.blur = .ident (id.blur Note.blur) from rfl]
      dsimp only
      rw [show (id.blur Note.blur).note.symbol = id.note.symbol.map Symbol.blur from rfl]
      cases id.note.symbol with
      | none => exact .throw _
      | some symbol => exact (report_blurs rfl).bind fun _ => .pure rfl
    | _ => exact refused
  · have sized : Blurs (Expr.blur Note.blur)
        (if used.type.isArray then do
          if !value.isLocation then report value.line .arrayNeedsLocation
          else sameSize value.line used.note.mode value.note.mode
          return used
        else return used)
        (if used.type.isArray then do
          if !value.isLocation then report 0 .arrayNeedsLocation
          else sameSize 0 (used.note.mode.map Mode.blur) (value.note.mode.map Mode.blur)
          return used.blur Note.blur
        else return used.blur Note.blur) :=
      .ite (.ite (reported_blurs rfl rfl) ((sameSize_blurs _ _).bind fun _ => .pure rfl)) (.pure rfl)
    cases op with
    | none => exact sized
    | some op => exact .ite (.throw _) (.ite (reported_blurs rfl rfl) sized)

theorem checkCondition_blurs (e : Expr Note) :
    Blurs (Expr.blur Note.blur) (checkCondition e) (checkCondition (e.blur Note.blur)) :=
  (Expr.check_blurs e).bind fun e => (expectType_blurs .bool e).bind fun _ => .pure rfl

theorem checkInteger_blurs (e : Expr Note) :
    Blurs (Expr.blur Note.blur) (checkInteger e) (checkInteger (e.blur Note.blur)) :=
  (Expr.check_blurs e).bind fun e => (expectType_blurs .int e).bind fun _ => .pure rfl

theorem checkCounter_blurs (id : Ident Note) :
    Blurs (fun r => (r.1.blur, r.2)) (checkCounter id) (checkCounter (id.blur Note.blur)) := by
  refine environment_blurs.bind fun e => ?_
  rw [show (id.blur Note.blur).name = Text.toLower id.name from rfl, e.lookup?_blur]
  cases e.lookup? id.name with
  | none => exact (declare_blurs _).bind fun symbol => .pure rfl
  | some symbol =>
    have type : symbol.blur.type = symbol.type := Mode.optionType_blur symbol.mode
    simp only [Option.map_some, type]
    exact .ite ((report_blurs rfl).bind fun _ => .pure rfl) ((expect_blurs _ _).bind fun _ => .pure rfl)

theorem ForControl.check_blurs (f : ForControl Note) :
    Blurs (ForControl.blur Note.blur) f.check (f.blur Note.blur).check := by
  obtain ⟨note, counter, start, step, down, stop⟩ := f
  refine (checkInteger_blurs start).bind fun start => ?_
  extract_lets _ rest _ rest'
  have next (step : Option (Expr Note)) :
      Blurs (ForControl.blur Note.blur) (rest step) (rest' (step.map (Expr.blur Note.blur))) := by
    refine (checkInteger_blurs stop).bind fun stop => (checkCounter_blurs counter).bind fun r => ?_
    refine environment_blurs.bind fun e => (reserve_blurs 1).bind fun stopSlot => ?_
    have computed : (step.map (Expr.blur Note.blur)).any (·.note.constant.isNone) = step.any (·.note.constant.isNone) := by
      cases step with
      | none => rfl
      | some e => exact congrArg Option.isNone e.constant_blur
    rw [computed]
    exact .ite ((reserve_blurs 1).bind fun stepSlot => .pure rfl) (.pure rfl)
  cases step with
  | none => exact next none
  | some e => exact (checkInteger_blurs e).bind fun e => next (some e)

theorem checkResultValue_blurs (action : String) (note : Note) (value : Option (Expr Note)) :
    Blurs (fun r => (r.1.blur, r.2.map (Expr.blur Note.blur))) (checkResultValue action note value)
      (checkResultValue action note.blur (value.map (Expr.blur Note.blur))) := by
  refine get_blurs.bind fun s => ?_
  have current : s.blur.context.currentFunction? = s.context.currentFunction?.map Symbol.blur := List.head?_map
  rw [current]
  cases s.context.currentFunction? with
  | none => exact reported_blurs rfl rfl
  | some function =>
    cases value with
    | none => exact .pure rfl
    | some e =>
      dsimp only [Option.map_some]
      rw [Expr.isValid_blur, show function.blur.proc = function.proc.map Procedure.blur from rfl]
      refine .ite (.pure rfl) ?_
      cases function.proc with
      | none => exact .throw _
      | some proc =>
        have void : (proc.result.blur == .void) = (proc.result == .void) := by
          rw [Bool.eq_iff_iff, beq_iff_eq, beq_iff_eq, Mode.blur_eq_void_iff]
        simp only [Option.map_some, show proc.blur.result = proc.result.blur from rfl, void, Mode.type_blur,
          Expr.line_blur, Expr.type_blur, Expr.isLocation_blur, Expr.mode_blur, ← Expr.markUsage_blur]
        refine .ite (reported_blurs rfl rfl) ?_
        refine (expect_blurs _ _).bind fun agree => .ite (.pure rfl) ?_
        refine .ite (.pure rfl) (.ite (reported_blurs rfl rfl) ?_)
        exact (sameSize_blurs (some proc.result) _).bind fun _ => .pure rfl

/-! ## Statements -/

theorem Stmt.isValid_blur (s : Stmt Note) : (s.blur Note.blur).note.isValid = s.note.isValid := by
  have notes : (s.blur Note.blur).note = s.note.blur := by cases s <;> rfl
  rw [notes, Note.isValid_blur]

theorem allStmts_blur (ss : List (Stmt Note)) :
    (Stmt.blurList Note.blur ss).all (·.note.isValid) = ss.all (·.note.isValid) := by
  induction ss with
  | nil => rfl
  | cons s rest ih => rw [Stmt.blurList, List.all_cons, List.all_cons, ih, Stmt.isValid_blur]

theorem allElse_blur (body : Option (List (Stmt Note))) :
    (Stmt.blurElse Note.blur body).all (·.all (·.note.isValid)) = body.all (·.all (·.note.isValid)) := by
  cases body with
  | none => rfl
  | some body => exact allStmts_blur body

theorem allBranches_blur (arms : List (CondBranch Note)) :
    (Stmt.blurArms Note.blur arms).all (fun arm => arm.cond.isValid && arm.body.all (·.note.isValid)) =
      arms.all fun arm => arm.cond.isValid && arm.body.all (·.note.isValid) := by
  induction arms with
  | nil => rfl
  | cons arm rest ih =>
    obtain ⟨note, test, body⟩ := arm
    rw [Stmt.blurArms, List.all_cons, List.all_cons, ih]
    dsimp only [CondBranch.cond, CondBranch.body]
    rw [Expr.isValid_blur, allStmts_blur]

theorem ForControl.isValid_blur (f : ForControl Note) : (f.blur Note.blur).isValid = f.isValid := by
  rw [ForControl.isValid, ForControl.blur]
  rw [optionAll_blur fun e : Expr Note => e.isValid_blur, Expr.isValid_blur, Expr.isValid_blur]
  rfl

theorem Stmt.update_blur (v : Verdict) (s : Stmt Note) :
    (Noted.update (fun n => { n with verdict := some v }) s).blur Note.blur =
      Noted.update (fun n => { n with verdict := some v.blur }) (s.blur Note.blur) := by
  cases s <;> rfl

mutual

theorem Stmt.check_blurs : ∀ s : Stmt Note, Blurs (Stmt.blur Note.blur) s.check (s.blur Note.blur).check
  | .declare note decls => by
    refine judge_blurs Stmt.update_blur ((checkEach_blurs Declaration.check_blurs decls).bind fun decls => .pure ?_)
    rw [all_blur fun d : Declaration Note => d.note.isValid_blur]
    rfl
  | .synonym note defs => by
    refine judge_blurs Stmt.update_blur ((checkEach_blurs SynonymDef.check_blurs defs).bind fun defs => .pure ?_)
    rw [all_blur fun d : SynonymDef Note => d.note.isValid_blur]
    rfl
  | .modes note defs => by
    refine judge_blurs Stmt.update_blur ((checkEach_blurs ModeDef.check_blurs defs).bind fun defs => .pure ?_)
    rw [all_blur fun d : ModeDef Note => d.note.isValid_blur]
    rfl
  | .proc note name ps result body => by
    refine judge_blurs Stmt.update_blur ((checkHeader_blurs note name ps result).bind fun header => ?_)
    refine (pushFunction_blurs header.symbol).bind fun _ => (Stmt.checkList_blurs body).bind fun body => ?_
    refine popFunction_blurs.bind fun _ => environment_blurs.bind fun e => environment_blurs.bind fun e' => ?_
    refine (setEnvironment_blurs e'.pop_blur.symm).bind fun _ => .pure ?_
    rw [allStmts_blur, e.frameSize_blur]
    rfl
  | .assign note target op value => by
    refine judge_blurs Stmt.update_blur ((Expr.check_blurs target).bind fun target =>
      (Expr.check_blurs value).bind fun value => ?_)
    rw [Expr.isValid_blur, Expr.isValid_blur]
    exact .ite (.pure rfl) ((checkAssign_blurs note target op value).bind fun target => .pure rfl)
  | .branch note arms otherwise => by
    refine judge_blurs Stmt.update_blur ((Stmt.checkArms_blurs arms).bind fun arms =>
      (Stmt.checkElse_blurs otherwise).bind fun otherwise => .pure ?_)
    rw [allBranches_blur, allElse_blur]
    rfl
  | .loop note control whilst body => by
    refine judge_blurs Stmt.update_blur (inBlock_blurs ?_)
    extract_lets rest rest'
    have next (control : Option (ForControl Note)) : Blurs (fun r => (r.1, Stmt.blur Note.blur r.2)) (rest control)
        (rest' (control.map (ForControl.blur Note.blur))) := by
      unfold rest rest'
      extract_lets last last'
      have final (whilst : Option (Expr Note)) : Blurs (fun r => (r.1, Stmt.blur Note.blur r.2)) (last whilst)
          (last' (whilst.map (Expr.blur Note.blur))) := by
        refine (Stmt.checkList_blurs body).bind fun body => .pure ?_
        rw [allStmts_blur, optionAll_blur ForControl.isValid_blur, optionAll_blur fun e : Expr Note => e.isValid_blur]
        rfl
      cases whilst with
      | none => exact final none
      | some e => exact (checkCondition_blurs e).bind fun e => final (some e)
    cases control with
    | none => exact next none
    | some f => exact (ForControl.check_blurs f).bind fun f => next (some f)
  | .call note callNote callee args => by
    refine judge_blurs Stmt.update_blur ((Expr.check_blurs (.call callNote callee args)).bind fun checked => ?_)
    cases checked with
    | call callNote callee args =>
      refine .pure ?_
      rw [← callNote.isValid_blur]
      rfl
    | _ => exact .pure rfl
  | .ret note value => by
    refine judge_blurs Stmt.update_blur ((checkOptional_blurs value).bind fun value =>
      (checkResultValue_blurs "return" note value).bind fun r => ?_)
    rw [optionAll_blur fun e : Expr Note => e.isValid_blur]
    exact .pure rfl
  | .result note value => by
    refine judge_blurs Stmt.update_blur ((Expr.check_blurs value).bind fun value =>
      (checkResultValue_blurs "result" note (some value)).bind fun r => ?_)
    obtain ⟨note, checked⟩ := r
    rw [Expr.isValid_blur]
    cases checked <;> exact .pure rfl

theorem Stmt.checkList_blurs : ∀ ss : List (Stmt Note),
    Blurs (Stmt.blurList Note.blur) (Stmt.checkList ss) (Stmt.checkList (Stmt.blurList Note.blur ss))
  | [] => .pure rfl
  | s :: rest => (Stmt.check_blurs s).bind fun _ => (Stmt.checkList_blurs rest).bind fun _ => .pure rfl

theorem Stmt.checkElse_blurs : ∀ body : Option (List (Stmt Note)),
    Blurs (Stmt.blurElse Note.blur) (Stmt.checkElse body) (Stmt.checkElse (Stmt.blurElse Note.blur body))
  | none => .pure rfl
  | some body => (inBlock_blurs (Stmt.checkList_blurs body)).bind fun _ => .pure rfl

theorem Stmt.checkArms_blurs : ∀ arms : List (CondBranch Note),
    Blurs (Stmt.blurArms Note.blur) (Stmt.checkArms arms) (Stmt.checkArms (Stmt.blurArms Note.blur arms))
  | [] => .pure rfl
  | .mk _ test body :: rest => (checkCondition_blurs test).bind fun _ =>
    (inBlock_blurs (Stmt.checkList_blurs body)).bind fun _ => (Stmt.checkArms_blurs rest).bind fun _ => .pure rfl

end

/-- Checking a blurred program gives the blurred program. -/
theorem Program.check_blurs (p : Program Note) : Blurs (Program.blur Note.blur) p.check (p.blur Note.blur).check := by
  unfold Program.check
  rw [show (p.blur Note.blur).note.verdict = p.note.verdict.map Verdict.blur from rfl, Option.isSome_map]
  refine .ite (.pure rfl) (judge_blurs (fun _ _ => rfl) ?_)
  refine environment_blurs.bind fun e => (setEnvironment_blurs rfl).bind fun _ => ?_
  refine (Stmt.checkList_blurs p.stmts).bind fun stmts => environment_blurs.bind fun e => environment_blurs.bind fun e' => ?_
  refine (setEnvironment_blurs e'.pop_blur.symm).bind fun _ => .pure ?_
  rw [allStmts_blur, e.frameSize_blur]
  rfl

end Check

end LyaLang
