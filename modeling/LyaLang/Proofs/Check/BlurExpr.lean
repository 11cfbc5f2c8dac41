import LyaLang.Check.ModeExpr
import LyaLang.Proofs.Check.Blur

/-! # Expressions and modes up to layout and spelling

Checking an expression or a mode expression reads types, constants and categories off notes and symbols. None of
them depends on layout or spelling, so the same faults are found, and the notes that result are the blurred ones.
-/

namespace LyaLang

open Ast Check

variable {α β : Type}

namespace Ast

theorem Expr.note_blur (f : α → β) (e : Expr α) : (e.blur f).note = f e.note := by
  cases e <;> rfl

theorem ModeExpr.note_blur (f : α → β) (m : ModeExpr α) : (m.blur f).note = f m.note := by
  cases m <;> rfl

theorem Expr.blurList_eq_map (f : α → β) (es : List (Expr α)) : Expr.blurList f es = es.map (Expr.blur f) := by
  induction es with
  | nil => rfl
  | cons e rest ih => exact congrArg (e.blur f :: ·) ih

namespace Expr

variable (e : Expr Note)

@[simp] theorem line_blur : (e.blur Note.blur).line = 0 := by
  rw [line, note_blur]
  rfl

@[simp] theorem type_blur : (e.blur Note.blur).type = e.type := by
  rw [type, note_blur, Note.type_blur, type]

@[simp] theorem isValid_blur : (e.blur Note.blur).isValid = e.isValid := by
  rw [isValid, note_blur, Note.isValid_blur, isValid]

@[simp] theorem mode_blur : (e.blur Note.blur).note.mode = e.note.mode.map Mode.blur := by
  rw [note_blur]
  rfl

@[simp] theorem constant_blur : (e.blur Note.blur).note.constant = e.note.constant := by
  rw [note_blur]
  rfl

@[simp] theorem isLocation_blur : (e.blur Note.blur).isLocation = e.isLocation := by
  cases e with
  | ident id =>
    change (id.note.symbol.map Symbol.blur).any _ = id.note.symbol.any _
    cases id.note.symbol <;> rfl
  | call note callee args =>
    change ((callee.note.symbol.map Symbol.blur).bind (·.proc)).any _ = (callee.note.symbol.bind (·.proc)).any _
    cases callee.note.symbol with
    | none => rfl
    | some symbol =>
      change (symbol.proc.map Procedure.blur).any _ = symbol.proc.any _
      cases symbol.proc <;> rfl
  | _ => rfl

theorem markUsage_blur (usage : Usage) : (e.markUsage usage).blur Note.blur = (e.blur Note.blur).markUsage usage := by
  cases e <;> rfl

theorem all_isValid_blur (es : List (Expr Note)) : (Expr.blurList Note.blur es).all (·.isValid) = es.all (·.isValid) := by
  rw [blurList_eq_map, List.all_map]
  exact congrArg (List.all es) (funext fun e => e.isValid_blur)

end Expr

/-! ## Verdicts -/

theorem Expr.update_blur (v : Verdict) (e : Expr Note) :
    (Noted.update (fun n => { n with verdict := some v }) e).blur Note.blur =
      Noted.update (fun n => { n with verdict := some v.blur }) (e.blur Note.blur) := by
  cases e <;> rfl

theorem ModeExpr.update_blur (v : Verdict) (m : ModeExpr Note) :
    (Noted.update (fun n => { n with verdict := some v }) m).blur Note.blur =
      Noted.update (fun n => { n with verdict := some v.blur }) (m.blur Note.blur) := by
  cases m <;> rfl

end Ast

namespace Check

/-! ## Parts of expressions -/

theorem checkIdent_blurs (id : Ident Note) : Blurs (Ident.blur Note.blur) (checkIdent id) (checkIdent (id.blur Note.blur)) := by
  refine environment_blurs.bind fun e => ?_
  rw [show (id.blur Note.blur).name = Text.toLower id.name from rfl, e.lookup?_blur]
  cases e.lookup? id.name with
  | none => exact reported_blurs rfl rfl
  | some symbol =>
    rw [Option.map_some]
    dsimp only
    rw [show symbol.blur.category = symbol.category from rfl]
    cases symbol.category with
    | mode => exact reported_blurs rfl rfl
    | procedure => exact reported_blurs rfl rfl
    | _ => exact .pure rfl

theorem checkUnary_blurs (note : Note) (op : UnaryOp) (x : Expr Note) :
    Blurs Note.blur (checkUnary note op x) (checkUnary note.blur op (x.blur Note.blur)) := by
  unfold checkUnary
  simp only [Expr.type_blur, Expr.constant_blur]
  refine .ite (.pure rfl) (.ite (reported_blurs rfl rfl) (.pure ?_))
  exact congrArg (fun mode => { note.blur with mode, constant := x.note.constant.map op.fold }) (Mode.ofScalar?_blur _)

theorem checkBinary_blurs (note : Note) (op : BinaryOp) (x y : Expr Note) :
    Blurs Note.blur (checkBinary note op x y) (checkBinary note.blur op (x.blur Note.blur) (y.blur Note.blur)) := by
  unfold checkBinary
  simp only [Expr.type_blur, Expr.constant_blur, Expr.line_blur]
  refine .ite (.pure rfl) ((expect_blurs _ _).bind fun agree => ?_)
  refine .ite (.pure rfl) (.ite (reported_blurs rfl rfl) (.pure ?_))
  have modes : (if op.isRelational then some .bool else Mode.ofScalar? x.type).map Mode.blur =
      if op.isRelational then some .bool else Mode.ofScalar? x.type := by
    split
    · rfl
    · exact Mode.ofScalar?_blur _
  exact congrArg (fun mode => Note.mk _ _ _ mode _ _ _ _ _ _) modes

theorem checkRead_blurs (a : Expr Note) : Blurs (Expr.blur Note.blur) (checkRead a) (checkRead (a.blur Note.blur)) := by
  unfold checkRead
  simp only [Expr.type_blur, Expr.line_blur, Expr.isLocation_blur]
  refine .ite (reported_blurs rfl rfl) (.ite (reported_blurs rfl rfl) (.pure ?_))
  exact a.markUsage_blur .reference

theorem checkPrint_blurs (a : Expr Note) : Blurs (fun r => r) (checkPrint a) (checkPrint (a.blur Note.blur)) := by
  unfold checkPrint
  simp only [Expr.type_blur, Expr.line_blur, Expr.isLocation_blur]
  refine .ite (report_blurs rfl) (.ite ?_ (.pure rfl))
  exact .ite (report_blurs rfl) (.ite (report_blurs rfl) (.pure rfl))

theorem checkOperand_blurs (accepts : List ValueType) (a : Expr Note) :
    Blurs (fun r => r) (checkOperand accepts a) (checkOperand accepts (a.blur Note.blur)) := by
  unfold checkOperand
  simp only [Expr.type_blur, Expr.line_blur]
  exact .ite (report_blurs rfl) (.pure rfl)

theorem checkArgument_blurs (position : Nat) (param : Parameter) (a : Expr Note) :
    Blurs (Expr.blur Note.blur) (checkArgument position param a) (checkArgument position param.blur (a.blur Note.blur)) := by
  unfold checkArgument
  rw [show param.blur.mode = param.mode.map Mode.blur from rfl]
  cases param.mode with
  | none => exact .pure rfl
  | some want =>
    simp only [Option.map_some, Mode.type_blur, Expr.type_blur, Expr.line_blur, Expr.isLocation_blur, Expr.mode_blur]
    refine (expect_blurs _ _).bind fun agree => .ite (.pure rfl) (.ite (.pure rfl) ?_)
    refine .ite (reported_blurs rfl rfl) ((sameSize_blurs _ _).bind fun _ => .pure ?_)
    exact a.markUsage_blur .reference

theorem checkArguments_blurs (position : Nat) (params : List Parameter) (args : List (Expr Note)) :
    Blurs (Expr.blurList Note.blur) (checkArguments position params args)
      (checkArguments position (params.map Parameter.blur) (Expr.blurList Note.blur args)) := by
  induction args generalizing position params with
  | nil => cases params <;> exact .pure rfl
  | cons a args ih =>
    cases params with
    | nil => exact .pure rfl
    | cons param params =>
      exact (checkArgument_blurs position param a).bind fun a => (ih (position + 1) params).bind fun args => .pure rfl

theorem mapM_blurs {f : Expr Note → Check (Expr Note)} (each : ∀ a, Blurs (Expr.blur Note.blur) (f a) (f (a.blur Note.blur)))
    (args : List (Expr Note)) :
    Blurs (Expr.blurList Note.blur) (args.mapM f) ((Expr.blurList Note.blur args).mapM f) := by
  induction args with
  | nil => exact .pure rfl
  | cons a args ih =>
    rw [Expr.blurList, List.mapM_cons, List.mapM_cons]
    exact (each a).bind fun a => ih.bind fun args => .pure rfl

theorem forM_blurs {f : Expr Note → Check PUnit} (each : ∀ a, Blurs (fun r => r) (f a) (f (a.blur Note.blur)))
    (args : List (Expr Note)) : Blurs (fun r => r) (args.forM f) ((Expr.blurList Note.blur args).forM f) := by
  induction args with
  | nil => exact .pure rfl
  | cons a args ih => exact (each a).bind fun _ => ih

theorem checkCallArguments_blurs (proc : Procedure) (args : List (Expr Note)) :
    Blurs (Expr.blurList Note.blur) (checkCallArguments proc args)
      (checkCallArguments (proc.blur) (Expr.blurList Note.blur args)) := by
  unfold checkCallArguments
  rw [show proc.blur.builtin = proc.builtin from rfl]
  cases proc.builtin with
  | none => exact checkArguments_blurs 1 proc.params args
  | some b =>
    cases b with
    | read => exact mapM_blurs checkRead_blurs args
    | print => exact (forM_blurs checkPrint_blurs args).bind fun _ => .pure rfl
    | operation code accepts =>
      cases args with
      | nil => exact .throw _
      | cons a args => exact (checkOperand_blurs accepts a).bind fun _ => .pure rfl

/-- A checked call, blurred. -/
def blurCall (c : CheckedCall) : CheckedCall :=
  ⟨c.valid, c.note.blur, c.callee.blur Note.blur, Expr.blurList Note.blur c.args⟩

theorem checkCall_blurs (note : Note) (callee : Ident Note) (args : List (Expr Note)) :
    Blurs blurCall (checkCall note callee args)
      (checkCall note.blur (callee.blur Note.blur) (Expr.blurList Note.blur args)) := by
  have lengths : (Expr.blurList Note.blur args).length = args.length := by rw [Expr.blurList_eq_map, List.length_map]
  refine environment_blurs.bind fun e => ?_
  rw [show (callee.blur Note.blur).name = Text.toLower callee.name from rfl, e.lookup?_blur, Expr.all_isValid_blur, lengths]
  cases e.lookup? callee.name with
  | none => exact reported_blurs rfl rfl
  | some symbol =>
    rw [Option.map_some]
    dsimp only
    rw [show symbol.blur.category = symbol.category from rfl,
      show symbol.blur.proc = symbol.proc.map Procedure.blur from rfl]
    cases symbol.category with
    | procedure =>
      cases symbol.proc with
      | none => exact reported_blurs rfl rfl
      | some proc =>
        refine .ite (reported_blurs rfl rfl) (.ite (.pure rfl) ?_)
        exact (checkCallArguments_blurs proc args).bind fun args => .pure rfl
    | _ => cases symbol.proc <;> exact reported_blurs rfl rfl

theorem checkIndexing_blurs (mode : Option Mode) (indexes : List (Expr Note)) :
    Blurs (Option.map (Option.map Mode.blur)) (checkIndexing mode indexes)
      (checkIndexing (mode.map Mode.blur) (Expr.blurList Note.blur indexes)) := by
  induction indexes generalizing mode with
  | nil => exact .pure rfl
  | cons i rest ih =>
    have elems : (mode.map Mode.blur).bind Mode.elem? = (mode.bind Mode.elem?).map Mode.blur := by
      cases mode with
      | none => rfl
      | some m => exact m.elem?_blur
    rw [Expr.blurList, checkIndexing, checkIndexing, Expr.line_blur, Mode.optionIsArray_blur, Mode.optionIsString_blur,
      elems]
    exact .ite (ih _) (.ite (ih (some .char)) (reported_blurs rfl rfl))

theorem checkIndex_blurs (note : Note) (x : Expr Note) (indexes : List (Expr Note)) :
    Blurs Note.blur (checkIndex note x indexes)
      (checkIndex note.blur (x.blur Note.blur) (Expr.blurList Note.blur indexes)) := by
  unfold checkIndex
  simp only [Expr.mode_blur, Expr.isLocation_blur, Expr.line_blur, Option.isNone_map]
  refine .ite (.pure rfl) (.ite (reported_blurs rfl rfl) ?_)
  refine (checkIndexing_blurs _ indexes).bind fun mode => ?_
  cases mode <;> exact .pure rfl

theorem checkDeref_blurs (note : Note) (x : Expr Note) :
    Blurs Note.blur (checkDeref note x) (checkDeref note.blur (x.blur Note.blur)) := by
  unfold checkDeref
  rw [Expr.mode_blur]
  cases x.note.mode with
  | none => exact .pure rfl
  | some mode =>
    simp only [Option.map_some, Mode.type_blur, Mode.elem?_blur]
    exact .ite (reported_blurs rfl rfl) (.pure rfl)

theorem checkRef_blurs (note : Note) (x : Expr Note) :
    Blurs (fun r => (Note.blur r.1, r.2.blur Note.blur)) (checkRef note x) (checkRef note.blur (x.blur Note.blur)) := by
  unfold checkRef
  rw [Expr.mode_blur, Expr.isLocation_blur, Expr.line_blur]
  cases x.note.mode with
  | none => exact .pure rfl
  | some mode =>
    refine .ite (reported_blurs rfl rfl) (.pure ?_)
    rw [x.markUsage_blur]
    rfl

theorem expectType_blurs (want : ValueType) (e : Expr Note) :
    Blurs (fun r => r) (expectType want e) (expectType want (e.blur Note.blur)) := by
  unfold expectType
  simp only [Expr.type_blur, Expr.line_blur, Expr.isValid_blur]
  exact .ite ((expect_blurs _ _).bind fun _ => .pure rfl) (.pure rfl)

theorem expectArms_blurs (want : ValueType) (arms : List (CondValue Note)) :
    Blurs (fun r => r)
      (forIn arms PUnit.unit fun arm _ => do
        let _ ← expect arm.value.line want arm.value.type
        pure (ForInStep.yield PUnit.unit))
      (forIn (Expr.blurArms Note.blur arms) PUnit.unit fun arm _ => do
        let _ ← expect arm.value.line want arm.value.type
        pure (ForInStep.yield PUnit.unit)) := by
  induction arms with
  | nil => exact .pure rfl
  | cons arm rest ih =>
    obtain ⟨note, test, value⟩ := arm
    rw [Expr.blurArms, List.forIn_cons, List.forIn_cons]
    simp only [bind_assoc, pure_bind, CondValue.value, Expr.line_blur, Expr.type_blur]
    exact (expect_blurs _ _).bind fun _ => ih

theorem checkCond_blurs (note : Note) (arms : List (CondValue Note)) (otherwise : Expr Note) :
    Blurs Note.blur (checkCond note arms otherwise)
      (checkCond note.blur (Expr.blurArms Note.blur arms) (otherwise.blur Note.blur)) := by
  unfold checkCond
  rw [Expr.type_blur, Expr.mode_blur]
  refine (expectArms_blurs _ arms).bind fun _ => ?_
  refine .ite (.pure rfl) (.ite (reported_blurs rfl rfl) (.pure ?_))
  have modes : (if otherwise.type == .string then some .string else otherwise.note.mode).map Mode.blur =
      if otherwise.type == .string then some .string else otherwise.note.mode.map Mode.blur := by
    split <;> rfl
  exact congrArg (fun mode => Note.mk _ _ _ mode _ _ _ _ _ _) modes

theorem allArms_blur (arms : List (CondValue Note)) :
    (Expr.blurArms Note.blur arms).all (fun arm => arm.cond.isValid && arm.value.isValid) =
      arms.all fun arm => arm.cond.isValid && arm.value.isValid := by
  induction arms with
  | nil => rfl
  | cons arm rest ih =>
    obtain ⟨note, test, value⟩ := arm
    have first : ((test.blur Note.blur).isValid && (value.blur Note.blur).isValid) = (test.isValid && value.isValid) := by
      rw [Expr.isValid_blur, Expr.isValid_blur]
    exact congrArg₂ (· && ·) first ih

/-! ## Expressions -/

mutual

theorem Expr.check_blurs : ∀ e : Expr Note, Blurs (Expr.blur Note.blur) e.check (e.blur Note.blur).check
  | .int note value => judge_blurs Expr.update_blur (.pure rfl)
  | .bool note value => judge_blurs Expr.update_blur (.pure rfl)
  | .char note value => judge_blurs Expr.update_blur (.pure rfl)
  | .text note value => judge_blurs Expr.update_blur (.pure rfl)
  | .ident id => judge_blurs Expr.update_blur ((checkIdent_blurs id).bind fun id => .pure rfl)
  | .unary note op x => by
    refine judge_blurs Expr.update_blur ((Expr.check_blurs x).bind fun x => ?_)
    rw [Expr.isValid_blur]
    exact .ite (.pure rfl) ((checkUnary_blurs note op x).bind fun note => .pure rfl)
  | .binary note op x y => by
    refine judge_blurs Expr.update_blur ((Expr.check_blurs x).bind fun x => (Expr.check_blurs y).bind fun y => ?_)
    rw [Expr.isValid_blur, Expr.isValid_blur]
    exact .ite (.pure rfl) ((checkBinary_blurs note op x y).bind fun note => .pure rfl)
  | .cond note arms otherwise => by
    refine judge_blurs Expr.update_blur ((Expr.checkArms_blurs arms).bind fun arms =>
      (Expr.check_blurs otherwise).bind fun otherwise => ?_)
    rw [Expr.isValid_blur, allArms_blur]
    exact .ite (.pure rfl) ((checkCond_blurs note arms otherwise).bind fun note => .pure rfl)
  | .call note callee args =>
    judge_blurs Expr.update_blur ((Expr.checkList_blurs args).bind fun args =>
      (checkCall_blurs note callee args).bind fun c => .pure rfl)
  | .index note x indexes => by
    refine judge_blurs Expr.update_blur ((Expr.check_blurs x).bind fun x =>
      (Expr.checkIndexes_blurs indexes).bind fun indexes => ?_)
    rw [Expr.isValid_blur, Expr.all_isValid_blur]
    exact .ite (.pure rfl) ((checkIndex_blurs note x indexes).bind fun note => .pure rfl)
  | .deref note x => by
    refine judge_blurs Expr.update_blur ((Expr.check_blurs x).bind fun x => ?_)
    rw [Expr.isValid_blur]
    exact .ite (.pure rfl) ((checkDeref_blurs note x).bind fun note => .pure rfl)
  | .ref note x => by
    refine judge_blurs Expr.update_blur ((Expr.check_blurs x).bind fun x => ?_)
    rw [Expr.isValid_blur]
    exact .ite (.pure rfl) ((checkRef_blurs note x).bind fun r => .pure rfl)

theorem Expr.checkList_blurs : ∀ es : List (Expr Note),
    Blurs (Expr.blurList Note.blur) (Expr.checkList es) (Expr.checkList (Expr.blurList Note.blur es))
  | [] => .pure rfl
  | e :: rest => (Expr.check_blurs e).bind fun _ => (Expr.checkList_blurs rest).bind fun _ => .pure rfl

theorem Expr.checkIndexes_blurs : ∀ es : List (Expr Note),
    Blurs (Expr.blurList Note.blur) (Expr.checkIndexes es) (Expr.checkIndexes (Expr.blurList Note.blur es))
  | [] => .pure rfl
  | e :: rest => (Expr.check_blurs e).bind fun e => (expectType_blurs .int e).bind fun _ =>
    (Expr.checkIndexes_blurs rest).bind fun _ => .pure rfl

theorem Expr.checkArms_blurs : ∀ arms : List (CondValue Note),
    Blurs (Expr.blurArms Note.blur) (Expr.checkArms arms) (Expr.checkArms (Expr.blurArms Note.blur arms))
  | [] => .pure rfl
  | .mk _ test value :: rest => (Expr.check_blurs test).bind fun test => (expectType_blurs .bool test).bind fun _ =>
    (Expr.check_blurs value).bind fun _ => (Expr.checkArms_blurs rest).bind fun _ => .pure rfl

end

/-! ## Mode expressions -/

theorem ModeName.check_blurs (m : ModeName Note) : Blurs (ModeName.blur Note.blur) m.check (m.blur Note.blur).check := by
  refine judge_blurs (fun _ _ => rfl) (environment_blurs.bind fun e => ?_)
  rw [show (m.blur Note.blur).id.name = Text.toLower m.id.name from rfl, e.lookup?_blur]
  cases e.lookup? m.id.name with
  | none => exact reported_blurs rfl rfl
  | some symbol =>
    exact .ite (reported_blurs rfl rfl) (.pure rfl)

theorem checkBound_blurs (want : ValueType) (e : Expr Note) :
    Blurs (fun r => (r.1.blur Note.blur, r.2)) (checkBound want e) (checkBound want (e.blur Note.blur)) := by
  refine (Expr.check_blurs e).bind fun e => ?_
  rw [Expr.isValid_blur, Expr.line_blur, Expr.type_blur, Expr.constant_blur]
  refine .ite (.pure rfl) ((expect_blurs _ _).bind fun agree => .ite (.pure rfl) ?_)
  cases e.note.constant with
  | none => exact reported_blurs rfl rfl
  | some value => exact .pure rfl

theorem checkBounds_blurs (note : Note) (base : Mode) (lo hi : Expr Note) :
    Blurs (fun r => (r.1, Note.blur r.2.1, r.2.2.1.blur Note.blur, r.2.2.2.blur Note.blur)) (checkBounds note base lo hi)
      (checkBounds note.blur base.blur (lo.blur Note.blur) (hi.blur Note.blur)) := by
  unfold checkBounds
  rw [base.type_blur]
  refine (checkBound_blurs _ lo).bind fun lower => (checkBound_blurs _ hi).bind fun upper => ?_
  obtain ⟨lo, lower⟩ := lower
  obtain ⟨hi, upper⟩ := upper
  dsimp only
  rw [Expr.isValid_blur, Expr.isValid_blur]
  cases lower with
  | none => exact .pure rfl
  | some lower =>
    cases upper with
    | none => exact .pure rfl
    | some upper => exact .ite (reported_blurs rfl rfl) (.pure rfl)

theorem checkRange_blurs (note : Note) (base : Option (ModeName Note)) (lo hi : Expr Note) :
    Blurs (fun r => (r.1, r.2.blur Note.blur)) (checkRange note base lo hi)
      (checkRange note.blur (base.map (ModeName.blur Note.blur)) (lo.blur Note.blur) (hi.blur Note.blur)) := by
  cases base with
  | none => exact (checkBounds_blurs note .int lo hi).bind fun r => .pure rfl
  | some name =>
    refine (ModeName.check_blurs name).bind fun name => ?_
    rw [show (name.blur Note.blur).note = name.note.blur from rfl, Note.isValid_blur]
    refine .ite (.pure rfl) ((required_blurs _).bind fun mode => ?_)
    rw [mode.size_blur, mode.type_blur]
    exact .ite (reported_blurs rfl rfl) ((checkBounds_blurs note mode lo hi).bind fun r => .pure rfl)

theorem arrayMode_blurs (elem : Mode) (indexes : List (Option Mode)) :
    Blurs Mode.blur (arrayMode elem indexes) (arrayMode elem.blur (indexes.map (Option.map Mode.blur))) := by
  induction indexes with
  | nil => exact .pure rfl
  | cons index rest ih =>
    refine ih.bind fun inner => (required_blurs _).bind fun index => .pure ?_
    rw [index.lower_blur, index.upper_blur]
    rfl

theorem ModeExpr.mode_blur (m : ModeExpr Note) : (m.blur Note.blur).note.mode = m.note.mode.map Mode.blur := by
  rw [ModeExpr.note_blur]
  rfl

theorem ModeExpr.isValid_blur (m : ModeExpr Note) : (m.blur Note.blur).note.isValid = m.note.isValid := by
  rw [ModeExpr.note_blur, Note.isValid_blur]

theorem ModeExpr.line_blur (m : ModeExpr Note) : (m.blur Note.blur).note.line = 0 := by
  rw [ModeExpr.note_blur]
  rfl

theorem modes_blur (ms : List (ModeExpr Note)) :
    (ModeExpr.blurList Note.blur ms).map (·.note.mode) = (ms.map (·.note.mode)).map (Option.map Mode.blur) := by
  induction ms with
  | nil => rfl
  | cons m rest ih => rw [ModeExpr.blurList, List.map_cons, List.map_cons, List.map_cons, ih, ModeExpr.mode_blur]

theorem allModes_blur (ms : List (ModeExpr Note)) :
    (ModeExpr.blurList Note.blur ms).all (·.note.isValid) = ms.all (·.note.isValid) := by
  induction ms with
  | nil => rfl
  | cons m rest ih => rw [ModeExpr.blurList, List.all_cons, List.all_cons, ih, ModeExpr.isValid_blur]

theorem checkArray_blurs (note : Note) (elem : ModeExpr Note) (indexes : List (ModeExpr Note)) :
    Blurs Note.blur (checkArray note elem indexes)
      (checkArray note.blur (elem.blur Note.blur) (ModeExpr.blurList Note.blur indexes)) := by
  unfold checkArray
  rw [ModeExpr.mode_blur, ModeExpr.line_blur, modes_blur]
  cases elem.note.mode with
  | none => exact .pure rfl
  | some mode =>
    simp only [Option.map_some, mode.size_blur]
    refine isClean_blurs.bind fun clean => .ite (.pure rfl) (.ite (reported_blurs rfl rfl) ?_)
    exact (arrayMode_blurs _ _).bind fun mode => .pure rfl

theorem checkIndexMode_blurs (index : ModeExpr Note) :
    Blurs (fun r => r) (checkIndexMode index) (checkIndexMode (index.blur Note.blur)) := by
  unfold checkIndexMode
  rw [ModeExpr.mode_blur, ModeExpr.line_blur, ModeExpr.isValid_blur]
  refine .ite ?_ (.pure rfl)
  cases index.note.mode with
  | none => exact .pure rfl
  | some mode =>
    simp only [Option.map_some, Mode.isRange_blur, Mode.type_blur]
    exact .ite (report_blurs rfl) (.pure rfl)

mutual

theorem ModeExpr.check_blurs : ∀ m : ModeExpr Note, Blurs (ModeExpr.blur Note.blur) m.check (m.blur Note.blur).check
  | .name m => (ModeName.check_blurs m).bind fun m => .pure rfl
  | .range note base lo hi => judge_blurs ModeExpr.update_blur (checkRange_blurs note base lo hi)
  | .ref note elem => by
    refine judge_blurs ModeExpr.update_blur ((ModeExpr.check_blurs elem).bind fun elem => ?_)
    rw [ModeExpr.isValid_blur, ModeExpr.mode_blur]
    exact .ite (.pure rfl) ((required_blurs _).bind fun target => .pure rfl)
  | .chars note len => by
    refine judge_blurs ModeExpr.update_blur ((checkBound_blurs .int len).bind fun r => ?_)
    obtain ⟨len, length⟩ := r
    dsimp only
    rw [Expr.isValid_blur]
    cases length with
    | none => exact .pure rfl
    | some length => exact .ite (reported_blurs rfl rfl) (.pure rfl)
  | .array note indexes elem => by
    refine judge_blurs ModeExpr.update_blur ((ModeExpr.check_blurs elem).bind fun elem =>
      (ModeExpr.checkIndexes_blurs indexes).bind fun indexes => ?_)
    rw [ModeExpr.isValid_blur, allModes_blur]
    exact .ite (.pure rfl) ((checkArray_blurs note elem indexes).bind fun note => .pure rfl)

theorem ModeExpr.checkIndexes_blurs : ∀ ms : List (ModeExpr Note),
    Blurs (ModeExpr.blurList Note.blur) (ModeExpr.checkIndexes ms) (ModeExpr.checkIndexes (ModeExpr.blurList Note.blur ms))
  | [] => .pure rfl
  | m :: rest => (ModeExpr.check_blurs m).bind fun m => (checkIndexMode_blurs m).bind fun _ =>
    (ModeExpr.checkIndexes_blurs rest).bind fun _ => .pure rfl

end

end Check

end LyaLang
