import LyaLang.Proofs.Balance

/-! # Pieces of sound programs

Wherever an expression or a statement has its code in a program that was checked without a fault, it is typed or
sound under good symbols. What lies right inside a piece inherits this from it.
-/

namespace LyaLang

open Ast

variable {k : Piece} {e : Expr Note}

/-- An expression typed under good symbols. -/
def Ast.Expr.IsTyped (e : Expr Note) : Prop := ∃ symbols, (∀ s ∈ symbols, s.Good) ∧ e.Typed symbols

/-- A piece that has been checked without a fault. -/
@[simp] def Piece.Sound : Piece → Prop
  | value e | address e => e.IsTyped
  | stmt s => ∃ frame V V', V.Good ∧ s.Sound frame V V'

/-- The pieces among segments have been checked without a fault. -/
def SoundParts (ss : List Segment) : Prop := ∀ k, .part k ∈ ss → k.Sound

namespace SoundParts

variable {ss front back : List Segment}

@[simp] theorem nil : SoundParts [] := by simp [SoundParts]

@[simp] theorem cons_draft {d : Draft} : SoundParts (.draft d :: ss) ↔ SoundParts ss := by simp [SoundParts]

@[simp] theorem cons_part : SoundParts (.part k :: ss) ↔ k.Sound ∧ SoundParts ss := by simp [SoundParts]

@[simp] theorem append : SoundParts (front ++ back) ↔ SoundParts front ∧ SoundParts back := by
  simp only [SoundParts, List.mem_append, or_imp, forall_and]

@[simp] theorem asSegments (ds : List Draft) : SoundParts (asSegments ds) := by simp [SoundParts, LyaLang.asSegments]

@[simp] theorem flatMap {γ : Type} {f : γ → List Segment} {xs : List γ} :
    SoundParts (xs.flatMap f) ↔ ∀ x ∈ xs, SoundParts (f x) := by
  induction xs with
  | nil => simp
  | cons x rest ih => simp [ih]

end SoundParts

namespace Ast

/-! ## Expressions -/

theorem readSegments_sound {a : Expr Note} (typed : a.IsTyped) : SoundParts (readSegments a) := by
  unfold readSegments
  repeat' split
  all_goals simp [typed]

theorem printSegments_sound {a : Expr Note} (typed : a.IsTyped) : SoundParts (printSegments a) := by
  unfold printSegments
  repeat' split
  all_goals simp [typed]

theorem argumentSegments_sound {args : List (Expr Note)} (typed : ∀ a ∈ args, a.IsTyped) (how : Passing) :
    SoundParts (argumentSegments how args) := by
  induction args generalizing how with
  | nil => cases how <;> simp [argumentSegments]
  | cons a rest ih =>
    obtain ⟨first, typed⟩ := List.forall_mem_cons.mp typed
    cases how with
    | read => simp [argumentSegments, readSegments_sound first, ih typed]
    | print => simp [argumentSegments, printSegments_sound first, ih typed]
    | operand => simp [argumentSegments, first]
    | params ps =>
      cases ps with
      | nil => simp [argumentSegments]
      | cons p ps => cases loc : p.loc <;> simp [argumentSegments, loc, first, ih typed]

theorem callSegments_sound {args : List (Expr Note)} (typed : ∀ a ∈ args, a.IsTyped) (callee : Ident Note) :
    SoundParts (callSegments callee fun how => argumentSegments how args) := by
  unfold callSegments
  repeat' split
  all_goals simp [argumentSegments_sound typed]

theorem indexSegments_sound {indexes : List (Expr Note)} (typed : ∀ e ∈ indexes, e.IsTyped) (mode : Option Mode) :
    SoundParts (indexSegments mode indexes) := by
  induction indexes generalizing mode with
  | nil => cases mode <;> simp [indexSegments]
  | cons e rest ih =>
    obtain ⟨first, typed⟩ := List.forall_mem_cons.mp typed
    cases mode <;> simp [indexSegments, first, ih typed]

section

variable {symbols : List Symbol} (good : ∀ s ∈ symbols, s.Good)

include good

theorem Expr.Typed.isTyped (typed : e.Typed symbols) : e.IsTyped := ⟨symbols, good, typed⟩

theorem Expr.TypedList.areTyped {es : List (Expr Note)} (typed : Expr.TypedList symbols es) : ∀ e ∈ es, e.IsTyped :=
  fun e member => (Expr.typedList_iff.mp typed e member).isTyped good

theorem valueArmSegments_sound {type : ValueType} {arms : List (CondValue Note)}
    (typed : Expr.TypedArms symbols type arms) (exit label : Int64) : SoundParts (valueArmSegments exit label arms) := by
  induction arms generalizing label with
  | nil => exact .nil
  | cons arm rest ih =>
    obtain ⟨_, test, value⟩ := arm
    obtain ⟨typedTest, _, typedValue, _, typed⟩ := typed
    simp [valueArmSegments, typedTest.isTyped good, typedValue.isTyped good, ih typed]

theorem Expr.addressSegments_sound (typed : e.Typed symbols) : SoundParts e.addressSegments := by
  cases e with
  | index note x indexes =>
    obtain ⟨typedX, _, typed, _⟩ := typed
    simp [Expr.addressSegments, typedX.isTyped good, indexSegments_sound (Expr.TypedList.areTyped good typed)]
  | deref note x => simp [Expr.addressSegments, typed.1.isTyped good]
  | call note callee args => exact callSegments_sound (Expr.TypedList.areTyped good typed.1) callee
  | _ => simp [Expr.addressSegments]

theorem Expr.valueSegments_sound (typed : e.Typed symbols) : SoundParts e.valueSegments := by
  cases e with
  | int | bool | char | text | ident => simp [Expr.valueSegments]
  | binary note o x y => simp [Expr.valueSegments, typed.1.isTyped good, typed.2.1.isTyped good]
  | cond note arms otherwise =>
    simp [Expr.valueSegments, valueArmSegments_sound good typed.1, typed.2.1.isTyped good]
  | call note callee args =>
    simp [Expr.valueSegments, callSegments_sound (Expr.TypedList.areTyped good typed.1)]
  | index note x indexes =>
    obtain ⟨typedX, _, typed, _⟩ := typed
    simp [Expr.valueSegments, typedX.isTyped good, indexSegments_sound (Expr.TypedList.areTyped good typed)]
  | unary | deref | ref => simp [Expr.valueSegments, typed.1.isTyped good]

end

/-! ## Statements -/

theorem stringSegments_sound {value : Expr Note} (typed : value.IsTyped) (m : Mode) (o : Option BinaryOp) :
    SoundParts (stringSegments m o value) := by
  unfold stringSegments
  repeat' split
  all_goals simp [typed]

theorem assignSymbolSegments_sound {value : Expr Note} (typed : value.IsTyped) (symbol : Symbol) (o : Option BinaryOp) :
    SoundParts (assignSymbolSegments symbol o value) := by
  unfold assignSymbolSegments
  repeat' split
  all_goals simp [typed, stringSegments_sound typed]

theorem assignSegments_sound {target value : Expr Note} (typedTarget : target.IsTyped) (typed : value.IsTyped)
    (o : Option BinaryOp) : SoundParts (assignSegments target o value) := by
  cases target with
  | ident id =>
    rw [assignSegments]
    cases id.note.symbol <;> simp [assignSymbolSegments_sound typed]
  | _ =>
    refine SoundParts.cons_part.mpr ⟨typedTarget, ?_⟩
    repeat' split
    all_goals simp [typed, stringSegments_sound typed]

theorem Declaration.segments_sound {d : Declaration Note} (typed : ∀ e, d.init = some e → e.IsTyped) :
    SoundParts d.segments := by
  unfold Declaration.segments initialSegments
  cases init : d.init with
  | none => exact .nil
  | some e =>
    refine SoundParts.flatMap.mpr fun id _ => ?_
    repeat' split
    all_goals simp [typed e init, assignSymbolSegments_sound (typed e init)]

theorem resultSegments_sound {V : View} (good : V.Good) {note : Note} {value : Option (Expr Note)}
    (sound : ResultSound V note value) : SoundParts (resultSegments note value) := by
  obtain ⟨_, _, _, _, _, typed⟩ := sound
  unfold resultSegments
  split
  · rename_i proc e _
    have typed : e.IsTyped := (typed e rfl).1.1.isTyped good
    cases proc.resultLoc <;> simp [typed]
  · exact .nil

theorem ForControl.segments_sound {frame : Int64} {V V' : View} (good : V.Good) {f : ForControl Note}
    (sound : f.Sound frame V V') (first test last : Int64) : SoundParts (f.segments first test last) := by
  have kept : SoundParts f.keptSegments := by
    unfold ForControl.keptSegments
    cases isStep : f.step with
    | none => split <;> simp
    | some e => split <;> simp [(sound.step e isStep).1.isTyped good]
  unfold ForControl.segments
  split
  · exact .nil
  · simp [ForControl.initialSegments, ForControl.stepSegments, ForControl.testSegments, kept,
      sound.start.1.isTyped good, sound.stop.1.isTyped good]

section

variable {frame : Int64} {V V' : View} (good : V.Good)

include good

theorem bodySegments_sound {body : List (Stmt Note)} (sound : Stmt.SoundList frame V body V') :
    SoundParts (bodySegments body) := by
  induction body generalizing V with
  | nil => exact .nil
  | cons s rest ih =>
    obtain ⟨W, first, sound⟩ := sound
    exact SoundParts.cons_part.mpr ⟨⟨frame, V, W, good, first⟩, ih (first.good good) sound⟩

theorem branchSegments_sound {arms : List (CondBranch Note)} (sound : Stmt.SoundArms frame V arms) (exit label : Int64) :
    SoundParts (branchSegments exit label arms) := by
  induction arms generalizing label with
  | nil => exact .nil
  | cons arm rest ih =>
    obtain ⟨_, test, body⟩ := arm
    obtain ⟨typed, ⟨W, sound⟩, arms⟩ := sound
    simp [branchSegments, typed.1.isTyped good, bodySegments_sound good sound, ih arms]

theorem EachSound.segments {γ : Type} {sound : View → γ → View → Prop} {f : γ → List Segment} {xs : List γ}
    (each : ∀ {V x V'}, V.Good → sound V x V' → V'.Good ∧ SoundParts (f x)) (holds : EachSound sound V xs V') :
    SoundParts (xs.flatMap f) := by
  induction xs generalizing V with
  | nil => exact .nil
  | cons x rest ih =>
    obtain ⟨W, first, holds⟩ := holds
    obtain ⟨goodW, parts⟩ := each good first
    exact SoundParts.append.mpr ⟨parts, ih goodW holds⟩

theorem Stmt.segments_sound {s : Stmt Note} (sound : s.Sound frame V V') : SoundParts s.segments := by
  cases s with
  | declare note decls =>
    refine EachSound.segments good (fun {V d V'} good sound => ⟨Declaration.Sound.good good sound, ?_⟩) sound
    obtain ⟨m, _, _, _, initial, _⟩ := sound
    refine Declaration.segments_sound fun e init => ?_
    rw [init] at initial
    exact initial.1.isTyped good
  | synonym | modes => simp [Stmt.segments]
  | proc note name params spec body =>
    obtain ⟨serial, p, words, W, W', rfl, _, _, header, _, _, parameters, sound⟩ := sound
    have inner : W.Good := parameters.good ((good.declare (header.goodSymbol name) serial).enter _)
    rw [Stmt.segments]
    split <;> simp [bodySegments_sound inner sound]
  | assign note target o value =>
    exact assignSegments_sound (sound.2.typed.isTyped good) (sound.2.assigned.1.isTyped good) o
  | branch note arms otherwise =>
    obtain ⟨_, arms, last⟩ := sound
    have rest : SoundParts (bodySegments (otherwise.getD [])) := by
      cases otherwise with
      | none => exact .nil
      | some body => exact last.elim fun _ last => bodySegments_sound good last
    simp [Stmt.segments, branchSegments_sound good arms, rest]
  | loop note control whilst body =>
    obtain ⟨_, W, W', isControl, test, sound⟩ := sound
    have first : W.Good ∧ ∀ start, SoundParts (controlSegments start control) := by
      cases control with
      | none =>
        cases isControl
        exact ⟨good, by simp [controlSegments]⟩
      | some f => exact ⟨ForControl.Sound.good good isControl, fun _ => f.segments_sound good isControl _ _ _⟩
    have tested : ∀ stop, SoundParts (whilstSegments stop whilst) := by
      cases whilst with
      | none => simp [whilstSegments]
      | some e => simp [whilstSegments, (test e rfl).1.isTyped first.1]
    simp [Stmt.segments, first.2, tested, bodySegments_sound first.1 sound]
  | call note callNote callee args =>
    simp [Stmt.segments, callSegments_sound (Expr.TypedList.areTyped good sound.2.1)]
  | ret note value => simp [Stmt.segments, resultSegments_sound good sound.2]
  | result note value => exact resultSegments_sound good sound.2

end

end Ast

/-! ## Programs -/

/-- What lies inside a piece that has been checked without a fault has been so itself. -/
theorem Piece.Sound.segments (sound : k.Sound) : SoundParts k.segments := by
  cases k with
  | value e => exact sound.elim fun _ sound => Expr.valueSegments_sound sound.1 sound.2
  | address e => exact sound.elim fun _ sound => Expr.addressSegments_sound sound.1 sound.2
  | stmt s =>
    obtain ⟨frame, V, V', good, sound⟩ := sound
    exact Stmt.segments_sound good sound

/-- Every piece of a compiled program has been checked without a fault. -/
theorem Compiled.sound_piece {source : Bytes} {p : Program Note} {code : Code} (compiled : Compiled source p code) {i : Nat}
    (emitted : Emitted p i k) : k.Sound := by
  induction emitted with
  | @stmt front s back split =>
    obtain ⟨words, W, _, _, sound⟩ := compiled.sound
    refine bodySegments_sound View.good_initial sound _ ?_
    rw [split]
    exact List.mem_map_of_mem (by simp)
  | @part i k k' front back _ split ih => exact ih.segments k' (by rw [split]; simp)

end LyaLang
