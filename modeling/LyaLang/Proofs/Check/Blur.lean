import Mathlib.Logic.Basic
import LyaLang.Check.Monad
import LyaLang.Proofs.Scope.Blur
import LyaLang.Proofs.Tree.Blur

/-! # Checks up to layout and spelling

A check follows its construct: run on a blurred construct in a blurred state, it comes to the blurred outcome. Rules
for sequences and choices carry this from the steps of a check to the whole.
-/

namespace LyaLang

open Ast

variable {line : Nat}

/-! ## Faults -/

/-- A fault with the names in it in lower case and without the line it refers to. -/
def Fault.blur : Fault → Fault
  | undeclared name => undeclared (Text.toLower name)
  | redeclaresPredefined name | redeclared name _ => redeclaresPredefined (Text.toLower name)
  | sizeMismatch want got => sizeMismatch want.blur got.blur
  | notCallable name category => notCallable (Text.toLower name) category
  | argumentCount name want got => argumentCount (Text.toLower name) want got
  | noStorage mode => noStorage mode.blur
  | resultByValue mode => resultByValue mode.blur
  | parameterByValue mode => parameterByValue mode.blur
  | assignsTo category name => assignsTo category (Text.toLower name)
  | counterIs name category => counterIs (Text.toLower name) category
  | notMode name category => notMode (Text.toLower name) category
  | notDiscrete mode => notDiscrete mode.blur
  | indexMode mode => indexMode mode.blur
  | arrayOf mode => arrayOf mode.blur
  | modeAsValue name => modeAsValue (Text.toLower name)
  | procedureAsValue name => procedureAsValue (Text.toLower name)
  | cannotIndex mode => cannotIndex (mode.map Mode.blur)
  | cannotDereference mode => cannotDereference mode.blur
  | fault => fault

/-- An issue without its line and with names in lower case. -/
def Issue.blur (i : Issue) : Issue := ⟨i.fault.blur, 0⟩

/-- The kind of an issue. -/
def Issue.kind (i : Issue) : FaultKind := i.fault.kind

/-- A verdict with its issues blurred. -/
def Verdict.blur (v : Verdict) : Verdict := ⟨v.valid, v.issues.map Issue.blur⟩

/-- A note without its place and with names in lower case. -/
@[simps] def Note.blur (n : Note) : Note :=
  { n with
    span := default
    verdict := n.verdict.map Verdict.blur
    mode := n.mode.map Mode.blur
    symbol := n.symbol.map Symbol.blur }

@[simp] theorem Note.type_blur (n : Note) : n.blur.type = n.type := Mode.optionType_blur n.mode

@[simp] theorem Note.isValid_blur (n : Note) : n.blur.isValid = n.isValid := by
  change (n.verdict.map _).any _ = n.verdict.any _
  cases n.verdict <;> rfl

/-! ## States and outcomes -/

/-- A state of a check with its context and its issues blurred. -/
def CheckState.blur (s : CheckState) : CheckState where
  context := s.context.blur
  issues := s.issues.map Issue.blur
  own := s.own.map Issue.blur

namespace Check

variable {γ δ γ' δ' : Type}

/-- An outcome with its result changed and its state blurred. -/
def blurResult (f : γ → δ) : EStateM.Result Crash CheckState γ → EStateM.Result Crash CheckState δ
  | .ok a s => .ok (f a) s.blur
  | .error c s => .error c s.blur

/-- The second check does in blurred states what the first one does, with results changed by a function. -/
def Blurs (f : γ → δ) (x : Check γ) (y : Check δ) : Prop := ∀ s : CheckState, y s.blur = blurResult f (x s)

namespace Blurs

variable {f : γ → δ} {g : γ' → δ'} {x : Check γ} {y : Check δ}

theorem pure {a : γ} {b : δ} (same : f a = b) : Blurs f (pure a) (pure b) :=
  fun s => congrArg (EStateM.Result.ok · s.blur) same.symm

theorem throw (c : Crash) : Blurs f (throw c) (throw c) := fun _ => rfl

theorem bind {x : Check γ'} {y : Check δ'} {k : γ' → Check γ} {k' : δ' → Check δ} (first : Blurs g x y)
    (next : ∀ a, Blurs f (k a) (k' (g a))) : Blurs f (x >>= k) (y >>= k') := by
  intro s
  change EStateM.bind y k' s.blur = blurResult f (EStateM.bind x k s)
  unfold EStateM.bind
  rw [first s]
  cases x s with
  | error c t => rfl
  | ok a t => exact next a t

theorem ite {c : Prop} [Decidable c] {x' : Check γ} {y' : Check δ} (yes : Blurs f x y) (no : Blurs f x' y') :
    Blurs f (if c then x else x') (if c then y else y') := by
  split
  · exact yes
  · exact no

/-- A step that is taken only under a condition. -/
theorem guard {c : Prop} [Decidable c] {x y : Check PUnit} {k : PUnit → Check γ} {k' : PUnit → Check δ}
    (first : Blurs (fun r => r) x y) (next : Blurs f (k ⟨⟩) (k' ⟨⟩)) :
    Blurs f (if c then x >>= k else k ⟨⟩) (if c then y >>= k' else k' ⟨⟩) :=
  .ite (first.bind fun _ => next) next

end Blurs

/-! ## Steps of a check -/

theorem get_blurs : Blurs CheckState.blur get get := fun _ => rfl

theorem modify_blurs {f f' : CheckState → CheckState} (same : ∀ s : CheckState, f' s.blur = (f s).blur) :
    Blurs (fun r => r) (modify f) (modify f') := fun s => congrArg (EStateM.Result.ok PUnit.unit) (same s)

theorem environment_blurs : Blurs Environment.blur environment environment := fun _ => rfl

theorem setEnvironment_blurs {e e' : Environment} (same : e' = e.blur) :
    Blurs (fun r => r) (setEnvironment e) (setEnvironment e') := by
  subst same
  exact fun _ => rfl

theorem newSerial_blurs : Blurs (fun r => r) newSerial newSerial := fun _ => rfl

theorem report_blurs {fault fault' : Fault} (same : fault.blur = fault') :
    Blurs (fun r => r) (report line fault) (report 0 fault') := by
  subst same
  refine modify_blurs fun s => ?_
  simp only [CheckState.blur, List.map_append, List.map_cons, List.map_nil, Issue.blur]

theorem reported_blurs {f : γ → δ} {a : γ} {b : δ} {fault fault' : Fault} (faults : fault.blur = fault')
    (same : f a = b) : Blurs f (do report line fault; pure a) (do report 0 fault'; pure b) :=
  (report_blurs faults).bind fun _ => .pure same

theorem setOwn_blurs (own : List Issue) :
    Blurs (fun r => r) (modify fun s => { s with own }) (modify fun s => { s with own := own.map Issue.blur }) :=
  fun _ => rfl

theorem isClean_blurs : Blurs (fun r => r) isClean isClean := fun s =>
  congrArg (EStateM.Result.ok · s.blur) List.isEmpty_map

theorem judge_blurs {τ : Type → Type} [Noted τ] {m : τ Note → τ Note} {visit visit' : Check (Bool × τ Note)}
    (noted : ∀ (v : Verdict) (x : τ Note), m (Noted.update (fun n => { n with verdict := some v }) x) =
      Noted.update (fun n => { n with verdict := some v.blur }) (m x))
    (visits : Blurs (fun r => (r.1, m r.2)) visit visit') : Blurs m (judge visit) (judge visit') := by
  refine get_blurs.bind fun s => ?_
  refine (setOwn_blurs []).bind fun _ => visits.bind fun r => ?_
  refine get_blurs.bind fun t => (setOwn_blurs s.own).bind fun _ => .pure ?_
  have empty : t.blur.own.isEmpty = t.own.isEmpty := List.isEmpty_map
  rw [empty, noted]
  rfl

theorem expect_blurs (want got : ValueType) :
    Blurs (fun r => r) (expect line want got) (expect 0 want got) :=
  .ite (.pure rfl) (reported_blurs rfl rfl)

theorem sameSize_blurs (want got : Option Mode) :
    Blurs (fun r => r) (sameSize line want got) (sameSize 0 (want.map Mode.blur) (got.map Mode.blur)) := by
  cases want with
  | none => exact .pure rfl
  | some want =>
    cases got with
    | none => exact .pure rfl
    | some got =>
      simp only [sameSize, Option.map_some, want.size_blur, got.size_blur]
      exact .ite (report_blurs rfl) (.pure rfl)

theorem required_blurs (mode : Option Mode) : Blurs Mode.blur (required mode) (required (mode.map Mode.blur)) := by
  cases mode with
  | none => exact .throw _
  | some m => exact .pure rfl

/-- The name that is taken, if any, among blurred symbols. -/
theorem taken_blur (e : Environment) (name : Bytes) :
    (e.blur.find? (Text.toLower name)).or (if e.blur.depth == 2 then e.blur.root.find? (Text.toLower name) else none) =
      ((e.find? name).or (if e.depth == 2 then e.root.find? name else none)).map Symbol.blur := by
  rw [e.find?_blur, e.depth_blur, e.root_blur, e.root.find?_blur, Option.map_or]
  split <;> rfl

theorem isFree_blurs (id : Ident Note) : Blurs (fun r => r) (isFree id) (isFree (id.blur Note.blur)) := by
  refine environment_blurs.bind fun e => ?_
  have names : (id.blur Note.blur).name = Text.toLower id.name := rfl
  rw [names, taken_blur]
  cases (e.find? id.name).or (if e.depth == 2 then e.root.find? id.name else none) with
  | none => exact .pure rfl
  | some symbol =>
    refine reported_blurs ?_ rfl
    split <;> rfl

theorem declare_blurs (symbol : Symbol) : Blurs Symbol.blur (declare symbol) (declare symbol.blur) := by
  refine newSerial_blurs.bind fun serial => environment_blurs.bind fun e => ?_
  obtain ⟨scopes, symbols⟩ := Prod.mk.inj (e.declare_blur symbol.name { symbol with serial })
  exact (setEnvironment_blurs scopes).bind fun _ => .pure symbols.symm

theorem declareAt_blurs (symbol : Symbol) (offset level : Int64) :
    Blurs Symbol.blur (declareAt symbol offset level) (declareAt symbol.blur offset level) := by
  refine newSerial_blurs.bind fun serial => environment_blurs.bind fun e => ?_
  obtain ⟨scopes, symbols⟩ := Prod.mk.inj (e.declareAt_blur symbol.name { symbol with serial } offset level)
  exact (setEnvironment_blurs scopes).bind fun _ => .pure symbols.symm

theorem reserve_blurs (count : Int64) : Blurs (fun r => r) (reserve count) (reserve count) := by
  refine environment_blurs.bind fun e => ?_
  obtain ⟨scopes, offsets⟩ := Prod.mk.inj (e.reserve_blur count)
  exact (setEnvironment_blurs scopes).bind fun _ => .pure offsets.symm

/-- A check in a scope of its own. -/
theorem inBlock_blurs {f : γ → δ} {x : Check γ} {y : Check δ} (blurs : Blurs f x y) :
    Blurs f (inBlock x) (inBlock y) := by
  refine environment_blurs.bind fun e => (setEnvironment_blurs rfl).bind fun _ => blurs.bind fun r => ?_
  exact environment_blurs.bind fun e => (setEnvironment_blurs e.pop_blur.symm).bind fun _ => .pure rfl

end Check

end LyaLang
