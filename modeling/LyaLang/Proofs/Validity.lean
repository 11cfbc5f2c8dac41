import LyaLang.Proofs.Compile
import LyaLang.Proofs.Emit.Annotated

/-! # What the check of a text guarantees

A check that comes to its end gives every construct that it has judged a faithful verdict, and finds the text
valid exactly if it finds no issue. A check that does not come to its end has found an issue. After a check
without an issue, the generator finds on the tree all that it reads, and generates code without a fault.
-/

namespace LyaLang

open Ast

/-- The tree and the state at the end of the check of a text, if the check comes to its end. -/
def checked? (source : Bytes) : Option (Program Note × CheckState) :=
  match checkText source with
  | .ok p t => some (p, t)
  | .error _ _ => none

/-- The state in which the check of a text cannot go on. -/
def stopped? (source : Bytes) : Option (Crash × CheckState) :=
  match checkText source with
  | .ok _ _ => none
  | .error c t => some (c, t)

theorem exists_checked (source : Bytes) {P : Program Note → CheckState → Bool}
    (passes : (checked? source).any (fun result => P result.1 result.2) = true) :
    ∃ p t, checkText source = .ok p t ∧ P p t = true := by
  unfold checked? at passes
  cases ran : checkText source with
  | ok p t =>
    rw [ran] at passes
    exact ⟨p, t, rfl, passes⟩
  | error c t =>
    rw [ran] at passes
    cases passes

theorem exists_stopped (source : Bytes) (stops : (stopped? source).isSome = true) :
    ∃ c t, checkText source = .error c t := by
  unfold stopped? at stops
  cases ran : checkText source with
  | ok p t =>
    rw [ran] at stops
    cases stops
  | error c t => exact ⟨c, t, rfl⟩

/-- The verdicts of a check that comes to its end. -/
theorem settled_of_checkText {source : Bytes} {p : Program Note} {t : CheckState} (ran : checkText source = .ok p t) :
    Settled p.nodes p.note.isValid := by
  obtain ⟨tree, s, ready, _, same⟩ := checkText_eq source
  rw [same] at ran
  exact ((Check.Program.check_yields tree).of_ok (fun _ => ready) ran).2.settled

/-- A construct is valid exactly if no issue was found on it or on any judged construct below it. So a text
is valid exactly if its check found no issue at all, and that is so exactly if none stands in its tree. -/
theorem valid_iff_no_issue_below {source : Bytes} {p : Program Note} {t : CheckState}
    (ran : checkText source = .ok p t) :
    (∀ n ∈ p.nodes, ∀ v, n.note.verdict = some v →
      (v.valid = true ↔ ∀ m ∈ n.subtree, ∀ w, m.note.verdict = some w → w.issues = [])) ∧
    (p.note.isValid = true ↔ t.issues = []) ∧
    (t.issues = [] ↔ ∀ m ∈ p.nodes, ∀ w, m.note.verdict = some w → w.issues = []) := by
  have settled := settled_of_checkText ran
  have valid := isValid_iff_of_checkText ran
  exact ⟨settled.1, valid, valid.symm.trans settled.2⟩

/-- In a text with an undeclared name, the verdict on the whole shows the issue on the name. -/
theorem undeclared_name_invalidates_text :
    ∃ p t, checkText "dcl x int = 1; if x > 0 then x = y; fi;" = .ok p t ∧ t.issues ≠ [] ∧ p.note.isValid = false ∧
      ¬ ∀ m ∈ p.nodes, ∀ w, m.note.verdict = some w → w.issues = [] := by
  obtain ⟨p, t, ran, found⟩ := exists_checked "dcl x int = 1; if x > 0 then x = y; fi;"
    (P := fun _ t => t.issues.length == 1) (by decide +kernel)
  obtain ⟨_, valid, silent⟩ := valid_iff_no_issue_below ran
  have found : t.issues ≠ [] := by
    intro clean
    rw [clean] at found
    cases found
  exact ⟨p, t, ran, found, Bool.eq_false_iff.mpr fun isValid => found (valid.mp isValid), fun none => found (silent.mpr none)⟩

/-- The check of a text that parses stops only after an issue was found. If it comes to its end without one,
whatever the generator reads on the tree is there, and it generates code without an error. -/
theorem clean_check_makes_generation_safe {source : Bytes} (parsed : (parse source).2 = []) :
    (∀ c t, checkText source = .error c t → t.issues ≠ []) ∧
      ∀ p t, checkText source = .ok p t → t.issues = [] → p.Annotated ∧ ∃ code, p.generate = .ok (code, []) := by
  constructor
  · intro c t stopped
    obtain ⟨tree, s, ready, _, same⟩ := checkText_eq source
    rw [same] at stopped
    exact (Check.Program.check_yields tree).of_error (fun _ => ready) stopped
  · intro p t ran clean
    obtain ⟨_, _, compiled, _⟩ := (valid_of_checkText parsed ran clean).compile
    obtain ⟨after, numbers⟩ := compiled.numbered
    obtain ⟨code, generated, _⟩ := Program.generate_renders View.good_initial compiled.sound numbers.labeled
    exact ⟨compiled.sound.annotated View.good_initial numbers.labeled, code, generated⟩

/-- A reference to a mode that was defined by an undeclared name stops the check, after the issue on that name. -/
theorem broken_mode_stops_check_after_issue :
    (parse "type t = u; dcl x ref t;").2 = [] ∧
      ∃ c t, checkText "type t = u; dcl x ref t;" = .error c t ∧ t.issues ≠ [] := by
  have parsed : (parse "type t = u; dcl x ref t;").2 = [] := by decide +kernel
  obtain ⟨c, t, stopped⟩ := exists_stopped "type t = u; dcl x ref t;" (by decide +kernel)
  exact ⟨parsed, c, t, stopped, (clean_check_makes_generation_safe parsed).1 c t stopped⟩

end LyaLang
