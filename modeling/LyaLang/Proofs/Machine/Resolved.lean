import LyaLang.Proofs.Machine.Labels
import LyaLang.Proofs.Machine.Local

/-! # Labels in a run

If the labels of a program check, then no run of it misses a label, and every jump goes on at the only definition of its
label. A program is refused before its first step exactly if it defines a label twice.
-/

namespace LyaLang

namespace Code

variable {c : Code}

/-- The instruction at a position defines a label. -/
def DefinesAt (c : Code) (l : Int64) (position : Nat) : Prop :=
  ∃ i, c.instructions[position]? = some i ∧ i.op = .lbl ∧ i.a = l

/-- A label is defined at two positions. -/
def DefinesTwice (c : Code) : Prop := ∃ l p q, p < q ∧ c.DefinesAt l p ∧ c.DefinesAt l q

theorem definesTwice_iff : c.DefinesTwice ↔ ¬c.definitions.Nodup := by
  rw [definitions, List.Nodup, List.pairwise_filterMap, List.pairwise_iff_getElem]
  simp only [Instruction.label?_eq_some_iff]
  constructor
  · rintro ⟨l, p, q, before, ⟨i, first, defines⟩, ⟨j, second, defines'⟩⟩ apart
    obtain ⟨inside, rfl⟩ := Array.getElem?_eq_some_iff.mp first
    obtain ⟨inside', rfl⟩ := Array.getElem?_eq_some_iff.mp second
    exact apart p q inside inside' before l defines l defines' rfl
  · intro twice
    push Not at twice
    obtain ⟨p, q, inside, inside', before, l, defines, _, defines', rfl⟩ := twice
    exact ⟨l, p, q, before, ⟨_, Array.getElem?_eq_getElem inside, defines⟩,
      ⟨_, Array.getElem?_eq_getElem inside', defines'⟩⟩

theorem image_of_nodup (unique : c.definitions.Nodup) :
    c.image = .ok ⟨c.instructions, labelTable 0 c.instructions.toList, c.strings⟩ := by
  rw [image, c.labels_spec.1 unique]
  rfl

/-- A program cannot be loaded exactly if it defines a label twice. -/
theorem image_eq_error_iff : (∃ d, c.image = .error d) ↔ c.DefinesTwice := by
  rw [definesTwice_iff]
  constructor
  · rintro ⟨d, fails⟩ unique
    rw [image_of_nodup unique] at fails
    cases fails
  · intro twice
    obtain ⟨d, fails⟩ := c.labels_spec.2 twice
    rw [image, fails]
    exact ⟨d, rfl⟩

/-- The label of a jump of a program whose labels check has one definition, and the table holds its position. -/
theorem target_of_checkLabels (checked : c.checkLabels = .ok ()) {i : Instruction} (member : i ∈ c.instructions)
    (jumps : i.op.isJump = true) :
    ∃ p, (labelTable 0 c.instructions.toList).get? i.a = some p ∧ ∀ q, c.DefinesAt i.a q ↔ q = p := by
  obtain ⟨unique, known⟩ := checkLabels_eq_ok_iff.mp checked
  have defined : (labelTable 0 c.instructions.toList).get? i.a ≠ none := by
    rw [Ne, LabelTable.get?_eq_none_iff, keys_labelTable, not_not]
    exact known i member jumps
  obtain ⟨p, found⟩ := Option.ne_none_iff_exists'.mp defined
  refine ⟨p, found, fun q => ?_⟩
  rw [DefinesAt, ← get?_labels_iff (c.labels_spec.1 unique), found, Option.some_inj, eq_comm]

end Code

/-- Where a jump goes on: `jmp` at the target, `jof` there unless the word it pops is true, and `cfu` there if the return
address can be pushed. -/
structure Exec.GoesOn (image : Image) (i : Instruction) (target : Int64) : Prop where
  jmp : i.op = .jmp → ∀ pc m, step image pc i m = .ok (some target) m
  jof : i.op = .jof → ∀ pc m w m', pop m = .ok w m' →
    step image pc i m = .ok (some (if w.isTrue then pc + 1 else target)) m'
  cfu : i.op = .cfu → ∀ pc m m', push (.int (pc + 1)) m = .ok () m' → step image pc i m = .ok (some target) m'

theorem Exec.goesOn {image : Image} {i : Instruction} {p : Nat} (found : image.labels.get? i.a = some p) :
    GoesOn image i (Int64.ofNat p) := by
  have target (m : Machine) : labelTarget image i.a m = .ok (Int64.ofNat p) m := by
    rw [labelTarget, found]
    rfl
  refine ⟨fun isOp pc m => ?_, fun isOp pc m w m' popped => ?_, fun isOp pc m m' pushed => ?_⟩
  · simp only [step, isOp, bind_run, target, pure_run]
  · simp only [step, isOp, bind_run, popped]
    cases w.isTrue
    · simp only [Bool.false_eq_true, if_false, bind_run, target, pure_run]
    · rfl
  · simp only [step, isOp, bind_run, target, pushed, pure_run]

theorem Halt.Finds.mono {P Q : Int64 → Prop} {halt : Halt} (finds : halt.Finds P) (weaker : ∀ l, P l → Q l) :
    halt.Finds Q := by
  cases halt with
  | crash => trivial
  | fault f =>
    cases f with
    | unresolvedLabel l => exact weaker l finds
    | duplicateLabel d => exact finds
    | _ => trivial

namespace Machine

variable {image : Image} {limits : Limits} {m : Machine} {fuel : Nat} {e : RuntimeError}

/-- A run that fails for a label has come to a jump whose label the program does not define. -/
theorem execute_finds (failed : (execute image limits fuel m).1 = .failed e) :
    (Halt.fault e.fault).Finds fun l =>
      ∃ i ∈ image.instructions, i.op.isJump = true ∧ l = i.a ∧ image.labels.get? l = none := by
  induction fuel generalizing m with
  | zero => cases failed
  | succ fuel ih =>
    unfold execute at failed
    split at failed
    · cases failed
    · split at failed
      · cases failed
      · split at failed
        · cases failed
        · rename_i i fetched
          have finds := (Exec.Local.step image m.pc i).finds { m with steps := m.steps + 1 }
          dsimp only at failed
          split at failed
          · cases failed
            trivial
          · split at failed
            · cases failed
            · split at failed
              · exact ih failed
              · cases failed
              · rename_i ran
                rw [ran] at finds
                cases failed
                exact finds.mono fun l missed => ⟨i, Array.mem_of_getElem? fetched, missed⟩
              · cases failed

/-- A run of a program that can be loaded fails in its steps. -/
theorem run_failed {c : Code} (loaded : c.image = .ok image) (failed : (m.run c limits fuel).1.finish = .failed e) :
    (execute image limits fuel m.reset).1 = .failed e := by
  unfold run at failed
  rw [loaded] at failed
  dsimp only at failed
  split at failed
  · cases failed
  · cases failed
  · exact failed

end Machine

/-- The check of labels is sound for runs. If the labels of a program check, then it can be loaded, no run of it on any
machine fails for a label that is missing or defined twice, and every jump goes on at the only definition of its label.
And a run of any program ends before its first step, with the machine as it was, exactly if the program defines a label
twice. -/
theorem checked_labels_resolve (c : Code) :
    (c.checkLabels = .ok () →
      (∀ (m : Machine) limits fuel e, (m.run c limits fuel).1.finish = .failed e →
        (∀ l, e.fault ≠ .unresolvedLabel l) ∧ ∀ d, e.fault ≠ .duplicateLabel d) ∧
      ∃ image, c.image = .ok image ∧ ∀ i ∈ c.instructions, i.op.isJump = true →
        ∃ p, (∀ q, c.DefinesAt i.a q ↔ q = p) ∧ Exec.GoesOn image i (Int64.ofNat p)) ∧
    ∀ (m : Machine) limits fuel,
      (∃ d, m.run c limits fuel = (⟨.failed ⟨0, .lbl, .duplicateLabel d⟩, []⟩, m)) ↔ c.DefinesTwice := by
  refine ⟨fun checked => ?_, fun m limits fuel => ?_⟩
  · have loaded := Code.image_of_nodup (Code.checkLabels_eq_ok_iff.mp checked).1
    refine ⟨fun m limits fuel e failed => ?_, _, loaded, fun i member jumps => ?_⟩
    · have finds := (Machine.execute_finds (Machine.run_failed loaded failed)).mono (Q := fun _ => False) (by
        rintro _ ⟨i, member, jumps, rfl, missed⟩
        obtain ⟨p, found, _⟩ := Code.target_of_checkLabels checked member jumps
        cases missed.symm.trans found)
      refine ⟨fun l same => ?_, fun d same => ?_⟩ <;> rw [same] at finds <;> exact finds
    · obtain ⟨p, found, unique⟩ := Code.target_of_checkLabels checked member jumps
      exact ⟨p, unique, Exec.goesOn found⟩
  · rw [← Code.image_eq_error_iff]
    constructor
    · rintro ⟨d, run⟩
      cases loaded : c.image with
      | error d => exact ⟨d, rfl⟩
      | ok image =>
        have failed : (m.run c limits fuel).1.finish = .failed ⟨0, .lbl, .duplicateLabel d⟩ := by rw [run]
        exact False.elim (Machine.execute_finds (Machine.run_failed loaded failed))
    · rintro ⟨d, fails⟩
      exact ⟨d, by rw [Machine.run, fails]⟩

/-- A program that calls a procedure, returns from it and leaves a loop. -/
def roundTrip : Code where
  instructions := #[{ op := .jmp, a := 2 }, { op := .lbl, a := 1 }, { op := .enf, a := 1 }, { op := .ret, a := 1 },
    { op := .lbl, a := 2 }, { op := .cfu, a := 1 }, { op := .ldc }, { op := .jof, a := 3 }, { op := .jmp, a := 2 },
    { op := .lbl, a := 3 }, { op := .stp }]

theorem roundTrip_resolves : roundTrip.checkLabels = .ok () ∧ ¬roundTrip.DefinesTwice ∧
    ∀ (m : Machine) limits fuel e, (m.run roundTrip limits fuel).1.finish = .failed e → ∀ l, e.fault ≠ .unresolvedLabel l := by
  have checked : roundTrip.checkLabels = .ok () := by decide
  obtain ⟨sound, _⟩ := checked_labels_resolve roundTrip
  refine ⟨checked, ?_, fun m limits fuel e failed => ((sound checked).1 m limits fuel e failed).1⟩
  rw [Code.definesTwice_iff]
  decide

end LyaLang
