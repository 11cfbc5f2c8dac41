import LyaLang.Machine.Run

/-! # Runs step by step

The machine after a number of steps, and what a run comes to in terms of it: a run ends at the first machine
that has no next one, and how it ends there does not depend on the steps before.
-/

namespace LyaLang

/-- Whether a run stops before an instruction with a number: at the step limit, or when it notices that it
was canceled. -/
def Limits.stops (limits : Limits) (steps : Nat) : Bool :=
  (0 < limits.maxSteps && limits.maxSteps < steps) || (limits.canceled && steps % cancelInterval == 0)

namespace Machine

/-- The machine with one more instruction begun. -/
def tick (m : Machine) : Machine := { m with steps := m.steps + 1 }

/-- The instruction that a machine runs next, unless its run ends before. -/
def fetch? (image : Image) (limits : Limits) (m : Machine) : Option Instruction :=
  if m.pc ≥ Int64.ofNat image.instructions.size || m.pc < 0 || limits.stops (m.steps + 1) then none
  else image.instructions[m.pc.toNatClampNeg]?

/-- The machine after its next instruction, if its run goes on. -/
def next? (image : Image) (limits : Limits) (m : Machine) : Option Machine :=
  match m.fetch? image limits with
  | none => none
  | some i =>
    match Exec.step image m.pc i m.tick with
    | .ok (some pc) m' => some { m' with pc }
    | _ => none

/-- The machine after a number of instructions, if its run gets that far. -/
def after (image : Image) (limits : Limits) : Nat → Machine → Option Machine
  | 0, m => some m
  | k + 1, m => (m.next? image limits).bind (after image limits k)

variable {image : Image} {limits : Limits} {m : Machine}

/-- How a run ends at a machine that has no next one. -/
def stop (image : Image) (limits : Limits) (m : Machine) : RunEnd × Machine := execute image limits 1 m

theorem fetch?_eq_some {i : Instruction} : m.fetch? image limits = some i ↔
    m.pc < Int64.ofNat image.instructions.size ∧ 0 ≤ m.pc ∧ limits.stops (m.steps + 1) = false ∧
      image.instructions[m.pc.toNatClampNeg]? = some i := by
  unfold fetch?
  split
  · rename_i ends
    simp only [reduceCtorEq, false_iff]
    rintro ⟨inside, nonneg, goes, _⟩
    simp [Int64.not_le.mpr inside, Int64.not_lt.mpr nonneg, goes] at ends
  · rename_i goes
    simp only [Bool.or_eq_true, decide_eq_true_eq, not_or, ge_iff_le, Int64.not_le, Int64.not_lt, Bool.not_eq_true] at goes
    simp [goes]

/-- How a run ends at an instruction. -/
theorem stop_of_fetch {i : Instruction} (fetched : m.fetch? image limits = some i) :
    m.stop image limits =
      match Exec.step image m.pc i m.tick with
      | .ok (some pc) m' => (.unfinished, { m' with pc })
      | .ok none m' => (.finished, { m' with pc := Int64.ofNat image.instructions.size })
      | .error (.fault f) m' => (.failed ⟨m.pc, i.op, f⟩, m')
      | .error .crash m' => (.crashed, m') := by
  obtain ⟨inside, nonneg, goes, found⟩ := fetch?_eq_some.mp fetched
  obtain ⟨unlimited, running⟩ := Bool.or_eq_false_iff.mp goes
  have ticked : { m with steps := m.steps + 1 } = m.tick := rfl
  unfold stop execute
  rw [if_neg (Int64.not_le.mpr inside), if_neg (Int64.not_lt.mpr nonneg), found]
  dsimp only
  rw [unlimited, running, ticked]
  cases Exec.step image m.pc i m.tick with
  | ok next m' => cases next <;> rfl
  | error halt m' => cases halt <;> rfl

/-- How a run ends before an instruction: only a negative place in the program crashes it. -/
theorem stop_of_not_fetch (ends : m.fetch? image limits = none) :
    ((m.stop image limits).1 = .crashed ↔ m.pc < Int64.ofNat image.instructions.size ∧ m.pc < 0) ∧
      ((m.stop image limits).2 = m ∨ (m.stop image limits).2 = m.tick) := by
  simp only [stop, execute]
  by_cases done : m.pc ≥ Int64.ofNat image.instructions.size
  · simp [done, Int64.not_lt.mpr done]
  · have inside := Int64.not_le.mp done
    by_cases negative : m.pc < 0
    · simp [done, negative, inside]
    · cases found : image.instructions[m.pc.toNatClampNeg]? with
      | none => simp [done, negative]
      | some i =>
        cases stops : limits.stops (m.steps + 1) with
        | false =>
          have fetched := fetch?_eq_some.mpr ⟨inside, Int64.not_lt.mp negative, stops, found⟩
          cases ends.symm.trans fetched
        | true =>
          simp only [if_neg done, if_neg negative]
          by_cases limited : 0 < limits.maxSteps && limits.maxSteps < (m.steps + 1 : Nat)
          · simp only [if_pos limited, negative, and_false, reduceCtorEq]
            exact ⟨trivial, .inr rfl⟩
          · have canceled : (limits.canceled && (m.steps + 1) % cancelInterval == 0) = true :=
              (Bool.or_eq_true_iff.mp stops).resolve_left limited
            simp only [if_neg limited, if_pos canceled, negative, and_false, reduceCtorEq]
            exact ⟨trivial, .inr rfl⟩

/-- A run goes on with the next machine, or ends. -/
theorem execute_succ (fuel : Nat) :
    execute image limits (fuel + 1) m =
      match m.next? image limits with
      | some m' => execute image limits fuel m'
      | none => m.stop image limits := by
  unfold stop next? fetch? Limits.stops
  simp only [execute]
  by_cases done : m.pc ≥ Int64.ofNat image.instructions.size
  · simp [done]
  · by_cases negative : m.pc < 0
    · simp [done, negative]
    · cases fetched : image.instructions[m.pc.toNatClampNeg]? with
      | none => simp [done, negative]
      | some i =>
        by_cases limited : 0 < limits.maxSteps && limits.maxSteps < (m.steps + 1 : Nat)
        · simp only [done, negative, limited, decide_false, Bool.or_self, Bool.true_or, Bool.or_true, if_false, if_true]
        · by_cases canceled : limits.canceled && (m.steps + 1) % cancelInterval == 0
          · simp only [done, negative, limited, canceled, decide_false, Bool.or_self, Bool.or_true, Bool.false_eq_true,
              if_false, if_true]
          · simp only [done, negative, limited, canceled, decide_false, Bool.or_self, Bool.false_eq_true, if_false, tick]
            cases Exec.step image m.pc i { m with steps := m.steps + 1 } with
            | ok next m' => cases next <;> rfl
            | error halt m' => cases halt <;> rfl

/-- A run goes on from the machine that it reaches. -/
theorem execute_of_after {k : Nat} {m' : Machine} (reached : m.after image limits k = some m') (fuel : Nat) :
    execute image limits (k + fuel) m = execute image limits fuel m' := by
  induction k generalizing m with
  | zero =>
    cases reached
    rw [Nat.zero_add]
  | succ k ih =>
    obtain ⟨next, isNext, reached⟩ := Option.bind_eq_some_iff.mp reached
    rw [Nat.succ_add_eq_add_succ, Nat.add_succ, execute_succ, isNext]
    exact ih reached

/-- A run that ends does so at a machine that has no next one. -/
theorem exists_stop {fuel : Nat} (ends : (execute image limits fuel m).1 ≠ .unfinished) :
    ∃ k < fuel, ∃ m', m.after image limits k = some m' ∧ m'.next? image limits = none ∧
      execute image limits fuel m = m'.stop image limits := by
  induction fuel generalizing m with
  | zero => exact absurd rfl ends
  | succ fuel ih =>
    rw [execute_succ] at ends ⊢
    cases isNext : m.next? image limits with
    | none => exact ⟨0, Nat.succ_pos _, m, rfl, isNext, rfl⟩
    | some next =>
      rw [isNext] at ends
      obtain ⟨k, less, m', reached, last, same⟩ := ih ends
      refine ⟨k + 1, Nat.succ_lt_succ less, m', ?_, last, same⟩
      rw [after, isNext]
      exact reached

/-- What every step keeps holds of every machine that a run reaches. -/
theorem after_induction {P : Machine → Prop} (step : ∀ m m', P m → m.next? image limits = some m' → P m')
    (start : P m) {k : Nat} {m' : Machine} (reached : m.after image limits k = some m') : P m' := by
  induction k generalizing m with
  | zero =>
    cases reached
    exact start
  | succ k ih =>
    obtain ⟨next, isNext, reached⟩ := Option.bind_eq_some_iff.mp reached
    exact ih (step m next start isNext) reached

end Machine

end LyaLang
