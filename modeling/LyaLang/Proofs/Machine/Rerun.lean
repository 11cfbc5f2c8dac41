import LyaLang.Proofs.Machine.Labels
import LyaLang.Proofs.Machine.Local

/-! # Runs side by side

Two runs of one program. A run with a step limit is the run without one, cut off: up to the limit the two do the same,
and at the limit the run stops before the next instruction, with the machine that the other has there. And a machine
that has run other programs runs a program as a fresh machine does on the input that is left.
-/

namespace LyaLang

namespace Machine

variable {image : Image} {limits : Limits} {m m' : Machine} {k fuel : Nat}

/-! ## Counting steps -/

theorem steps_next? (isNext : m.next? image limits = some m') : m'.steps = m.steps + 1 := by
  unfold next? at isNext
  split at isNext
  · cases isNext
  · rename_i i fetched
    have kept := (Exec.Local.step image m.pc i).keeps m.tick
    split at isNext
    · rename_i pc left ran
      rw [ran] at kept
      cases isNext
      exact kept.steps
    · cases isNext

theorem steps_stop_of_fetch {i : Instruction} (fetched : m.fetch? image limits = some i) :
    (m.stop image limits).2.steps = m.steps + 1 := by
  have kept := (Exec.Local.step image m.pc i).keeps m.tick
  rw [stop_of_fetch fetched]
  cases ran : Exec.step image m.pc i m.tick with
  | ok next left =>
    rw [ran] at kept
    cases next <;> exact kept.steps
  | error halt left =>
    rw [ran] at kept
    cases halt <;> exact kept.steps

/-- Without a limit, a run that ends before an instruction leaves the machine as it is, under any limits. -/
theorem stop_of_not_fetch_unlimited (ends : m.fetch? image {} = none) :
    ∃ finish, finish ≠ .unfinished ∧ ∀ limits, m.stop image limits = (finish, m) := by
  unfold stop execute
  by_cases done : m.pc ≥ Int64.ofNat image.instructions.size
  · exact ⟨.finished, ne_of_beq_false rfl, fun _ => if_pos done⟩
  · by_cases negative : m.pc < 0
    · exact ⟨.crashed, ne_of_beq_false rfl, fun _ => by rw [if_neg done, if_pos negative]⟩
    · cases found : image.instructions[m.pc.toNatClampNeg]? with
      | none => exact ⟨.finished, ne_of_beq_false rfl, fun _ => by rw [if_neg done, if_neg negative]⟩
      | some i =>
        have fetched : m.fetch? image {} = some i :=
          fetch?_eq_some.mpr ⟨Int64.not_le.mp done, Int64.not_lt.mp negative, rfl, found⟩
        cases ends.symm.trans fetched

theorem fetch?_eq_none (ends : m.fetch? image {} = none) : m.fetch? image limits = none := by
  cases fetched : m.fetch? image limits with
  | none => rfl
  | some i =>
    obtain ⟨inside, nonneg, _, found⟩ := fetch?_eq_some.mp fetched
    cases ends.symm.trans (fetch?_eq_some.mpr ⟨inside, nonneg, rfl, found⟩)

theorem stop_ne_unfinished (last : m.next? image {} = none) : (m.stop image {}).1 ≠ .unfinished := by
  cases fetched : m.fetch? image {} with
  | none =>
    obtain ⟨finish, ends, same⟩ := stop_of_not_fetch_unlimited fetched
    rw [same]
    exact ends
  | some i =>
    unfold next? at last
    rw [fetched] at last
    dsimp only at last
    rw [stop_of_fetch fetched]
    cases ran : Exec.step image m.pc i m.tick with
    | ok next left =>
      rw [ran] at last
      cases next with
      | none => exact ne_of_beq_false rfl
      | some pc => cases last
    | error halt left => cases halt <;> exact ne_of_beq_false rfl

theorem steps_le_execute : m.steps ≤ (execute image {} fuel m).2.steps := by
  induction fuel generalizing m with
  | zero => exact le_rfl
  | succ fuel ih =>
    rw [execute_succ]
    cases isNext : m.next? image {} with
    | some next =>
      have counted := steps_next? isNext
      have later := ih (m := next)
      dsimp only
      omega
    | none =>
      cases fetched : m.fetch? image {} with
      | some i =>
        rw [steps_stop_of_fetch fetched]
        exact Nat.le_succ _
      | none =>
        obtain ⟨_, _, same⟩ := stop_of_not_fetch_unlimited fetched
        rw [same]

/-! ## Below the limit -/

theorem fetch?_limited (below : m.steps < k) : m.fetch? image { maxSteps := k } = m.fetch? image {} := by
  have goes : Limits.stops { maxSteps := k } (m.steps + 1) = Limits.stops {} (m.steps + 1) := by
    simp [Limits.stops]
    omega
  rw [fetch?, fetch?, goes]

theorem next?_limited (below : m.steps < k) : m.next? image { maxSteps := k } = m.next? image {} := by
  rw [next?, next?, fetch?_limited below]

/-- A run that ends below a limit is the same under the limit. -/
theorem execute_limited (ends : (execute image {} fuel m).1 ≠ .unfinished)
    (below : (execute image {} fuel m).2.steps ≤ k) :
    execute image { maxSteps := k } fuel m = execute image {} fuel m := by
  induction fuel generalizing m with
  | zero => rfl
  | succ fuel ih =>
    rw [execute_succ] at ends below ⊢
    rw [execute_succ]
    cases isNext : m.next? image {} with
    | some next =>
      rw [isNext] at ends below
      have counted := steps_next? isNext
      have later : next.steps ≤ (execute image {} fuel next).2.steps := steps_le_execute
      dsimp only at ends below
      rw [next?_limited (by omega), isNext]
      exact ih ends below
    | none =>
      rw [isNext] at below
      cases fetched : m.fetch? image {} with
      | some i =>
        rw [steps_stop_of_fetch fetched] at below
        rw [next?_limited below, isNext]
        rw [stop_of_fetch fetched, stop_of_fetch ((fetch?_limited below).trans fetched)]
      | none =>
        obtain ⟨_, _, same⟩ := stop_of_not_fetch_unlimited fetched
        rw [next?, fetch?_eq_none fetched]
        rw [same, same]

/-! ## At the limit -/

theorem execute_at_limit {i : Instruction} (fetched : m.fetch? image {} = some i) (positive : 0 < m.steps) :
    execute image { maxSteps := m.steps } (fuel + 1) m = (.failed ⟨m.pc, i.op, .stepLimit⟩, m.tick) := by
  obtain ⟨inside, nonneg, _, found⟩ := fetch?_eq_some.mp fetched
  have limited : (0 < (m.steps : Int) && (m.steps : Int) < (m.steps + 1 : Nat)) = true := by
    simp
    omega
  unfold execute
  rw [if_neg (Int64.not_le.mpr inside), if_neg (Int64.not_lt.mpr nonneg), found]
  dsimp only
  rw [if_pos limited]
  rfl

/-- A run that goes on beyond a limit stops there under the limit, before the next instruction. -/
theorem execute_beyond {count : Nat} (positive : 0 < k) (counts : m.steps + count = k)
    (beyond : ∀ fuel, (execute image {} fuel m).1 ≠ .unfinished → k < (execute image {} fuel m).2.steps) :
    ∃ m' i, m.after image {} count = some m' ∧ m'.fetch? image {} = some i ∧
      ∀ fuel, count < fuel → execute image { maxSteps := k } fuel m = (.failed ⟨m'.pc, i.op, .stepLimit⟩, m'.tick) := by
  induction count generalizing m with
  | zero =>
    subst counts
    cases fetched : m.fetch? image {} with
    | none =>
      obtain ⟨finish, ends, same⟩ := stop_of_not_fetch_unlimited fetched
      have later := beyond 1
      rw [← stop, same] at later
      exact absurd (later ends) (lt_irrefl _)
    | some i =>
      refine ⟨m, i, rfl, fetched, fun fuel more => ?_⟩
      obtain ⟨rest, rfl⟩ := Nat.exists_eq_add_of_lt more
      exact execute_at_limit fetched positive
  | succ count ih =>
    have below : m.steps < k := by omega
    cases isNext : m.next? image {} with
    | none =>
      have later := beyond 1 (stop_ne_unfinished isNext)
      have counted : (m.stop image {}).2.steps ≤ m.steps + 1 := by
        cases fetched : m.fetch? image {} with
        | some i => exact le_of_eq (steps_stop_of_fetch fetched)
        | none =>
          obtain ⟨_, _, same⟩ := stop_of_not_fetch_unlimited fetched
          rw [same]
          exact Nat.le_succ _
      rw [← stop] at later
      omega
    | some next =>
      have counted := steps_next? isNext
      have beyond' : ∀ fuel, (execute image {} fuel next).1 ≠ .unfinished → k < (execute image {} fuel next).2.steps := by
        intro fuel ends
        have later := beyond (fuel + 1)
        rw [execute_succ, isNext] at later
        exact later ends
      obtain ⟨m', i, reached, fetched, stops⟩ := ih (by omega) beyond'
      refine ⟨m', i, ?_, fetched, fun fuel more => ?_⟩
      · rw [after, isNext]
        exact reached
      · obtain ⟨fuel, rfl⟩ := Nat.exists_eq_succ_of_ne_zero (Nat.ne_zero_of_lt more)
        rw [execute_succ, next?_limited below, isNext]
        exact stops fuel (Nat.lt_of_succ_lt_succ more)

end Machine

/-- A step limit only cuts a run off. A program that does not load fails alike. A run that ends within the limit, in
whatever way, is the same under the limit. Any other run stops at the limit with a fault before the instruction that
would be the next, on the machine that the run without a limit has there; it returns the fault if the stack pointer lies
in memory, and crashes if it does not. -/
theorem step_limit_truncates (code : Code) (m : Machine) {k : Nat} (positive : 0 < k) :
    (∀ d, code.image = .error d → ∀ limits fuel, m.run code limits fuel = m.run code {} fuel) ∧
    ∀ image, code.image = .ok image →
      (∀ fuel, (Machine.execute image {} fuel m.reset).1 ≠ .unfinished →
        (Machine.execute image {} fuel m.reset).2.steps ≤ k →
        m.run code { maxSteps := k } fuel = m.run code {} fuel) ∧
      ((∀ fuel, (Machine.execute image {} fuel m.reset).1 ≠ .unfinished →
          k < (Machine.execute image {} fuel m.reset).2.steps) →
        ∃ m' i, m.reset.after image {} k = some m' ∧ m'.fetch? image {} = some i ∧ ∀ fuel, k < fuel →
          m.run code { maxSteps := k } fuel =
            match m'.stack? with
            | some stack => (⟨.failed ⟨m'.pc, i.op, .stepLimit⟩, stack⟩, m'.tick)
            | none => (⟨.crashed, []⟩, m'.tick)) := by
  refine ⟨fun d broken limits fuel => ?_, fun image loaded => ⟨fun fuel ends below => ?_, fun beyond => ?_⟩⟩
  · rw [Machine.run, Machine.run, broken]
  · rw [Machine.run, Machine.run, loaded]
    dsimp only
    rw [Machine.execute_limited ends below]
  · obtain ⟨m', i, reached, fetched, stops⟩ := Machine.execute_beyond positive (Nat.zero_add k) beyond
    refine ⟨m', i, reached, fetched, fun fuel more => ?_⟩
    rw [Machine.run, loaded]
    dsimp only
    rw [stops fuel more]
    have same : m'.tick.stack? = m'.stack? := rfl
    rw [same]
    cases m'.stack? <;> rfl

/-- A program that moves the stack pointer past a memory of ten words and back. -/
def excursion : Code where
  instructions := #[{ op := .dlc, a := -11 }, { op := .dlc, a := 11 }, { op := .stp }]

/-- The program ends within the limit of three steps. -/
theorem excursion_ends_within_limit :
    (Machine.create 10 []).run excursion { maxSteps := 3 } 4 = (Machine.create 10 []).run excursion {} 4 := by
  have ends : (Machine.execute ⟨excursion.instructions, [], excursion.strings⟩ {} 4 (Machine.create 10 []).reset).1 = .finished ∧
      (Machine.execute ⟨excursion.instructions, [], excursion.strings⟩ {} 4 (Machine.create 10 []).reset).2.steps = 3 := by
    decide +kernel
  refine (((step_limit_truncates excursion (.create 10 []) (by decide)).2 _ rfl).1 4 ?_ ?_)
  · exact ne_of_beq_false rfl
  · exact le_of_eq ends.2

/-- Under a limit of one step it crashes where it should stop with a fault, although it ends without a limit. -/
theorem excursion_crashes_at_limit :
    ((Machine.create 10 []).run excursion {} 4).1.finish = .finished ∧
      ((Machine.create 10 []).run excursion { maxSteps := 1 } 4).1.finish = .crashed := by
  decide +kernel

/-! ## A machine that is used again -/

namespace Machine

variable {image : Image} {limits : Limits} {m : Machine} {fuel : Nat}

/-- A run does not depend on what was printed before it; it keeps the size of memory and takes from the front of the
input. -/
theorem execute_local (out : Array UInt8) :
    execute image limits fuel (m.behind out) =
        ((execute image limits fuel m).1, (execute image limits fuel m).2.behind out) ∧
      (execute image limits fuel m).2.memory.size = m.memory.size ∧
      (execute image limits fuel m).2.input <:+ m.input := by
  induction fuel generalizing m with
  | zero => exact ⟨rfl, rfl, List.suffix_rfl⟩
  | succ fuel ih =>
    have alike : (m.behind out).pc = m.pc ∧ (m.behind out).steps = m.steps := ⟨rfl, rfl⟩
    unfold execute
    rw [alike.1, alike.2]
    split
    · exact ⟨rfl, rfl, List.suffix_rfl⟩
    · split
      · exact ⟨rfl, rfl, List.suffix_rfl⟩
      · cases image.instructions[m.pc.toNatClampNeg]? with
        | none => exact ⟨rfl, rfl, List.suffix_rfl⟩
        | some i =>
          dsimp only
          split
          · exact ⟨rfl, rfl, List.suffix_rfl⟩
          · split
            · exact ⟨rfl, rfl, List.suffix_rfl⟩
            · have kept := (Exec.Local.step image m.pc i).keeps { m with steps := m.steps + 1 }
              have blind : Exec.step image m.pc i { m.behind out with pc := m.pc, steps := m.steps + 1 } = _ :=
                (Exec.Local.step image m.pc i).blind out { m with steps := m.steps + 1 }
              rw [blind]
              cases ran : Exec.step image m.pc i { m with steps := m.steps + 1 } with
              | ok next left =>
                rw [ran] at kept
                cases next with
                | none => exact ⟨rfl, kept.size, kept.input⟩
                | some pc =>
                  obtain ⟨same, size, input⟩ := ih (m := { left with pc })
                  exact ⟨same, size.trans kept.size, input.trans kept.input⟩
              | error halt left =>
                rw [ran] at kept
                cases halt <;> exact ⟨rfl, kept.size, kept.input⟩

/-- A program runs as on a machine without earlier output. -/
theorem run_behind {code : Code} (loaded : code.image = .ok image) {n : Machine} (start : m.reset = n.reset.behind m.output) :
    m.run code limits fuel = ((n.run code limits fuel).1, (n.run code limits fuel).2.behind m.output) := by
  unfold run
  rw [loaded]
  dsimp only
  rw [start, (execute_local m.output).1]
  have same (left : Machine) : (left.behind m.output).stack? = left.stack? := rfl
  rw [same]
  cases (execute image limits fuel n.reset).1 <;> cases (execute image limits fuel n.reset).2.stack? <;> rfl

theorem run_keeps (code : Code) :
    (m.run code limits fuel).2.memory.size = m.memory.size ∧ (m.run code limits fuel).2.input <:+ m.input := by
  unfold run
  cases code.image with
  | error d => exact ⟨rfl, List.suffix_rfl⟩
  | ok image =>
    obtain ⟨_, size, input⟩ := @execute_local image limits m.reset fuel #[]
    have size' : (execute image limits fuel m.reset).2.memory.size = m.memory.size := size.trans Array.size_replicate
    dsimp only
    cases (execute image limits fuel m.reset).1 <;> cases (execute image limits fuel m.reset).2.stack? <;>
      exact ⟨size', input⟩

/-- The machine after runs, one after the other. -/
def afterRuns (m : Machine) (past : List (Code × Limits × Nat)) : Machine :=
  past.foldl (fun m r => (m.run r.1 r.2.1 r.2.2).2) m

theorem afterRuns_keeps (past : List (Code × Limits × Nat)) :
    (m.afterRuns past).memory.size = m.memory.size ∧ (m.afterRuns past).input <:+ m.input := by
  induction past generalizing m with
  | nil => exact ⟨rfl, List.suffix_rfl⟩
  | cons r past ih =>
    obtain ⟨size, input⟩ := @run_keeps r.2.1 m r.2.2 r.1
    obtain ⟨size', input'⟩ := ih
    exact ⟨size'.trans size, input'.trans input⟩

end Machine

/-- A machine can be used again: after any runs of any programs, however they ended, a program whose labels are defined
once runs as on a fresh machine of the same size whose input is the part that was left. What it prints comes after what
was printed before. -/
theorem used_machine_runs_as_fresh (size : Int) (input : Bytes) (past : List (Code × Limits × Nat)) {code : Code}
    (unique : code.definitions.Nodup) (limits : Limits) (fuel : Nat) :
    let used := (Machine.create size input).afterRuns past
    let fresh := Machine.create size used.input
    used.input <:+ input ∧ (used.run code limits fuel).1 = (fresh.run code limits fuel).1 ∧
      (used.run code limits fuel).2 = (fresh.run code limits fuel).2.behind used.output := by
  intro used fresh
  obtain ⟨size', input'⟩ := Machine.afterRuns_keeps past
  obtain ⟨image, loaded⟩ : ∃ image, code.image = .ok image := by
    unfold Code.image
    rw [code.labels_spec.1 unique]
    exact ⟨_, rfl⟩
  have start : used.reset = fresh.reset.behind used.output := by
    have memory : Array.replicate used.memory.size ({}) = fresh.reset.memory :=
      congrArg (fun count => Array.replicate count ({} : Word)) size'
    have output : used.output = used.output ++ (#[]) := Array.append_empty.symm
    exact congrArg₂ (fun memory output => { used.reset with memory, output }) memory output
  have runs : used.run code limits fuel = _ := Machine.run_behind loaded start
  exact ⟨input', (Prod.ext_iff.mp runs).1, (Prod.ext_iff.mp runs).2⟩

/-- A program that reads and prints lines, each time in a new frame. -/
def echo : Code where
  instructions := #[{ op := .lbl, a := 3 }, { op := .alc, a := 2 }, { op := .rdv }, { op := .prv }, { op := .enf, a := 2 },
    { op := .jmp, a := 3 }]

/-- After a run that stopped at the step limit and one that found no room, the program reads the fourth line. -/
theorem echo_runs_as_fresh : echo.definitions.Nodup ∧
    let used := (Machine.create 6 "7\n8\n9\n5").afterRuns [(echo, { maxSteps := 7 }, 20), (echo, {}, 20)]
    let fresh := Machine.create 6 "5"
    used.output = #[55, 56, 57] ∧ (used.run echo { maxSteps := 7 } 20).1 = (fresh.run echo { maxSteps := 7 } 20).1 ∧
      (used.run echo { maxSteps := 7 } 20).2 = (fresh.run echo { maxSteps := 7 } 20).2.behind used.output := by
  have unique : echo.definitions.Nodup := by decide
  have past : ((Machine.create 6 "7\n8\n9\n5").afterRuns [(echo, { maxSteps := 7 }, 20), (echo, {}, 20)]).input = "5" ∧
      ((Machine.create 6 "7\n8\n9\n5").afterRuns [(echo, { maxSteps := 7 }, 20), (echo, {}, 20)]).output =
        #[55, 56, 57] := by decide +kernel
  obtain ⟨_, outcome, left⟩ := used_machine_runs_as_fresh 6 "7\n8\n9\n5"
    [(echo, { maxSteps := 7 }, 20), (echo, {}, 20)] unique { maxSteps := 7 } 20
  rw [past.1] at outcome left
  exact ⟨unique, past.2, outcome, left⟩

end LyaLang
