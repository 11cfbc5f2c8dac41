import LyaLang.Proofs.Compile
import LyaLang.Proofs.Machine.Overrun
import LyaLang.Proofs.Machine.Run

/-! # Crashes of compiled programs

The machine checks every access before it makes it, but some of the checks are sums that wrap around. A run of
compiled code crashes exactly if it reaches an instruction whose block ends beyond the machine numbers, or
returns to a negative address; in every other case it goes on, stops, or ends with a fault.
-/

namespace LyaLang

open Ast

variable {code : Code}

/-! ## The operands of compiled code -/

/-- What occurs in the code of a tree that is not too large has regular operands. -/
theorem Draft.Occurs.regular {defined : Int64 → Prop} {nodes : List (Node Note)} {fs : List Frame} {d : Draft}
    (occurs : d.Occurs defined nodes fs) (small : weigh nodes ≤ 2 ^ 64) (pool : Bytes → Int64) :
    (d.resolve pool).Regular := by
  cases occurs with
  | ordinary ordinary =>
    have same : (d.resolve pool).op = d.instruction.op := by
      unfold Draft.resolve
      split <;> rfl
    have other := Draft.op_isOrdinary ordinary
    rw [← same] at other
    unfold Instruction.Regular
    cases op : (d.resolve pool).op <;> first | trivial | rw [op] at other; cases other
  | @access op | @string op => cases op <;> trivial
  | store => exact rfl
  | reserve nonneg | release nonneg => exact nonneg
  | @leave outer f innermost few =>
    have exact : (Int64.ofNat f.params).toInt = f.params := Int64.toInt_ofNat_of_lt (by omega)
    have two : (2 : Int64).toInt = 2 := by decide
    have sum : (Int64.ofNat f.params + 2).toInt = f.params + 2 := by
      rw [toInt_add_of_fits] <;> omega
    refine ⟨Int64.le_iff_toInt_le.mpr ?_, Int64.le_iff_toInt_le.mpr ?_⟩
    · exact exact ▸ Int.natCast_nonneg f.params
    · change 0 ≤ (Int64.ofNat f.params + 2).toInt
      omega
  | enter | label | jump | branch | call => trivial

/-- The instructions of a compiled text have regular operands. -/
theorem Compiled.regular {source : Bytes} {p : Program Note} (compiled : Compiled source p code)
    (short : source.length < 2 ^ 63) : ∀ i ∈ code.instructions, i.Regular := by
  have weight := compiled.weigh_le
  intro i member
  rw [← Array.mem_toList_iff, compiled.renders.instructions] at member
  obtain ⟨d, isDraft, rfl⟩ := List.mem_map.mp member
  obtain ⟨fs, occurs⟩ := compiled.occurs isDraft
  exact occurs.regular (by omega) _

/-! ## Runs -/

namespace Machine

variable {image : Image} {limits : Limits} {m : Machine}

/-- The next step of a machine reaches outside memory or outside the program. -/
def Overruns (image : Image) (limits : Limits) (m : Machine) : Prop :=
  (m.pc < Int64.ofNat image.instructions.size ∧ m.pc < 0) ∨
    ∃ i, m.fetch? image limits = some i ∧ i.Overruns image m

theorem fetch?_mem {i : Instruction} (fetched : m.fetch? image limits = some i) : i ∈ image.instructions := by
  unfold fetch? at fetched
  split at fetched
  · cases fetched
  · exact Array.mem_of_getElem? fetched

theorem Sane.tick (sane : m.Sane) : m.tick.Sane := ⟨sane.low, sane.high, sane.fits⟩

theorem sane_reset (fits : m.memory.size < 2 ^ 63) : m.reset.Sane := by
  have same : m.reset.memory.size = m.memory.size := Array.size_replicate
  refine ⟨Int64.le_refl _, ?_, by rw [same]; exact fits⟩
  rw [Int64.lt_iff_toInt_lt, toInt_size (by rw [same]; exact fits)]
  change (-1) < _
  omega

/-- A step keeps a machine sane. -/
theorem Sane.next (sane : m.Sane) (regular : ∀ i ∈ image.instructions, i.Regular) {m' : Machine}
    (isNext : m.next? image limits = some m') : m'.Sane := by
  unfold next? at isNext
  split at isNext
  · cases isNext
  · rename_i i fetched
    have safe := Exec.step_safe sane.tick image m.pc (regular i (fetch?_mem fetched))
    split at isNext
    · rename_i pc next run
      rw [run] at safe
      cases isNext
      exact ⟨safe.1.low, safe.1.high, safe.1.fits⟩
    · cases isNext

/-- At its end a run has crashed exactly if the machine overruns; otherwise the machine is still sane. -/
theorem Sane.stop (sane : m.Sane) (regular : ∀ i ∈ image.instructions, i.Regular) :
    ((m.stop image limits).1 = .crashed ↔ m.Overruns image limits) ∧
      ((m.stop image limits).1 ≠ .crashed → (m.stop image limits).2.Sane) := by
  unfold Overruns
  cases fetched : m.fetch? image limits with
  | none =>
    obtain ⟨crashes, same | same⟩ := stop_of_not_fetch fetched
    · simpa [crashes, same] using fun _ => sane
    · simpa [crashes, same] using fun _ => sane.tick
  | some i =>
    obtain ⟨_, nonneg, _⟩ := fetch?_eq_some.mp fetched
    have safe := Exec.step_safe sane.tick image m.pc (regular i (fetch?_mem fetched))
    have crashes : (m.pc < Int64.ofNat image.instructions.size ∧ m.pc < 0 ∨
        ∃ i', some i = some i' ∧ i'.Overruns image m) ↔ i.Overruns image m := by
      simp [Int64.not_lt.mpr nonneg]
    rw [crashes, stop_of_fetch fetched]
    cases run : Exec.step image m.pc i m.tick with
    | ok next m' =>
      rw [run] at safe
      obtain ⟨sane', _, no⟩ := safe
      cases next <;> exact ⟨iff_of_false nofun no, fun _ => ⟨sane'.low, sane'.high, sane'.fits⟩⟩
    | error halt m' =>
      rw [run] at safe
      cases halt with
      | fault f => exact ⟨iff_of_false nofun safe.2.2, fun _ => safe.1⟩
      | crash => exact ⟨iff_of_true rfl safe, fun fine => absurd rfl fine⟩

/-- A run from a sane machine crashes exactly if it reaches a machine that overruns. -/
theorem Sane.execute_crashed (sane : m.Sane) (regular : ∀ i ∈ image.instructions, i.Regular) (fuel : Nat) :
    (execute image limits fuel m).1 = .crashed ↔
      ∃ k < fuel, ∃ m', m.after image limits k = some m' ∧ m'.Overruns image limits := by
  have reach {k m'} : m.after image limits k = some m' → m'.Sane :=
    after_induction (fun _ _ sane isNext => sane.next regular isNext) sane
  constructor
  · intro crashed
    obtain ⟨k, less, m', reached, _, same⟩ := exists_stop (by rw [crashed]; nofun)
    exact ⟨k, less, m', reached, ((reach reached).stop regular).1.mp (same ▸ crashed)⟩
  · rintro ⟨k, less, m', reached, overruns⟩
    have crashed := ((reach reached).stop regular).1.mpr overruns
    have last : m'.next? image limits = none := by
      cases isNext : m'.next? image limits with
      | none => rfl
      | some m'' =>
        rw [Machine.stop, execute_succ, isNext] at crashed
        cases crashed
    obtain ⟨rest, rfl⟩ := Nat.exists_eq_add_of_lt less
    rw [Nat.add_assoc, execute_of_after reached, execute_succ, last]
    exact crashed

/-- A run that does not crash leaves a sane machine. -/
theorem Sane.execute_sane (sane : m.Sane) (regular : ∀ i ∈ image.instructions, i.Regular) {fuel : Nat}
    (fine : (execute image limits fuel m).1 ≠ .crashed) : (execute image limits fuel m).2.Sane := by
  induction fuel generalizing m with
  | zero => exact sane
  | succ fuel ih =>
    rw [execute_succ] at fine ⊢
    cases isNext : m.next? image limits with
    | none =>
      rw [isNext] at fine
      exact (sane.stop regular).2 fine
    | some m' =>
      rw [isNext] at fine
      exact ih (sane.next regular isNext) fine

theorem Sane.stack?_isSome (sane : m.Sane) : m.stack?.isSome = true := by
  have low := sane.low
  have high := sane.high
  have fine : 0 ≤ m.sp + 1 ∧ m.sp + 1 ≤ Int64.ofNat m.memory.size := by
    unfold size at high
    grind
  simp [stack?, fine]

/-- A loaded program crashes exactly if its execution does. -/
theorem run_crashed_iff (loaded : code.image = .ok image) (fits : m.memory.size < 2 ^ 63)
    (regular : ∀ i ∈ image.instructions, i.Regular) (fuel : Nat) :
    (run code limits fuel m).1.finish = .crashed ↔ (execute image limits fuel m.reset).1 = .crashed := by
  unfold run
  rw [loaded]
  dsimp only
  cases finish : (execute image limits fuel m.reset).1 with
  | crashed => simp
  | _ =>
    have sane : (execute image limits fuel m.reset).2.Sane :=
      (sane_reset fits).execute_sane regular (by rw [finish]; nofun)
    obtain ⟨stack, isStack⟩ := Option.isSome_iff_exists.mp sane.stack?_isSome
    simp [isStack]

end Machine

/-- Code whose labels can be resolved can be loaded. -/
theorem Code.image_of_checkLabels (resolved : code.checkLabels = .ok ()) :
    ∃ labels, code.labels = .ok labels ∧ code.image = .ok ⟨code.instructions, labels, code.strings⟩ := by
  unfold Code.checkLabels at resolved
  unfold Code.image
  cases found : code.labels with
  | error d =>
    rw [found] at resolved
    cases resolved
  | ok labels => exact ⟨labels, rfl, rfl⟩

/-- An accepted program crashes a machine exactly if its run reaches an instruction that overruns, or returns to
a negative address. -/
theorem crashes_iff_overruns {source : Bytes} (short : source.length < 2 ^ 63) {made : Compilation} {code : Code}
    (compiled : compile source = .ok made) (linked : made.result = .ok code) (limits : Limits) (fuel : Nat)
    {m : Machine} (fits : m.memory.size < 2 ^ 63) :
    (m.run code limits fuel).1.finish = .crashed ↔
      ∃ image, code.image = .ok image ∧
        ∃ k < fuel, ∃ m', m.reset.after image limits k = some m' ∧ m'.Overruns image limits := by
  obtain ⟨_, known, resolved⟩ := compiled_of_ok compiled linked
  obtain ⟨labels, _, loaded⟩ := Code.image_of_checkLabels resolved
  have regular := known.regular short
  rw [Machine.run_crashed_iff loaded fits regular, (Machine.sane_reset fits).execute_crashed regular]
  constructor
  · intro reaches
    exact ⟨_, loaded, reaches⟩
  · rintro ⟨image, loaded', reaches⟩
    obtain rfl := Except.ok.inj (loaded.symm.trans loaded')
    exact reaches

/-- A procedure whose frame is too large for the machine numbers crashes when it is called. -/
theorem crashes_at_large_frame : ∃ made code,
    compile "f: proc(); dcl a array[1:9223372036854775807] int; end; f();" = .ok made ∧ made.result = .ok code ∧
      ((Machine.create 64 []).run code {} 20).1.finish = .crashed ∧
      ∃ image, code.image = .ok image ∧
        ∃ k < 20, ∃ m', (Machine.create 64 []).reset.after image {} k = some m' ∧ m'.Overruns image {} := by
  obtain ⟨made, code, compiled, linked, crashed⟩ := @exists_accepted
    "f: proc(); dcl a array[1:9223372036854775807] int; end; f();"
    (fun _ code => ((Machine.create 64 []).run code {} 20).1.finish == .crashed) (by decide +kernel)
  have crashed : ((Machine.create 64 []).run code {} 20).1.finish = .crashed := beq_iff_eq.mp crashed
  exact ⟨made, code, compiled, linked, crashed,
    (crashes_iff_overruns (by decide +kernel) compiled linked {} 20 (by decide +kernel)).mp crashed⟩

end LyaLang
