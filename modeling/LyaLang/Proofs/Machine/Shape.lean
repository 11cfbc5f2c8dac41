import LyaLang.Proofs.Evaluation
import LyaLang.Proofs.Machine.Crash
import LyaLang.Proofs.Machine.Local

/-! # The shape of the machine

In every run of every program that adds and removes words in bounded numbers, the stack pointer stays inside memory or
one below it, memory keeps its size and the display never gets shorter, also where an instruction stops at a fault
halfway. So the stack that a run returns is always defined. Beside what `Exec.step_safe` says of the operands of
compiled code, this takes the instruction that stores a block of any length.
-/

namespace LyaLang

/-- The words that an instruction adds or removes by its operand are a number between zero and `2 ^ 62`. -/
def Instruction.Bounded (i : Instruction) : Prop :=
  (i.op = .alc ∨ i.op = .dlc → 0 ≤ i.a.toInt ∧ i.a.toInt ≤ 2 ^ 62) ∧
    (i.op = .ret → 0 ≤ i.b.toInt ∧ i.b.toInt ≤ 2 ^ 62)

instance (i : Instruction) : Decidable i.Bounded := inferInstanceAs (Decidable (_ ∧ _))

theorem Instruction.Bounded.regular {i : Instruction} (bounded : i.Bounded) (other : i.op ≠ .smv) : i.Regular := by
  obtain ⟨op, a, b, k⟩ := i
  cases op
  case smv => exact absurd rfl other
  case alc => exact Int64.le_iff_toInt_le.mpr (bounded.1 (.inl rfl)).1
  case dlc => exact Int64.le_iff_toInt_le.mpr (bounded.1 (.inr rfl)).1
  case ret =>
    obtain ⟨low, high⟩ : 0 ≤ b.toInt ∧ b.toInt ≤ 2 ^ 62 := bounded.2 rfl
    have two : (2 : Int64).toInt = 2 := rfl
    have sum := toInt_add_of_fits (a := b) (b := 2) (by rw [two]; omega) (by rw [two]; omega)
    refine ⟨Int64.le_iff_toInt_le.mpr low, Int64.le_iff_toInt_le.mpr ?_⟩
    rw [sum, two]
    change 0 ≤ _
    omega
  all_goals trivial

namespace Machine

variable {m : Machine}

/-- A machine whose stack lies in a memory of a size. -/
structure Shaped (size : Nat) (m : Machine) : Prop where
  low : -1 ≤ m.sp.toInt
  high : m.sp.toInt < size
  memory : m.memory.size = size
  display : 0 < m.display.size

theorem Shaped.sane {size : Nat} (fits : size ≤ 2 ^ 62) (shaped : m.Shaped size) : m.Sane := by
  have small : m.memory.size < 2 ^ 63 := by
    have := shaped.memory
    omega
  refine ⟨Int64.le_iff_toInt_le.mpr shaped.low, ?_, small⟩
  rw [Int64.lt_iff_toInt_lt, toInt_size small, shaped.memory]
  exact shaped.high

theorem Sane.shaped (sane : m.Sane) (display : 0 < m.display.size) : m.Shaped m.memory.size := by
  have high := Int64.lt_iff_toInt_lt.mp sane.high
  rw [toInt_size sane.fits] at high
  exact ⟨Int64.le_iff_toInt_le.mp sane.low, high, rfl, display⟩

end Machine

namespace Exec

variable {m : Machine}

/-- One step of any program with bounded operands keeps the machine sane, if it does not crash. -/
theorem step_keeps_sane (sane : m.Sane) (image : Image) (pc : Int64) {i : Instruction} (bounded : i.Bounded) :
    ∃ crash, Safe m.memory.size crash (step image pc i m) := by
  by_cases block : i.op = .smv
  · obtain ⟨op, a, b, k⟩ := i
    cases block
    exact ⟨_, safe_thenPure (some (pc + 1)) (Machine.safe_storeBlock sane a)⟩
  · exact ⟨_, step_safe sane image pc (bounded.regular block)⟩

end Exec

namespace Machine

variable {m : Machine} {image : Image} {limits : Limits} {size : Nat}

/-- What an instruction leaves when it returns, with or without a fault. -/
def Returns (image : Image) (i : Instruction) (m m' : Machine) : Prop :=
  (∃ next, Exec.step image m.pc i m.tick = .ok next m') ∨ ∃ f, Exec.step image m.pc i m.tick = .error (.fault f) m'

/-- An instruction with bounded operands keeps the shape of the machine, and the display does not get shorter. -/
theorem Shaped.returns (fits : size ≤ 2 ^ 62) (shaped : m.Shaped size) {i : Instruction} (bounded : i.Bounded)
    {m' : Machine} (returns : m.Returns image i m') : m'.Shaped size ∧ m.display.size ≤ m'.display.size := by
  have kept := (Exec.Local.step image m.pc i).keeps m.tick
  obtain ⟨crash, safe⟩ := Exec.step_keeps_sane (shaped.sane fits).tick image m.pc bounded
  have leaves : m.tick.Extends m' ∧ m'.Sane := by
    rcases returns with ⟨next, ran⟩ | ⟨f, ran⟩
    · rw [ran] at kept safe
      exact ⟨kept, safe.1⟩
    · rw [ran] at kept safe
      exact ⟨kept, safe.1⟩
  obtain ⟨kept, sane⟩ := leaves
  have memory : m'.memory.size = size := kept.size.trans shaped.memory
  have display : m.display.size ≤ m'.display.size := kept.display
  exact ⟨memory ▸ sane.shaped (shaped.display.trans_le display), display⟩

theorem Shaped.next (fits : size ≤ 2 ^ 62) (bounded : ∀ i ∈ image.instructions, i.Bounded) (shaped : m.Shaped size)
    {m' : Machine} (isNext : m.next? image limits = some m') : m'.Shaped size := by
  unfold next? at isNext
  split at isNext
  · cases isNext
  · rename_i i fetched
    split at isNext
    · rename_i pc left ran
      cases isNext
      obtain ⟨low, high, memory, display⟩ := (shaped.returns fits (bounded i (fetch?_mem fetched)) (.inl ⟨_, ran⟩)).1
      exact ⟨low, high, memory, display⟩
    · cases isNext

/-- The end of a run keeps the shape of the machine, unless it is a crash. -/
theorem Shaped.stop (fits : size ≤ 2 ^ 62) (bounded : ∀ i ∈ image.instructions, i.Bounded) (shaped : m.Shaped size)
    (fine : (m.stop image limits).1 ≠ .crashed) : (m.stop image limits).2.Shaped size := by
  cases fetched : m.fetch? image limits with
  | none =>
    obtain ⟨_, same | same⟩ := stop_of_not_fetch fetched <;> rw [same]
    · exact shaped
    · exact ⟨shaped.low, shaped.high, shaped.memory, shaped.display⟩
  | some i =>
    have returns {m'} (left : m.Returns image i m') := shaped.returns fits (bounded i (fetch?_mem fetched)) left
    rw [stop_of_fetch fetched] at fine ⊢
    cases ran : Exec.step image m.pc i m.tick with
    | ok next m' =>
      obtain ⟨low, high, memory, display⟩ := (returns (.inl ⟨next, ran⟩)).1
      cases next <;> exact ⟨low, high, memory, display⟩
    | error halt m' =>
      cases halt with
      | fault f => exact (returns (.inr ⟨f, ran⟩)).1
      | crash =>
        rw [ran] at fine
        exact absurd rfl fine

theorem Shaped.execute (fits : size ≤ 2 ^ 62) (bounded : ∀ i ∈ image.instructions, i.Bounded) (shaped : m.Shaped size)
    {fuel : Nat} (fine : (execute image limits fuel m).1 ≠ .crashed) :
    (execute image limits fuel m).2.Shaped size := by
  induction fuel generalizing m with
  | zero => exact shaped
  | succ fuel ih =>
    rw [execute_succ] at fine ⊢
    cases isNext : m.next? image limits with
    | none =>
      rw [isNext] at fine
      exact shaped.stop fits bounded fine
    | some m' =>
      rw [isNext] at fine
      exact ih (shaped.next fits bounded isNext) fine

end Machine

/-- In a run of a program with bounded operands, all steps are taken with the instructions, labels and strings of the
program. Wherever a step has returned, with or without a fault, the stack lies in memory, memory has its size, and the
display is not empty and not shorter than before; and a run that does not crash returns a stack. -/
theorem machine_keeps_its_shape {code : Code} {image : Image} (loaded : code.image = .ok image)
    (bounded : ∀ i ∈ code.instructions, i.Bounded) (limits : Limits) {m : Machine} (fits : m.memory.size ≤ 2 ^ 62) :
    (code.labels = .ok image.labels ∧ image.instructions = code.instructions ∧ image.strings = code.strings) ∧
    (∀ k m', m.reset.after image limits k = some m' → m'.Shaped m.memory.size ∧
      ∀ i, m'.fetch? image limits = some i → ∀ m'', m'.Returns image i m'' →
        m''.Shaped m.memory.size ∧ m'.display.size ≤ m''.display.size) ∧
    ∀ fuel, (Machine.execute image limits fuel m.reset).1 ≠ .crashed →
      ∃ stack, m.run code limits fuel =
        (⟨(Machine.execute image limits fuel m.reset).1, stack⟩, (Machine.execute image limits fuel m.reset).2) := by
  have same := Code.image_eq loaded
  rw [← same.2.1] at bounded
  have start : m.reset.Shaped m.memory.size := by
    have size : m.reset.memory.size = m.memory.size := Array.size_replicate
    exact size ▸ (Machine.sane_reset (by omega)).shaped Nat.one_pos
  refine ⟨same, fun k m' reached => ?_, fun fuel fine => ?_⟩
  · have shaped : m'.Shaped m.memory.size :=
      Machine.after_induction (fun _ _ shaped isNext => shaped.next fits bounded isNext) start reached
    exact ⟨shaped, fun i fetched m'' returns => shaped.returns fits (bounded i (Machine.fetch?_mem fetched)) returns⟩
  · have shaped := start.execute fits bounded fine
    obtain ⟨stack, isStack⟩ := Option.isSome_iff_exists.mp (shaped.sane fits).stack?_isSome
    refine ⟨stack, ?_⟩
    unfold Machine.run
    rw [loaded]
    dsimp only
    rw [isStack]
    cases finish : (Machine.execute image limits fuel m.reset).1 with
    | crashed => exact absurd finish fine
    | _ => rfl

/-- A program that stores a block of two words, enters a frame, and leaves it with more words than there are. -/
def blockStore : Code where
  instructions := #[{ op := .alc, a := 3 }, { op := .ldr }, { op := .ldc }, { op := .ldc }, { op := .smv, a := 2 },
    { op := .enf, a := 4 }, { op := .ret, a := 4, b := 7 }]

theorem blockStore_keeps_its_shape : ∃ image, blockStore.image = .ok image ∧
    (∀ i ∈ blockStore.instructions, i.Bounded) ∧ (Machine.create 8 []).memory.size = 8 ∧
    (∀ k m', (Machine.create 8 []).reset.after image {} k = some m' → m'.Shaped 8) ∧
    ∃ stack left, (Machine.create 8 []).run blockStore {} 8 = (⟨.failed ⟨6, .ret, .stackUnderflow⟩, stack⟩, left) := by
  have bounded : ∀ i ∈ blockStore.instructions, i.Bounded := by decide +kernel
  have fails : (Machine.execute ⟨blockStore.instructions, [], #[]⟩ {} 8 (Machine.create 8 []).reset).1 =
      .failed ⟨6, .ret, .stackUnderflow⟩ := by decide +kernel
  have loaded : blockStore.image = .ok ⟨blockStore.instructions, [], #[]⟩ := rfl
  obtain ⟨_, shaped, ends⟩ := machine_keeps_its_shape loaded bounded {} (m := .create 8 []) (by decide)
  obtain ⟨stack, run⟩ := ends 8 (by rw [fails]; exact ne_of_beq_false rfl)
  rw [fails] at run
  exact ⟨_, loaded, bounded, rfl, fun k m' reached => (shaped k m' reached).1, stack, _, run⟩

end LyaLang
