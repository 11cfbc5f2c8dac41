import LyaLang.Proofs.Machine.Action

/-! # Overruns

The bounds of a block are checked with sums that wrap around. A block whose exact end is greater than every
machine number passes the check and then reaches outside memory; this is what crashes a machine. Here the
crashes of one instruction are described in exact integers, for a machine whose stack pointer lies in
memory and an instruction with the operands that compiled code has.
-/

namespace LyaLang

variable {crash : Prop} {count : Int64}

/-- The exact end of a block is greater than every machine number. -/
def Beyond (addr count : Int64) : Prop := 2 ^ 63 ≤ addr.toInt + count.toInt

instance (addr count : Int64) : Decidable (Beyond addr count) := inferInstanceAs (Decidable (_ ≤ _))

/-- Storing a text at an address runs past the end of the machine numbers. -/
def WriteOverruns (addr : Int64) (text : Bytes) (capacity : Int64) : Prop :=
  0 ≤ addr ∧ 0 ≤ Int64.ofNat (storedWords text capacity).length ∧
    Beyond addr (Int64.ofNat (storedWords text capacity).length)

namespace Machine

/-- A block is let through the check of its bounds: it lies in memory, or its end is beyond. -/
def Admits (m : Machine) (addr count : Int64) : Prop :=
  0 ≤ addr ∧ 0 ≤ count ∧ (addr.toInt + count.toInt ≤ m.memory.size ∨ Beyond addr count)

/-- Reading the text that a word refers to runs past the end of the machine numbers: the word is the address
of a length that memory holds. -/
def ReadOverruns (m : Machine) (w : Word) : Prop :=
  w.kind ≠ .text ∧ 0 ≤ w.number ∧ w.number < m.size ∧ 0 ≤ (m.word w.number).toInt ∧
    Beyond (w.number + 1) (m.word w.number).toInt

end Machine

/-- An instruction reaches outside memory. -/
def Instruction.Overruns (image : Image) (m : Machine) (i : Instruction) : Prop :=
  let top := m.word m.sp
  let second := m.word (m.sp - 1)
  match i.op with
  | .alc => Beyond m.sp i.a
  | .lmv =>
    0 ≤ m.sp ∧ m.Admits top.toInt i.a ∧ m.Admits m.sp i.a ∧ (Beyond top.toInt i.a ∨ Beyond m.sp i.a)
  | .smv => 1 ≤ m.sp ∧ 0 ≤ second.toInt ∧ Beyond second.toInt i.a
  | .smr =>
    1 ≤ m.sp ∧ m.Admits second.toInt i.a ∧ m.Admits top.toInt i.a ∧ (Beyond second.toInt i.a ∨ Beyond top.toInt i.a)
  | .sts => 0 ≤ m.sp ∧ ∃ s, image.text? i.a = some s ∧ WriteOverruns top.toInt s i.b
  | .scp =>
    1 ≤ m.sp ∧ (m.ReadOverruns top ∨ ∃ s, m.readText image top = .ok s ∧ WriteOverruns second.toInt s i.a)
  | .rds => 0 ≤ m.sp ∧ m.input ≠ [] ∧ WriteOverruns top.toInt m.line i.a
  | .scat | .seq | .sne =>
    1 ≤ m.sp ∧ (m.ReadOverruns second ∨ (∃ s, m.readText image second = .ok s) ∧ m.ReadOverruns top)
  | .prs => 0 ≤ m.sp ∧ m.ReadOverruns top
  | .prt => i.a < 0
  | _ => False

/-- The operands that compiled code has: no frame is negative, single words are stored, and the number of
arguments to remove is exact. -/
def Instruction.Regular (i : Instruction) : Prop :=
  match i.op with
  | .alc | .dlc => 0 ≤ i.a
  | .smv => i.a = 1
  | .ret => 0 ≤ i.b ∧ 0 ≤ i.b + 2
  | _ => True

/-! ## Safe outcomes -/

/-- The outcome of an action on memory of a size: it keeps the machine sane, and crashes exactly under a
condition. -/
def Safe {α : Type} (size : Nat) (crash : Prop) : EStateM.Result Halt Machine α → Prop
  | .ok _ m | .error (.fault _) m => m.Sane ∧ m.memory.size = size ∧ ¬crash
  | .error .crash _ => crash

/-- An outcome without a crash, under a condition that does not hold. -/
theorem Safe.of_not {α : Type} {size : Nat} {outcome : EStateM.Result Halt Machine α}
    (safe : Safe size False outcome) (no : ¬crash) : Safe size crash outcome := by
  match outcome, safe with
  | .ok _ _, ⟨sane, same, _⟩ => exact ⟨sane, same, no⟩
  | .error (.fault _) _, ⟨sane, same, _⟩ => exact ⟨sane, same, no⟩
  | .error .crash _, safe => exact safe.elim

/-- The outcome of a choice. -/
theorem Safe.ite {α : Type} {size : Nat} {c : Prop} [Decidable c] {x y : EStateM.Result Halt Machine α}
    (yes : c → Safe size crash x) (no : ¬c → Safe size crash y) : Safe size crash (if c then x else y) := by
  split
  · exact yes ‹c›
  · exact no ‹¬c›

namespace Machine

variable {m : Machine}

theorem passes_iff (fits : m.memory.size < 2 ^ 63) {addr : Int64} :
    m.Passes addr count ↔ m.Admits addr count := by
  refine and_congr_right fun low => and_congr_right fun nonneg => ?_
  have low' := toInt_nonneg low
  have nonneg' := toInt_nonneg nonneg
  have below := Int64.toInt_lt addr
  have below' := Int64.toInt_lt count
  rw [Int64.le_iff_toInt_le, toInt_size fits, Beyond, Int64.toInt_add, Int.bmod_eq_emod]
  split <;> omega

/-- A machine with the same number of words stays sane while its stack pointer is in range. -/
theorem Sane.of_size (sane : m.Sane) {m' : Machine} (same : m'.memory.size = m.memory.size) (low : -1 ≤ m'.sp)
    (high : m'.sp < m.size) : m'.Sane :=
  ⟨low, by rw [size, same]; exact high, same ▸ sane.fits⟩

end Machine

namespace Exec

variable {m : Machine} {α β : Type}

theorem size_clear (start count : Nat) (memory : Array Word) : (clear start count memory).size = memory.size := by
  induction count generalizing start memory with
  | zero => rfl
  | succ count ih => rw [clear, ih, Array.size_setIfInBounds]

theorem size_overwrite (start : Nat) (ws : List Word) (memory : Array Word) :
    (overwrite start ws memory).size = memory.size := by
  induction ws generalizing start memory with
  | nil => rfl
  | cons w ws ih => rw [overwrite, ih, Array.size_setIfInBounds]

/-- An action keeps every machine sane and never crashes. -/
def Keeps (x : Exec α) : Prop := ∀ m : Machine, m.Sane → Safe m.memory.size False (x m)

/-- An outcome that moves the stack pointer and leaves the size of memory alone. -/
theorem safe_moved (sane : m.Sane) {a : α} {m' : Machine} (same : m'.memory.size = m.memory.size)
    (low : -1 ≤ m'.sp) (high : m'.sp < m.size) (no : ¬crash) : Safe m.memory.size crash (.ok a m') :=
  ⟨sane.of_size same low high, same, no⟩

theorem safe_fault (sane : m.Sane) {f : RuntimeFault} (no : ¬crash) :
    Safe m.memory.size crash (.error (.fault f) m : EStateM.Result _ _ α) := ⟨sane, rfl, no⟩

namespace Keeps

theorem pure (a : α) : Keeps (pure a) := fun _ sane => ⟨sane, rfl, id⟩

theorem fail (f : RuntimeFault) : Keeps (fail f : Exec α) := fun _ sane => ⟨sane, rfl, id⟩

theorem bind {x : Exec α} {f : α → Exec β} (first : Keeps x) (second : ∀ a, Keeps (f a)) : Keeps (x >>= f) := by
  intro m sane
  have outcome := first m sane
  rw [bind_run]
  cases run : x m with
  | ok a m' =>
    rw [run] at outcome
    obtain ⟨sane', same, _⟩ := outcome
    exact same ▸ second a m' sane'
  | error halt m' =>
    rw [run] at outcome
    cases halt with
    | fault f => exact outcome
    | crash => exact outcome

theorem ite {c : Prop} [Decidable c] {x y : Exec α} (yes : Keeps x) (no : Keeps y) : Keeps (if c then x else y) := by
  split
  · exact yes
  · exact no

theorem push (w : Word) : Keeps (push w) := by
  intro m sane
  have low := sane.low
  have high := sane.high
  rw [push_eq sane]
  split
  · exact safe_moved sane (by simp [Machine.put]) (by grind) (by grind) id
  · exact safe_fault sane id

theorem pop : Keeps pop := by
  intro m sane
  have high := sane.high
  rw [pop_eq sane]
  split
  · exact safe_moved sane rfl (by grind) (by grind) id
  · exact safe_fault sane id

theorem load (addr : Int64) : Keeps (load addr) := by
  intro m sane
  rw [load_eq sane.fits]
  split
  · exact ⟨sane, rfl, id⟩
  · exact safe_fault sane id

theorem store (addr : Int64) (w : Word) : Keeps (store addr w) := by
  intro m sane
  rw [store_eq]
  split
  · exact safe_moved sane (by simp [Machine.put]) sane.low sane.high id
  · exact safe_fault sane id

theorem shrink (nonneg : 0 ≤ count) : Keeps (shrink count) := by
  intro m sane
  have low := sane.low
  have high := sane.high
  rw [shrink_eq]
  split
  · exact safe_fault sane id
  · exact safe_moved sane rfl (by grind) (by grind) id

theorem frameAddress (level offset : Int64) : Keeps (frameAddress level offset) := by
  intro m sane
  rw [frameAddress_eq]
  cases m.base? level with
  | some base => exact ⟨sane, rfl, id⟩
  | none => exact safe_fault sane id

theorem print (text : Bytes) : Keeps (print text) := fun _ sane => safe_moved sane rfl sane.low sane.high id

theorem readLine : Keeps readLine := by
  intro m sane
  rw [readLine_eq]
  split
  · exact safe_fault sane id
  · exact safe_moved sane rfl sane.low sane.high id

theorem setTop (w : Word) (sane : m.Sane) (some : 0 ≤ m.sp) : Safe m.memory.size False (setTop w m) := by
  rw [setTop_eq some sane.high]
  exact safe_moved sane (by simp [Machine.put]) sane.low sane.high id

/-- An operation that reads the topmost word and leaves it there. -/
theorem top {f : Word → Exec α}
    (each : ∀ w (m : Machine), m.Sane → 0 ≤ m.sp → Safe m.memory.size False (f w m)) :
    Keeps (do
      need 1
      let w ← peek (← sp)
      f w) := by
  intro m sane
  have one : 1 ≤ m.sp + 1 ↔ 0 ≤ m.sp := by
    have high := sane.high
    grind
  by_cases some : 0 ≤ m.sp
  · simp only [bind_run, need_eq, one, if_pos some, sp_run, peek_eq sane.fits some sane.high]
    exact each _ m sane some
  · simp only [bind_run, need_eq, one, if_neg some]
    exact safe_fault sane id

theorem onTop (f : Word → Word) : Keeps (onTop f) := top fun _ _ sane some => setTop _ sane some

/-- Replace the topmost word by the word at an address. -/
theorem loadTop (addr : Int64) (sane : m.Sane) (some : 0 ≤ m.sp) :
    Safe m.memory.size False ((Exec.load addr >>= Exec.setTop) m) := by
  rw [bind_run, load_eq sane.fits]
  by_cases inside : 0 ≤ addr ∧ addr < m.size
  · rw [if_pos inside]
    exact setTop _ sane some
  · rw [if_neg inside]
    exact safe_fault sane id

/-- An operation on the two topmost words that leaves at least one. -/
theorem operands {f : Word × Word → Exec Unit}
    (each : ∀ v w (m : Machine), m.Sane → 0 ≤ m.sp → Safe m.memory.size False (f (v, w) m)) :
    Keeps (Exec.operands >>= f) := by
  intro m sane
  have high := sane.high
  rw [bind_run, operands_eq sane]
  by_cases some : 1 ≤ m.sp
  · have top : 0 ≤ m.sp - 1 := by grind
    have sane' : ({ m with sp := m.sp - 1 }).Sane := sane.of_size rfl (by grind) (by grind)
    rw [if_pos some]
    exact each _ _ _ sane' top
  · rw [if_neg some]
    exact safe_fault sane id

theorem arithmetic (f : Int64 → Int64 → Int64) : Keeps (arithmetic f) :=
  operands fun _ _ _ sane some => setTop _ sane some

theorem relation (f : Word → Word → Bool) : Keeps (relation f) :=
  operands fun _ _ _ sane some => setTop _ sane some

theorem division (f : Int64 → Int64 → Int64) : Keeps (division f) := by
  refine operands fun v w m sane some => ?_
  by_cases zero : w.toInt == 0
  · simp only [zero, if_true, bind_run, fail_run]
    exact safe_fault sane id
  · simp only [zero, Bool.false_eq_true, if_false]
    exact setTop _ sane some

theorem pooled (image : Image) (index : Int64) : Keeps (pooled image index) := by
  intro m sane
  rw [pooled_eq]
  cases image.text? index with
  | some s => exact ⟨sane, rfl, id⟩
  | none => exact safe_fault sane id

theorem labelTarget (image : Image) (label : Int64) : Keeps (labelTarget image label) := by
  unfold Exec.labelTarget
  cases image.labels.get? label with
  | some position => exact .pure _
  | none => exact .fail _

theorem enterFrame (level : Int64) : Keeps (enterFrame level) := by
  intro m sane
  have low := sane.low
  have high := sane.high
  rw [enterFrame_eq sane]
  split
  · exact safe_fault sane id
  · split
    · exact safe_moved sane (by simp [Machine.put, Machine.widened]) (by grind) (by grind) id
    · exact ⟨sane.of_size rfl low high, rfl, id⟩

theorem leaveFrame (level : Int64) (nonneg : 0 ≤ count) (fits : 0 ≤ count + 2) :
    Keeps (leaveFrame level count) := by
  intro m sane
  have low := sane.low
  have high := sane.high
  rw [leaveFrame_eq sane]
  split
  · split
    · split
      · exact ⟨sane.of_size rfl low high, rfl, id⟩
      · exact safe_moved sane rfl (by grind) (by grind) id
    · exact safe_fault sane id
  · exact safe_fault sane id

end Keeps

end Exec

/-! ## Crashes of single actions -/

namespace Machine

variable {m : Machine}

/-- A block passes the check and yet its end wraps around. -/
theorem passes_and_wraps (fits : m.memory.size < 2 ^ 63) {addr : Int64} :
    m.Passes addr count ∧ addr + count < addr ↔ 0 ≤ addr ∧ 0 ≤ count ∧ Beyond addr count := by
  rw [passes_iff fits]
  constructor
  · rintro ⟨⟨low, nonneg, _⟩, wraps⟩
    exact ⟨low, nonneg, (add_lt_self_iff nonneg).mp wraps⟩
  · rintro ⟨low, nonneg, beyond⟩
    exact ⟨⟨low, nonneg, .inr beyond⟩, (add_lt_self_iff nonneg).mpr beyond⟩

/-- A text cannot be read because of a crash exactly if reading it overruns. -/
theorem readText_eq_crash (fits : m.memory.size < 2 ^ 63) {image : Image} {w : Word} :
    m.readText image w = .error .crash ↔ m.ReadOverruns w := by
  unfold readText ReadOverruns
  by_cases text : w.kind = .text
  · simp [text]
  · by_cases negative : w.number < 0
    · have low : ¬0 ≤ w.number := Int64.not_le.mpr negative
      cases image.strings[(-w.number - 1).toNatClampNeg]? <;> simp [text, negative, low]
    · have low : 0 ≤ w.number := Int64.not_lt.mp negative
      by_cases high : w.number < m.size
      · have next : 0 ≤ w.number + 1 := by grind
        have both : m.Passes (w.number + 1) (m.word w.number).toInt ∧ _ < _ ↔ _ := passes_and_wraps fits
        by_cases passes : m.Passes (w.number + 1) (m.word w.number).toInt
        · by_cases wraps : w.number + 1 + (m.word w.number).toInt < w.number + 1
          · have beyond := both.mp ⟨passes, wraps⟩
            simp [text, negative, high, passes, wraps, low, beyond.2]
          · have within : 0 ≤ (m.word w.number).toInt → ¬Beyond (w.number + 1) (m.word w.number).toInt :=
              fun nonneg beyond => wraps (both.mpr ⟨next, nonneg, beyond⟩).2
            simpa [text, negative, high, passes, wraps, low] using within
        · have within : 0 ≤ (m.word w.number).toInt → ¬Beyond (w.number + 1) (m.word w.number).toInt :=
            fun nonneg beyond => passes (both.mpr ⟨next, nonneg, beyond⟩).1
          simpa [text, negative, high, passes, low] using within
      · simp [text, negative, high]

theorem not_overruns_of_read (fits : m.memory.size < 2 ^ 63) {image : Image} {w : Word} {s : Bytes}
    (read : m.readText image w = .ok s) : ¬m.ReadOverruns w := by
  intro overruns
  have crashes : m.readText image w = .error .crash := (readText_eq_crash fits).mpr overruns
  cases read.symm.trans crashes

theorem safe_writeString (sane : m.Sane) (addr : Int64) (text : Bytes) (capacity : Int64) :
    Safe m.memory.size (WriteOverruns addr text capacity) (Exec.writeString addr text capacity m) := by
  rw [Exec.writeString_eq, WriteOverruns, ← passes_and_wraps sane.fits]
  refine .ite (fun passes => ?_) fun outside => Exec.safe_fault sane fun both => outside both.1
  refine .ite (fun wraps => ⟨passes, wraps⟩) fun ends => ?_
  exact Exec.safe_moved sane (Exec.size_overwrite _ _ _) sane.low sane.high fun both => ends both.2

theorem safe_grow (sane : m.Sane) (nonneg : 0 ≤ count) :
    Safe m.memory.size (Beyond m.sp count) (Exec.grow count m) := by
  have low := sane.low
  have high := sane.high
  have beyond : m.sp + count < m.sp ↔ Beyond m.sp count := add_lt_self_iff nonneg
  rw [Exec.grow_eq nonneg, ← beyond]
  refine .ite (fun full => Exec.safe_fault sane (by grind)) fun free => .ite id fun ends => ?_
  exact Exec.safe_moved sane (Exec.size_clear _ _ _) (by grind) (by grind) ends

theorem safe_loadBlock (sane : m.Sane) (count : Int64) :
    Safe m.memory.size
      (0 ≤ m.sp ∧ m.Admits (m.word m.sp).toInt count ∧ m.Admits m.sp count ∧
        (Beyond (m.word m.sp).toInt count ∨ Beyond m.sp count))
      (Exec.loadBlock count m) := by
  rw [Exec.loadBlock_eq sane, ← passes_iff sane.fits, ← passes_iff sane.fits]
  refine .ite (fun some => ?_) fun none => Exec.safe_fault sane fun overruns => none overruns.1
  refine .ite (fun passes => ?_) fun outside => Exec.safe_fault sane fun overruns => outside overruns.2.1
  have nonneg := passes.2.1
  rw [Beyond, ← add_lt_self_iff nonneg, Beyond, ← add_lt_self_iff nonneg]
  refine .ite (fun full => Exec.safe_fault sane fun ⟨_, _, target, _⟩ => Int64.not_lt.mpr target.2.2 full) fun free => ?_
  have target : m.Passes m.sp count := ⟨some, nonneg, Int64.not_lt.mp free⟩
  refine .ite (fun wraps => ⟨some, passes, target, .inr wraps⟩) fun ends => ?_
  refine .ite (fun wraps => ⟨some, passes, target, .inl wraps⟩) fun ends' => ?_
  exact Exec.safe_moved sane (Exec.size_overwrite _ _ _) (by grind) (by grind)
    fun ⟨_, _, _, either⟩ => either.elim ends' ends

theorem safe_copyBlock (sane : m.Sane) (count : Int64) :
    Safe m.memory.size
      (1 ≤ m.sp ∧ m.Admits (m.word (m.sp - 1)).toInt count ∧ m.Admits (m.word m.sp).toInt count ∧
        (Beyond (m.word (m.sp - 1)).toInt count ∨ Beyond (m.word m.sp).toInt count))
      (Exec.copyBlock count m) := by
  have high := sane.high
  rw [Exec.copyBlock_eq sane, ← passes_iff sane.fits, ← passes_iff sane.fits]
  refine .ite (fun some => ?_) fun none => Exec.safe_fault sane fun overruns => none overruns.1
  refine .ite (fun target => ?_) fun outside => Exec.safe_fault sane fun overruns => outside overruns.2.1
  refine .ite (fun source => ?_) fun outside => Exec.safe_fault sane fun overruns => outside overruns.2.2.1
  have nonneg := target.2.1
  rw [Beyond, ← add_lt_self_iff nonneg, Beyond, ← add_lt_self_iff nonneg]
  refine .ite (fun wraps => ⟨some, target, source, .inr wraps⟩) fun ends => ?_
  refine .ite (fun wraps => ⟨some, target, source, .inl wraps⟩) fun ends' => ?_
  exact Exec.safe_moved sane (Exec.size_overwrite _ _ _) (by grind) (by grind)
    fun ⟨_, _, _, either⟩ => either.elim ends' ends

/-- Storing a block of any length also crashes where its address would lie outside memory. -/
theorem safe_storeBlock (sane : m.Sane) (count : Int64) :
    Safe m.memory.size
      (count + 1 ≤ m.sp + 1 ∧ (0 ≤ m.sp - count ∧ m.sp - count < m.size →
        m.Passes (m.word (m.sp - count)).toInt count ∧
          (m.word (m.sp - count)).toInt + count < (m.word (m.sp - count)).toInt))
      (Exec.storeBlock count m) := by
  rw [Exec.storeBlock_eq sane]
  refine .ite (fun some => ?_) fun none => Exec.safe_fault sane fun overruns => none overruns.1
  refine .ite (fun held => ?_) fun outside => ⟨some, fun held => absurd held outside⟩
  refine .ite (fun target => ?_) fun outside => Exec.safe_fault sane fun overruns => outside (overruns.2 held).1
  refine .ite (fun wraps => ⟨some, fun _ => ⟨target, wraps⟩⟩) fun ends => ?_
  exact Exec.safe_moved sane (Exec.size_overwrite _ _ _) (by grind) (by grind) fun overruns => ends (overruns.2 held).2

theorem safe_storeWord (sane : m.Sane) :
    Safe m.memory.size (1 ≤ m.sp ∧ 0 ≤ (m.word (m.sp - 1)).toInt ∧ Beyond (m.word (m.sp - 1)).toInt 1)
      (Exec.storeBlock 1 m) := by
  have high := sane.high
  have safe := safe_storeBlock sane 1
  have held : 1 ≤ m.sp → 0 ≤ m.sp - 1 ∧ m.sp - 1 < m.size := by grind
  have two : 1 + 1 ≤ m.sp + 1 ↔ 1 ≤ m.sp := by grind
  rw [passes_and_wraps sane.fits, two, and_congr_right fun some => forall_prop_of_true (held some)] at safe
  simpa using safe

theorem safe_printTop (sane : m.Sane) (count : Int64) : Safe m.memory.size (count < 0) (Exec.printTop count m) := by
  have low := sane.low
  have high := sane.high
  rw [Exec.printTop_eq sane]
  refine .ite (fun some => ?_) fun none => Exec.safe_fault sane (by grind)
  exact .ite id fun nonneg => Exec.safe_moved sane rfl (by grind) (by grind) nonneg

end Machine

/-! ## Crashes of instructions -/

namespace Exec

variable {m : Machine} {α : Type}

/-- The outcome after the topmost word has been popped. -/
theorem safe_pop {f : Word → Exec α} (sane : m.Sane)
    (each : 0 ≤ m.sp → { m with sp := m.sp - 1 }.Sane →
      Safe m.memory.size crash (f (m.word m.sp) { m with sp := m.sp - 1 }))
    (some : crash → 0 ≤ m.sp) : Safe m.memory.size crash ((pop >>= f) m) := by
  have high := sane.high
  rw [bind_run, pop_eq sane]
  by_cases top : 0 ≤ m.sp
  · rw [if_pos top]
    exact each top (sane.of_size rfl (by grind) (by grind))
  · rw [if_neg top]
    exact safe_fault sane fun crashes => top (some crashes)

/-- The outcome after a text has been read. -/
theorem safe_read {f : Bytes → Exec α} (sane : m.Sane) (image : Image) (w : Word)
    (overruns : m.ReadOverruns w → crash)
    (each : ∀ s, m.readText image w = .ok s → Safe m.memory.size (crash) (f s m))
    (read : crash → m.ReadOverruns w ∨ ∃ s, m.readText image w = .ok s) :
    Safe m.memory.size crash ((string image w >>= f) m) := by
  have crashes : m.readText image w = .error .crash ↔ _ := Machine.readText_eq_crash sane.fits
  rw [bind_run, string_eq sane.fits]
  cases isRead : m.readText image w with
  | ok s => exact each s isRead
  | error halt =>
    cases halt with
    | fault f =>
      refine safe_fault sane fun crash => ?_
      rcases read crash with beyond | ⟨s, isText⟩
      · cases isRead.symm.trans (crashes.mpr beyond)
      · cases isRead.symm.trans isText
    | crash => exact overruns (crashes.mp isRead)

/-- The outcome after the texts of the two topmost words have been read. -/
theorem safe_stringOperands {f : Bytes × Bytes → Exec Unit} (sane : m.Sane) (image : Image)
    (each : ∀ x y (m' : Machine), m'.Sane → 0 ≤ m'.sp → Safe m'.memory.size False (f (x, y) m')) :
    Safe m.memory.size
      (1 ≤ m.sp ∧ (m.ReadOverruns (m.word (m.sp - 1)) ∨
        (∃ s, m.readText image (m.word (m.sp - 1)) = .ok s) ∧ m.ReadOverruns (m.word m.sp)))
      ((stringOperands image >>= f) m) := by
  have high := sane.high
  have run : (stringOperands image >>= f) = (do
      let p ← operands
      let x ← string image p.1
      let y ← string image p.2
      f (x, y)) := by
    simp only [stringOperands, bind_assoc, pure_bind]
  rw [run, bind_run, operands_eq sane]
  by_cases some : 1 ≤ m.sp
  · rw [if_pos some]
    have sane' : { m with sp := m.sp - 1 }.Sane := sane.of_size rfl (by grind) (by grind)
    have top : 0 ≤ m.sp - 1 := by grind
    refine safe_read sane' image _ (fun beyond => ⟨some, .inl beyond⟩) (fun x isX => ?_) ?_
    · refine safe_read sane' image _ (fun beyond => ⟨some, .inr ⟨⟨x, isX⟩, beyond⟩⟩) (fun y isY => ?_) ?_
      · refine (each x y _ sane' top).of_not ?_
        rintro ⟨_, beyond | ⟨_, beyond⟩⟩
        · exact Machine.not_overruns_of_read sane.fits isX beyond
        · exact Machine.not_overruns_of_read sane.fits isY beyond
      · rintro ⟨_, beyond | ⟨_, beyond⟩⟩
        · exact absurd beyond (Machine.not_overruns_of_read sane.fits isX)
        · exact .inl beyond
    · rintro ⟨_, beyond | ⟨read, _⟩⟩
      · exact .inl beyond
      · exact .inr read
  · rw [if_neg some]
    exact safe_fault sane fun overruns => some overruns.1

theorem safe_storeText (sane : m.Sane) (image : Image) (a b : Int64) :
    Safe m.memory.size (0 ≤ m.sp ∧ ∃ s, image.text? a = some s ∧ WriteOverruns (m.word m.sp).toInt s b)
      ((do
        let s ← pooled image a
        let addr ← pop
        writeString addr.toInt s b) m) := by
  rw [bind_run, pooled_eq]
  cases isText : image.text? a with
  | none => exact safe_fault sane fun ⟨_, s, isSome, _⟩ => by cases isSome
  | some s =>
    refine safe_pop sane (fun some sane' => ?_) (·.1)
    have safe := Machine.safe_writeString sane' (m.word m.sp).toInt s b
    have same : (0 ≤ m.sp ∧ ∃ s', Option.some s = Option.some s' ∧ WriteOverruns (m.word m.sp).toInt s' b) ↔
        WriteOverruns (m.word m.sp).toInt s b := by simp [some]
    rw [same]
    exact safe

theorem safe_copyText (sane : m.Sane) (image : Image) (a : Int64) :
    Safe m.memory.size
      (1 ≤ m.sp ∧ (m.ReadOverruns (m.word m.sp) ∨
        ∃ s, m.readText image (m.word m.sp) = .ok s ∧ WriteOverruns (m.word (m.sp - 1)).toInt s a))
      ((do
        let ref ← pop
        let addr ← pop
        let s ← string image ref
        writeString addr.toInt s a) m) := by
  refine safe_pop sane (fun some sane' => ?_) (fun overruns => by grind)
  have one : 0 ≤ m.sp - 1 ↔ 1 ≤ m.sp := by grind
  refine safe_pop sane' (fun below sane'' => ?_) (fun overruns => one.mpr overruns.1)
  have some := one.mp below
  refine safe_read sane'' image _ (fun beyond => ⟨some, .inl beyond⟩) (fun s isRead => ?_) ?_
  · have same : (1 ≤ m.sp ∧ (m.ReadOverruns (m.word m.sp) ∨
        ∃ s', m.readText image (m.word m.sp) = .ok s' ∧ WriteOverruns (m.word (m.sp - 1)).toInt s' a)) ↔
        WriteOverruns (m.word (m.sp - 1)).toInt s a := by
      have isRead : m.readText image (m.word m.sp) = .ok s := isRead
      simp [some, isRead, Machine.not_overruns_of_read sane.fits isRead]
    rw [same]
    exact Machine.safe_writeString sane'' _ s a
  · rintro ⟨_, beyond | ⟨s, isRead, _⟩⟩
    · exact .inl beyond
    · exact .inr ⟨s, isRead⟩

theorem safe_readText (sane : m.Sane) (a : Int64) :
    Safe m.memory.size (0 ≤ m.sp ∧ m.input ≠ [] ∧ WriteOverruns (m.word m.sp).toInt m.line a)
      ((do
        let addr ← pop
        writeString addr.toInt (← readLine) a) m) := by
  refine safe_pop sane (fun some sane' => ?_) (·.1)
  rw [bind_run, readLine_eq]
  cases empty : m.input.isEmpty with
  | true =>
    exact safe_fault sane' fun overruns => overruns.2.1 (List.isEmpty_iff.mp empty)
  | false =>
    have some' : m.input ≠ [] := by simpa using empty
    have same : (0 ≤ m.sp ∧ m.input ≠ [] ∧ WriteOverruns (m.word m.sp).toInt m.line a) ↔
        WriteOverruns (m.word m.sp).toInt m.line a := by simp [some, some']
    rw [same]
    have sane'' : ({ m with
        sp := m.sp - 1
        input := m.input.drop ((m.input.takeWhile (· != 0x0A)).length + 1) }).Sane :=
      sane'.of_size rfl sane'.low sane'.high
    exact Machine.safe_writeString sane'' _ m.line a

theorem safe_printText (sane : m.Sane) (image : Image) :
    Safe m.memory.size (0 ≤ m.sp ∧ m.ReadOverruns (m.word m.sp)) ((do print (← string image (← pop))) m) := by
  refine safe_pop sane (fun some sane' => ?_) (·.1)
  refine safe_read sane' image _ (fun beyond => ⟨some, beyond⟩) (fun s isRead => ?_) (fun overruns => .inl overruns.2)
  refine (Keeps.print s _ sane').of_not fun overruns => ?_
  exact Machine.not_overruns_of_read sane.fits isRead overruns.2

theorem safe_joinTexts (sane : m.Sane) (image : Image) :
    Safe m.memory.size
      (1 ≤ m.sp ∧ (m.ReadOverruns (m.word (m.sp - 1)) ∨
        (∃ s, m.readText image (m.word (m.sp - 1)) = .ok s) ∧ m.ReadOverruns (m.word m.sp)))
      ((do
        let (x, y) ← stringOperands image
        if Int64.ofNat (Text.length x + Text.length y) > (← size) then fail .stringTooLong
        setTop (.ofText (x ++ y)) : Exec Unit) m) := by
  refine safe_stringOperands sane image fun x y m' sane' some => ?_
  by_cases long : Int64.ofNat (Text.length x + Text.length y) > m'.size
  · simp only [bind_run, size_run, if_pos long, fail_run]
    exact safe_fault sane' id
  · simp only [bind_run, size_run, if_neg long]
    exact Keeps.setTop _ sane' some

/-- An instruction with the operands of compiled code keeps the machine sane, and crashes exactly if it
overruns. -/
theorem plain_safe (sane : m.Sane) (image : Image) {i : Instruction} (regular : i.Regular) :
    Safe m.memory.size (i.Overruns image m) (plain image i m) := by
  obtain ⟨op, a, b, k⟩ := i
  cases op <;> dsimp only [plain, Instruction.Overruns, Instruction.Regular] at regular ⊢
  case nop | lbl | jmp | jof | cfu | ret | stp => exact ⟨sane, rfl, id⟩
  case ldc => exact Keeps.push k m sane
  case ldv => exact ((Keeps.frameAddress a b).bind fun addr => (Keeps.load addr).bind fun w => .push w) m sane
  case ldr => exact ((Keeps.frameAddress a b).bind fun addr => .push _) m sane
  case stv => exact ((Keeps.frameAddress a b).bind fun addr => Keeps.pop.bind fun w => .store addr w) m sane
  case lrv =>
    exact ((Keeps.frameAddress a b).bind fun addr => (Keeps.load addr).bind fun w => (Keeps.load _).bind fun v =>
      .push v) m sane
  case srv =>
    exact ((Keeps.frameAddress a b).bind fun addr => (Keeps.load addr).bind fun w => Keeps.pop.bind fun v =>
      .store _ v) m sane
  case alc => exact Machine.safe_grow sane regular
  case dlc => exact Keeps.shrink regular m sane
  case dup => exact Keeps.top (fun w m sane _ => Keeps.push w m sane) m sane
  case add | sub | mul => exact Keeps.arithmetic _ m sane
  case div | mod => exact Keeps.division _ m sane
  case neg | abs | not | asc | num | upc | lwc => exact Keeps.onTop _ m sane
  case and | lor | les | leq | grt | gre | equ | neq => exact Keeps.relation _ m sane
  case idx => exact Keeps.operands (fun _ _ _ sane some => Keeps.setTop _ sane some) m sane
  case grc => exact Keeps.top (fun w m sane some => Keeps.loadTop _ sane some) m sane
  case lmv => exact Machine.safe_loadBlock sane a
  case smv =>
    cases regular
    exact Machine.safe_storeWord sane
  case smr => exact Machine.safe_copyBlock sane a
  case chk => exact Keeps.top (fun w m sane _ => Keeps.ite (.fail _) (.pure _) m sane) m sane
  case sts => exact safe_storeText sane image a b
  case lsc => exact ((Keeps.pooled image a).bind fun _ => .push _) m sane
  case scp => exact safe_copyText sane image a
  case scat => exact safe_joinTexts sane image
  case seq | sne => exact safe_stringOperands sane image fun _ _ _ sane some => Keeps.setTop _ sane some
  case rdv => exact (Keeps.readLine.bind fun line => .push _) m sane
  case rds => exact safe_readText sane a
  case prv => exact (Keeps.pop.bind fun w => .print _) m sane
  case prt => exact Machine.safe_printTop sane a
  case prc => exact ((Keeps.pooled image a).bind fun s => .print s) m sane
  case prs => exact safe_printText sane image
  case enf => exact Keeps.enterFrame a m sane
  case unknown code => exact Keeps.fail _ m sane

theorem safe_thenPure {x : Exec α} {size : Nat} {β : Type} (b : β)
    (safe : Safe size crash (x m)) : Safe size crash ((x >>= fun _ => pure b) m) := by
  rw [bind_run]
  cases run : x m with
  | ok a m' =>
    rw [run] at safe
    exact safe
  | error halt m' =>
    rw [run] at safe
    cases halt with
    | fault f => exact safe
    | crash => exact safe

/-- One step with an instruction of compiled code keeps the machine sane, and crashes exactly if the
instruction overruns. -/
theorem step_safe (sane : m.Sane) (image : Image) (pc : Int64) {i : Instruction} (regular : i.Regular) :
    Safe m.memory.size (i.Overruns image m) (step image pc i m) := by
  have plain := plain_safe sane image regular
  obtain ⟨op, a, b, k⟩ := i
  cases op
  case jmp => exact ((Keeps.labelTarget image a).bind fun _ => .pure _) m sane
  case jof =>
    exact (Keeps.pop.bind fun w => Keeps.ite (.pure _) ((Keeps.labelTarget image a).bind fun _ => .pure _)) m sane
  case cfu => exact ((Keeps.labelTarget image a).bind fun _ => (Keeps.push _).bind fun _ => .pure _) m sane
  case ret => exact ((Keeps.leaveFrame a regular.1 regular.2).bind fun _ => .pure _) m sane
  all_goals exact safe_thenPure _ plain

end Exec

end LyaLang
