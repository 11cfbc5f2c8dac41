import LyaLang.Machine.Run
import LyaLang.Proofs.Number

/-! # What the actions of the machine do

The actions on a sane machine as equations: its stack pointer lies in memory or one below it, and the size of
memory is a machine number. Where an action has a guard, the equation has the guard; where it would reach
outside memory, the guard is the weakest under which it does not.
-/

namespace LyaLang

variable {m : Machine} {addr count : Int64}

namespace Machine

/-- The number of words of memory. -/
def size (m : Machine) : Int64 := Int64.ofNat m.memory.size

/-- The machine with another word at an address inside memory. -/
def put (m : Machine) (addr : Int64) (w : Word) : Machine :=
  { m with memory := m.memory.setIfInBounds addr.toNatClampNeg w }

/-- The stack pointer lies in memory or one below it, and addresses are machine numbers. -/
structure Sane (m : Machine) : Prop where
  low : -1 ≤ m.sp
  high : m.sp < m.size
  fits : m.memory.size < 2 ^ 63

@[simp] theorem size_put (m : Machine) (addr : Int64) (w : Word) : (m.put addr w).size = m.size := by
  simp [size, put]

@[simp] theorem sp_put (m : Machine) (addr : Int64) (w : Word) : (m.put addr w).sp = m.sp := rfl

theorem toInt_size (fits : m.memory.size < 2 ^ 63) : m.size.toInt = m.memory.size :=
  Int64.toInt_ofNat_of_lt fits

theorem size_nonneg (fits : m.memory.size < 2 ^ 63) : 0 ≤ m.size := by
  rw [Int64.le_iff_toInt_le, toInt_size fits]
  exact Int.natCast_nonneg _

theorem toNatClampNeg_lt_size (fits : m.memory.size < 2 ^ 63) (low : 0 ≤ addr)
    (high : addr < m.size) : addr.toNatClampNeg < m.memory.size := by
  have exact' := Int64.toInt_eq_toNatClampNeg low
  rw [Int64.lt_iff_toInt_lt, toInt_size fits] at high
  omega

theorem getElem?_eq_word (fits : m.memory.size < 2 ^ 63) (low : 0 ≤ addr)
    (high : addr < m.size) : m.memory[addr.toNatClampNeg]? = some (m.word addr) := by
  have inside := toNatClampNeg_lt_size fits low high
  rw [word, if_neg (Int64.not_lt.mpr low), Array.getD_eq_getD_getElem?, Array.getElem?_eq_getElem inside]
  rfl

/-- The words of a block. -/
def words (m : Machine) (addr count : Int64) : List Word :=
  (m.memory.extract addr.toNatClampNeg (addr + count).toNatClampNeg).toList

/-- A block passes the check of its bounds. Its end wraps around. -/
def Passes (m : Machine) (addr count : Int64) : Prop := 0 ≤ addr ∧ 0 ≤ count ∧ addr + count ≤ m.size

instance (m : Machine) (addr count : Int64) : Decidable (m.Passes addr count) :=
  inferInstanceAs (Decidable (_ ∧ _ ∧ _))

/-- The base of a display level. -/
def base? (m : Machine) (level : Int64) : Option Int64 :=
  if Exec.inside level m.display.size then m.display[level.toNatClampNeg]? else none

/-- The machine with other words from an address on. -/
def putAll (m : Machine) (addr : Int64) (ws : List Word) : Machine :=
  { m with memory := Exec.overwrite addr.toNatClampNeg ws m.memory }

/-- The text that a word refers to, or why it cannot be read. -/
def readText (m : Machine) (image : Image) (w : Word) : Except Halt Bytes :=
  if w.kind == .text then .ok w.text
  else if w.number < 0 then
    match image.strings[(-w.number - 1).toNatClampNeg]? with
    | some s => .ok s
    | none => .error (.fault .badString)
  else if w.number < m.size then
    if m.Passes (w.number + 1) (m.word w.number).toInt then
      if w.number + 1 + (m.word w.number).toInt < w.number + 1 then .error .crash
      else .ok (Text.encode ((m.words (w.number + 1) (m.word w.number).toInt).map Word.toChar))
    else .error (.fault .segmentation)
  else .error (.fault .segmentation)

/-- The next line of input, without its end. -/
def line (m : Machine) : Bytes :=
  Bytes.dropRightWhile (fun b => b == 0x0A || b == 0x0D) (m.input.takeWhile (· != 0x0A))

/-- The machine with a display that holds a level. -/
def widened (m : Machine) (level : Int64) : Machine :=
  { m with display := m.display ++ Array.replicate (level.toNatClampNeg + 1 - m.display.size) 0 }

/-- The base of a display level, zero at levels that the display does not hold. -/
def baseAt (m : Machine) (level : Int64) : Int64 := m.display.getD level.toNatClampNeg 0

end Machine

/-- The string at an index of the pool. -/
def Image.text? (image : Image) (index : Int64) : Option Bytes :=
  if index < 0 then none else image.strings[index.toNatClampNeg]?

/-- The words in which a text is stored, cut to a capacity unless that is negative. -/
def storedWords (text : Bytes) (capacity : Int64) : List Word :=
  let chars := if capacity ≥ 0 then (Text.chars text).take capacity.toNatClampNeg else Text.chars text
  Word.int (Int64.ofNat chars.length) :: chars.map Word.ofChar

namespace Exec

variable {m : Machine} {α β : Type}

/-! ## Running actions -/

@[simp] theorem pure_run (a : α) (m : Machine) : (pure a : Exec α) m = .ok a m := rfl

@[simp] theorem bind_run (x : Exec α) (f : α → Exec β) (m : Machine) :
    (x >>= f) m = match x m with
      | .ok a m' => f a m'
      | .error halt m' => .error halt m' := by
  change EStateM.bind x f m = _
  unfold EStateM.bind
  cases x m <;> rfl

@[simp] theorem ite_run (c : Prop) [Decidable c] (x y : Exec α) (m : Machine) :
    (if c then x else y) m = if c then x m else y m := by
  split <;> rfl

@[simp] theorem fail_run (f : RuntimeFault) (m : Machine) : (fail f : Exec α) m = .error (.fault f) m := rfl

@[simp] theorem crash_run (m : Machine) : (crash : Exec α) m = .error .crash m := rfl

@[simp] theorem sp_run (m : Machine) : sp m = .ok m.sp m := rfl

@[simp] theorem setSp_run (sp : Int64) (m : Machine) : setSp sp m = .ok () { m with sp } := rfl

@[simp] theorem size_run (m : Machine) : size m = .ok m.size m := rfl

@[simp] theorem modify_run (f : Machine → Machine) (m : Machine) : (modify f : Exec Unit) m = .ok () (f m) := rfl

@[simp] theorem modifyGet_run (f : Machine → α × Machine) (m : Machine) :
    (modifyGet f : Exec α) m = .ok (f m).1 (f m).2 := rfl

/-- A step that can only fail leaves what follows it to the same condition. -/
theorem bind_ite {x : Exec α} {f : α → Exec β} {c : Prop} [Decidable c] {a : α} {m' m'' : Machine} {halt : Halt}
    (run : x m = if c then .ok a m' else .error halt m'') : (x >>= f) m = if c then f a m' else .error halt m'' := by
  rw [bind_run, run]
  by_cases holds : c <;> simp only [holds, if_true, if_false]

theorem bind_ok {x : Exec α} {f : α → Exec β} {a : α} {m' : Machine} (run : x m = .ok a m') : (x >>= f) m = f a m' := by
  rw [bind_run, run]

/-! ## Single words -/

private theorem inside_eq (m : Machine) (addr : Int64) :
    inside addr m.memory.size = true ↔ 0 ≤ addr ∧ addr < m.size := by
  simp [inside, Machine.size]

theorem peek_eq (fits : m.memory.size < 2 ^ 63) (low : 0 ≤ addr) (high : addr < m.size) :
    peek addr m = .ok (m.word addr) m := by
  have found := Machine.getElem?_eq_word fits low high
  simp only [peek, bind_run, modifyGet_run, (inside_eq m addr).mpr ⟨low, high⟩, if_true, found, pure_run]

theorem peek_outside (outside : ¬(0 ≤ addr ∧ addr < m.size)) : peek addr m = .error .crash m := by
  have guard : inside addr m.memory.size = false := Bool.eq_false_iff.mpr (mt (inside_eq m addr).mp outside)
  simp only [peek, bind_run, modifyGet_run, guard, Bool.false_eq_true, if_false, crash_run]

theorem poke_eq (low : 0 ≤ addr) (high : addr < m.size) (w : Word) :
    poke addr w m = .ok () (m.put addr w) := by
  simp [poke, (inside_eq m addr).mpr ⟨low, high⟩, Machine.put]

private theorem outside_eq (addr n : Int64) : (addr < 0 || addr ≥ n) = true ↔ ¬(0 ≤ addr ∧ addr < n) := by
  grind

theorem load_eq (fits : m.memory.size < 2 ^ 63) (addr : Int64) :
    load addr m = if 0 ≤ addr ∧ addr < m.size then .ok (m.word addr) m else .error (.fault .segmentation) m := by
  simp only [load, bind_run, size_run, outside_eq, ite_not, ite_run, fail_run]
  exact ite_congr rfl (fun inside => peek_eq fits inside.1 inside.2) fun _ => rfl

theorem store_eq (addr : Int64) (w : Word) :
    store addr w m =
      if 0 ≤ addr ∧ addr < m.size then .ok () (m.put addr w) else .error (.fault .segmentation) m := by
  simp only [store, bind_run, size_run, outside_eq, ite_not, ite_run, fail_run]
  exact ite_congr rfl (fun inside => poke_eq inside.1 inside.2 w) fun _ => rfl

/-! ## The stack -/

theorem push_eq (sane : m.Sane) (w : Word) :
    push w m = if m.sp + 1 < m.size then .ok () { m.put (m.sp + 1) w with sp := m.sp + 1 }
      else .error (.fault .stackOverflow) m := by
  obtain ⟨low, high, fits⟩ := sane
  have low' : 0 ≤ m.sp + 1 := by grind
  simp only [push, bind_run, sp_run, size_run, ge_iff_le, ← Int64.not_lt, ite_not, ite_run, setSp_run, fail_run]
  exact ite_congr rfl (fun room => poke_eq (m := { m with sp := m.sp + 1 }) low' room w) fun _ => rfl

theorem pop_eq (sane : m.Sane) :
    pop m = if 0 ≤ m.sp then .ok (m.word m.sp) { m with sp := m.sp - 1 } else .error (.fault .stackUnderflow) m := by
  simp only [pop, bind_run, sp_run, ← Int64.not_le, ite_not, ite_run, fail_run]
  exact ite_congr rfl (fun some => by rw [peek_eq sane.fits some sane.high]; rfl) fun _ => rfl

theorem need_eq (count : Int64) :
    need count m = if count ≤ m.sp + 1 then .ok () m else .error (.fault .stackUnderflow) m := by
  simp only [need, bind_run, sp_run, ← Int64.not_le, ite_not, ite_run, fail_run, pure_run]

theorem operands_eq (sane : m.Sane) :
    operands m = if 1 ≤ m.sp then .ok (m.word (m.sp - 1), m.word m.sp) { m with sp := m.sp - 1 }
      else .error (.fault .stackUnderflow) m := by
  obtain ⟨low, high, fits⟩ := sane
  have two : 2 ≤ m.sp + 1 ↔ 1 ≤ m.sp := by grind
  rw [operands, bind_ite (need_eq 2)]
  refine ite_congr (propext two) (fun some => ?_) fun _ => rfl
  have top : 0 ≤ m.sp := by grind
  have below : 0 ≤ m.sp - 1 ∧ m.sp - 1 < m.size := by grind
  rw [bind_ok (sp_run m), bind_ok (peek_eq fits top high), bind_ok (setSp_run _ m),
    bind_ok (peek_eq (m := { m with sp := m.sp - 1 }) fits below.1 below.2)]
  rfl

theorem setTop_eq (some : 0 ≤ m.sp) (high : m.sp < m.size) (w : Word) : setTop w m = .ok () (m.put m.sp w) := by
  simp only [setTop, bind_run, sp_run, poke_eq some high]

theorem shrink_eq (count : Int64) :
    shrink count m = if m.sp - count < -1 then .error (.fault .stackUnderflow) m
      else .ok () { m with sp := m.sp - count } := by
  simp only [shrink, bind_run, sp_run, ite_run, fail_run, setSp_run]

theorem grow_eq (nonneg : 0 ≤ count) :
    grow count m =
      if m.size ≤ m.sp + count then .error (.fault .stackOverflow) m
      else if m.sp + count < m.sp then .error .crash m
      else .ok () { m with
        memory := clear (m.sp + 1).toNatClampNeg count.toNatClampNeg m.memory, sp := m.sp + count } := by
  simp only [grow, if_neg (Int64.not_lt.mpr nonneg), bind_run, sp_run, size_run, ge_iff_le, ite_run, fail_run, crash_run,
    modify_run]

theorem frameAddress_eq (level offset : Int64) :
    frameAddress level offset m =
      match m.base? level with
      | some base => .ok (base + offset) m
      | none => .error (.fault .badDisplay) m := by
  change (match m.base? level with
    | some base => pure (base + offset)
    | none => fail .badDisplay) m = _
  cases m.base? level <;> rfl

/-! ## Blocks -/

theorem checkBlock_eq (addr count : Int64) :
    checkBlock addr count m = if m.Passes addr count then .ok () m else .error (.fault .segmentation) m := by
  have guard : (addr < 0 || count < 0 || addr + count > m.size) = true ↔ ¬m.Passes addr count := by
    unfold Machine.Passes
    grind
  simp only [checkBlock, bind_run, size_run, guard, ite_not, ite_run, fail_run, pure_run]

/-- A block that passed the check is read unless its end wrapped around. -/
theorem block_eq (passes : m.Passes addr count) :
    block addr count m = if addr + count < addr then .error .crash m else .ok (m.words addr count) m := by
  obtain ⟨low, nonneg, high⟩ := passes
  have guard : (addr < 0 || count < 0 || addr + count < addr || addr + count > m.size) = true ↔ addr + count < addr := by
    grind
  simp only [block, bind_run, size_run, guard, ite_run, crash_run, modifyGet_run, Machine.words]

/-- A block that passed the check is written unless its end wrapped around. -/
theorem setBlock_eq {ws : List Word} (length : Int64.ofNat ws.length = count)
    (passes : m.Passes addr count) :
    setBlock addr ws m = if addr + count < addr then .error .crash m else .ok () (m.putAll addr ws) := by
  obtain ⟨low, nonneg, high⟩ := passes
  have guard : (addr < 0 || addr + count < addr || addr + count > m.size) = true ↔ addr + count < addr := by
    grind
  simp only [setBlock, bind_run, size_run, length, guard, ite_run, crash_run, modify_run, Machine.putAll]

theorem length_words (fits : m.memory.size < 2 ^ 63) (passes : m.Passes addr count)
    (ends : ¬addr + count < addr) : (m.words addr count).length = count.toNatClampNeg := by
  obtain ⟨low, nonneg, high⟩ := passes
  rw [add_lt_self_iff nonneg] at ends
  have low' := toInt_nonneg low
  have nonneg' := toInt_nonneg nonneg
  have stop := toInt_add_of_fits (a := addr) (b := count) (by omega) (by omega)
  have starts := Int64.toInt_eq_toNatClampNeg low
  have counts := Int64.toInt_eq_toNatClampNeg nonneg
  have stops : (addr + count).toInt = (addr + count).toNatClampNeg := by
    apply Int64.toInt_eq_toNatClampNeg
    rw [Int64.le_iff_toInt_le, stop]
    exact Int.add_nonneg low' nonneg'
  rw [Int64.le_iff_toInt_le, Machine.toInt_size fits] at high
  simp only [Machine.words, Array.length_toList, Array.size_extract]
  omega

/-! ## Texts -/

theorem pooled_eq (image : Image) (index : Int64) :
    pooled image index m =
      match image.text? index with
      | some s => .ok s m
      | none => .error (.fault .badString) m := by
  unfold Image.text?
  by_cases negative : index < 0
  · simp only [pooled, if_pos negative, bind_run, fail_run]
  · simp only [pooled, if_neg negative]
    cases image.strings[index.toNatClampNeg]? <;> rfl

theorem string_eq (fits : m.memory.size < 2 ^ 63) (image : Image) (w : Word) :
    string image w m =
      match m.readText image w with
      | .ok s => .ok s m
      | .error halt => .error halt m := by
  unfold Machine.readText
  by_cases text : w.kind == .text
  · simp only [string, text, if_true, pure_run]
  by_cases negative : w.number < 0
  · simp only [string, text, Bool.false_eq_true, if_false, negative, if_true]
    cases image.strings[(-w.number - 1).toNatClampNeg]? <;> rfl
  simp only [string, bind_run, text, Bool.false_eq_true, if_false, negative, load_eq fits, Int64.not_lt.mp negative, true_and]
  by_cases high : w.number < m.size
  · by_cases passes : m.Passes (w.number + 1) (m.word w.number).toInt
    · by_cases wraps : w.number + 1 + (m.word w.number).toInt < w.number + 1 <;>
        simp only [if_pos high, checkBlock_eq, if_pos passes, block_eq passes, wraps, if_true, if_false, pure_run]
    · simp only [if_pos high, checkBlock_eq, if_neg passes]
  · simp only [if_neg high]

theorem writeString_eq (addr : Int64) (text : Bytes) (capacity : Int64) :
    writeString addr text capacity m =
      if m.Passes addr (Int64.ofNat (storedWords text capacity).length) then
        if addr + Int64.ofNat (storedWords text capacity).length < addr then .error .crash m
        else .ok () (m.putAll addr (storedWords text capacity))
      else .error (.fault .segmentation) m := by
  have length : Int64.ofNat (storedWords text capacity).length = Int64.ofNat
      (if capacity ≥ 0 then (Text.chars text).take capacity.toNatClampNeg else Text.chars text).length + 1 := by
    simp [storedWords, Int64.ofNat_add]
  have run : writeString addr text capacity = (do
      checkBlock addr (Int64.ofNat (storedWords text capacity).length)
      setBlock addr (storedWords text capacity)) := by
    rw [length]
    rfl
  rw [run, bind_ite (checkBlock_eq _ _)]
  exact ite_congr rfl (fun passes => setBlock_eq rfl passes) fun _ => rfl

/-! ## Moving blocks -/

/-- A block that was read has as many words as were asked for. -/
private theorem ofNat_length_words (fits : m.memory.size < 2 ^ 63) (passes : m.Passes addr count)
    (ends : ¬addr + count < addr) : Int64.ofNat (m.words addr count).length = count := by
  rw [length_words fits passes ends, Int64.ofNat_toNatClampNeg _ passes.2.1]

theorem loadBlock_eq (sane : m.Sane) (count : Int64) :
    loadBlock count m =
      if 0 ≤ m.sp then
        if m.Passes (m.word m.sp).toInt count then
          if m.size < m.sp + count then .error (.fault .stackOverflow) m
          else if m.sp + count < m.sp then .error .crash m
          else if (m.word m.sp).toInt + count < (m.word m.sp).toInt then .error .crash m
          else .ok () { m.putAll m.sp (m.words (m.word m.sp).toInt count) with sp := m.sp + (count - 1) }
        else .error (.fault .segmentation) m
      else .error (.fault .stackUnderflow) m := by
  obtain ⟨low, high, fits⟩ := sane
  have one : 1 ≤ m.sp + 1 ↔ 0 ≤ m.sp := by grind
  rw [loadBlock, bind_ite (need_eq 1)]
  refine ite_congr (propext one) (fun some => ?_) fun _ => rfl
  rw [bind_ok (sp_run m), bind_ok (peek_eq fits some high), bind_ite (checkBlock_eq _ count)]
  refine ite_congr rfl (fun passes => ?_) fun _ => rfl
  rw [bind_ok (size_run m), ite_run]
  refine ite_congr rfl (fun _ => rfl) fun full => (ite_run ..).trans (ite_congr rfl (fun _ => rfl) fun wraps => ?_)
  have target : m.Passes m.sp count := ⟨some, passes.2.1, Int64.not_lt.mp full⟩
  by_cases wraps' : (m.word m.sp).toInt + count < (m.word m.sp).toInt
  · simp only [bind_run, block_eq passes, if_pos wraps']
  · simp only [bind_run, block_eq passes, if_neg wraps', setBlock_eq (ofNat_length_words fits passes wraps') target, if_neg wraps, setSp_run]

theorem copyBlock_eq (sane : m.Sane) (count : Int64) :
    copyBlock count m =
      if 1 ≤ m.sp then
        if m.Passes (m.word (m.sp - 1)).toInt count then
          if m.Passes (m.word m.sp).toInt count then
            if (m.word m.sp).toInt + count < (m.word m.sp).toInt then .error .crash m
            else if (m.word (m.sp - 1)).toInt + count < (m.word (m.sp - 1)).toInt then .error .crash m
            else .ok ()
              { m.putAll (m.word (m.sp - 1)).toInt (m.words (m.word m.sp).toInt count) with sp := m.sp - 2 }
          else .error (.fault .segmentation) m
        else .error (.fault .segmentation) m
      else .error (.fault .stackUnderflow) m := by
  obtain ⟨low, high, fits⟩ := sane
  have two : 2 ≤ m.sp + 1 ↔ 1 ≤ m.sp := by grind
  rw [copyBlock, bind_ite (need_eq 2)]
  refine ite_congr (propext two) (fun some => ?_) fun _ => rfl
  have top : 0 ≤ m.sp := by grind
  have below : 0 ≤ m.sp - 1 ∧ m.sp - 1 < m.size := by grind
  rw [bind_ok (sp_run m), bind_ok (peek_eq fits below.1 below.2), bind_ok (peek_eq fits top high),
    bind_ite (checkBlock_eq _ count)]
  refine ite_congr rfl (fun target => ?_) fun _ => rfl
  rw [bind_ite (checkBlock_eq _ count)]
  refine ite_congr rfl (fun source => ?_) fun _ => rfl
  rw [bind_run, block_eq source]
  by_cases wraps : (m.word m.sp).toInt + count < (m.word m.sp).toInt
  · simp only [if_pos wraps]
  simp only [if_neg wraps, bind_run, setBlock_eq (ofNat_length_words fits source wraps) target]
  by_cases wraps' : (m.word (m.sp - 1)).toInt + count < (m.word (m.sp - 1)).toInt
  · simp only [if_pos wraps']
  · simp only [if_neg wraps', setSp_run]

theorem storeBlock_eq (sane : m.Sane) (count : Int64) :
    storeBlock count m =
      if count + 1 ≤ m.sp + 1 then
        if 0 ≤ m.sp - count ∧ m.sp - count < m.size then
          if m.Passes (m.word (m.sp - count)).toInt count then
            if (m.word (m.sp - count)).toInt + count < (m.word (m.sp - count)).toInt then .error .crash m
            else .ok () { m.putAll (m.word (m.sp - count)).toInt (m.words (m.sp - count + 1) count) with
              sp := m.sp - (count + 1) }
          else .error (.fault .segmentation) m
        else .error .crash m
      else .error (.fault .stackUnderflow) m := by
  obtain ⟨low, high, fits⟩ := sane
  rw [storeBlock, bind_ite (need_eq _)]
  refine ite_congr rfl (fun some => ?_) fun _ => rfl
  rw [bind_ok (sp_run m)]
  by_cases held : 0 ≤ m.sp - count ∧ m.sp - count < m.size
  · rw [if_pos held, bind_ok (peek_eq fits held.1 held.2), bind_ite (checkBlock_eq _ count)]
    refine ite_congr rfl (fun target => ?_) fun _ => rfl
    have nonneg := target.2.1
    have source : m.Passes (m.sp - count + 1) count := ⟨by grind, nonneg, by grind⟩
    have ends : ¬m.sp - count + 1 + count < m.sp - count + 1 := by grind
    rw [bind_run, block_eq source, if_neg ends]
    simp only [bind_run, setBlock_eq (ofNat_length_words fits source ends) target]
    by_cases wraps : (m.word (m.sp - count)).toInt + count < (m.word (m.sp - count)).toInt
    · simp only [if_pos wraps]
    · simp only [if_neg wraps, setSp_run]
  · rw [if_neg held, bind_run, peek_outside held]

theorem printTop_eq (sane : m.Sane) (count : Int64) :
    printTop count m =
      if count ≤ m.sp + 1 then
        if count < 0 then .error .crash m
        else .ok ()
          { m with
            output := (Bytes.join " " ((m.words (m.sp - count + 1) count).map Word.display)).foldl Array.push m.output
            sp := m.sp - count }
      else .error (.fault .stackUnderflow) m := by
  obtain ⟨low, high, fits⟩ := sane
  rw [printTop, bind_ite (need_eq _)]
  refine ite_congr rfl (fun some => ?_) fun _ => rfl
  have guard : (m.sp - count + 1 < 0 || count < 0 || m.sp - count + 1 + count < m.sp - count + 1 ||
      m.sp - count + 1 + count > m.size) = true ↔ count < 0 := by grind
  simp only [bind_run, sp_run, block, size_run, guard]
  by_cases negative : count < 0
  · simp only [if_pos negative, bind_run, crash_run]
  · simp only [if_neg negative]
    rfl

/-! ## Input and frames -/

theorem readLine_eq :
    readLine m =
      if m.input.isEmpty then .error (.fault .inputExhausted) m
      else .ok m.line { m with input := m.input.drop ((m.input.takeWhile (· != 0x0A)).length + 1) } := by
  simp only [readLine, bind_run, modifyGet_run]
  cases m.input.isEmpty <;> rfl

theorem enterFrame_eq (sane : m.Sane) (level : Int64) :
    enterFrame level m =
      if level < 0 then .error (.fault .badDisplay) m
      else if m.sp + 1 < m.size then
        .ok () { (m.widened level).put (m.sp + 1) (.int (m.baseAt level)) with
          display := (m.widened level).display.setIfInBounds level.toNatClampNeg (m.sp + 1 + 1)
          sp := m.sp + 1 }
      else .error (.fault .stackOverflow) (m.widened level) := by
  have same : (m.widened level).display.getD level.toNatClampNeg 0 = m.baseAt level := by
    simp only [Machine.widened, Machine.baseAt, Array.getD_eq_getD_getElem?, Array.getElem?_append]
    split
    · rfl
    · have none : m.display[level.toNatClampNeg]? = none := Array.getElem?_eq_none (by omega)
      rw [none, Array.getElem?_replicate]
      split <;> rfl
  have sane' : (m.widened level).Sane := ⟨sane.low, sane.high, sane.fits⟩
  rw [enterFrame, ite_run]
  refine ite_congr rfl (fun _ => rfl) fun _ => ?_
  change (push (.int ((m.widened level).display.getD level.toNatClampNeg 0)) >>= _) (m.widened level) = _
  rw [same, bind_ite (push_eq sane' _)]
  rfl

theorem leaveFrame_eq (sane : m.Sane) (level count : Int64) :
    leaveFrame level count m =
      if inside level m.display.size then
        if 1 ≤ m.sp then
          if m.sp - (count + 2) < -1 then .error (.fault .stackUnderflow)
            { m with display := m.display.setIfInBounds level.toNatClampNeg (m.word m.sp).toInt }
          else .ok (m.word (m.sp - 1)).toInt
            { m with
              display := m.display.setIfInBounds level.toNatClampNeg (m.word m.sp).toInt
              sp := m.sp - (count + 2) }
        else .error (.fault .stackUnderflow) m
      else .error (.fault .badDisplay) m := by
  obtain ⟨low, high, fits⟩ := sane
  have two : 2 ≤ m.sp + 1 ↔ 1 ≤ m.sp := by grind
  cases known : inside level m.display.size with
  | false => simp only [leaveFrame, bind_run, modifyGet_run, known, Bool.not_false, if_true, fail_run, Bool.false_eq_true, if_false]
  | true =>
    rw [leaveFrame, bind_ok (modifyGet_run _ m), known]
    change (need 2 >>= _) m = _
    rw [if_pos rfl, bind_ite (need_eq 2)]
    refine ite_congr (propext two) (fun some => ?_) fun _ => rfl
    have top : 0 ≤ m.sp := by grind
    have below : 0 ≤ m.sp - 1 ∧ m.sp - 1 < m.size := by grind
    rw [bind_ok (sp_run m), bind_ok (peek_eq fits top high), bind_ok (modify_run _ m), bind_ok (peek_eq
      (m := { m with display := m.display.setIfInBounds level.toNatClampNeg (m.word m.sp).toInt }) fits below.1 below.2),
      bind_run, shrink_eq]
    by_cases under : m.sp - (count + 2) < -1
    · simp only [if_pos under]
    · simp only [if_neg under]
      rfl

end Exec

end LyaLang
