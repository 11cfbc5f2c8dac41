import LyaLang.Proofs.Machine.Action
import LyaLang.Proofs.Machine.Run

/-! # Working above a stack

Code that computes a value uses the stack above the words it finds there. What it does is said relative to the
machine on which it starts: which words stand above that machine's stack before and after, while the words below,
the display, the input and the output stay.
-/

namespace LyaLang

variable {addr : Int64} {w : Word}

namespace Machine

/-- The words on the stack, the topmost first. -/
def held (m : Machine) : List Word := (m.memory.toList.take (m.sp + 1).toNatClampNeg).reverse

/-- The number of words above the stack. -/
def room (m : Machine) : Nat := m.memory.size - m.held.length

variable {m n : Machine} {u : List Word}

theorem depth_eq (sane : m.Sane) : ((m.sp + 1).toNatClampNeg) = m.sp.toInt + 1 := by
  have low := Int64.le_iff_toInt_le.mp sane.low
  have high := Int64.lt_iff_toInt_lt.mp sane.high
  have bound := Int64.toInt_lt m.size
  change -1 ≤ _ at low
  have next : (m.sp + 1).toInt = m.sp.toInt + 1 := by
    refine toInt_add_of_fits ?_ ?_
    · change _ ≤ _ + 1
      omega
    · change _ + 1 < _
      omega
  rw [← next, Int64.toInt_eq_toNatClampNeg]
  rw [Int64.le_iff_toInt_le]
  change 0 ≤ _
  omega

theorem length_held (sane : m.Sane) : m.held.length = m.sp.toInt + 1 := by
  have depth := depth_eq sane
  have high := Int64.lt_iff_toInt_lt.mp sane.high
  rw [toInt_size sane.fits] at high
  simp only [held, List.length_reverse, List.length_take, Array.length_toList]
  omega

/-- The word at an address on the stack. -/
theorem getElem?_held (sane : m.Sane) (low : 0 ≤ addr) (high : addr ≤ m.sp) :
    m.held.reverse[addr.toNatClampNeg]? = some (m.word addr) := by
  have depth := depth_eq sane
  have plain := Int64.toInt_eq_toNatClampNeg low
  have order := Int64.le_iff_toInt_le.mp high
  rw [held, List.reverse_reverse, List.getElem?_take_of_lt (by omega), Array.getElem?_toList]
  exact getElem?_eq_word sane.fits low (Int64.lt_of_le_of_lt high sane.high)

/-- The stack is its topmost word above what a pop leaves. -/
theorem held_eq_cons (sane : m.Sane) (some : 0 ≤ m.sp) :
    m.held = m.word m.sp :: { m with sp := m.sp - 1 }.held := by
  have depth := depth_eq sane
  have plain := Int64.toInt_eq_toNatClampNeg some
  have next : (m.sp + 1).toNatClampNeg = m.sp.toNatClampNeg + 1 := by omega
  have again : m.sp - 1 + 1 = m.sp := by grind
  simp only [held, again, next]
  rw [List.take_add_one, Array.getElem?_toList, getElem?_eq_word sane.fits some sane.high]
  simp

/-- A word put above the stack leaves the stack as it is. -/
theorem held_put (beyond : (m.sp + 1).toNatClampNeg ≤ addr.toNatClampNeg) :
    (m.put addr w).held = m.held := by
  simp only [held, put, Array.toList_setIfInBounds]
  rw [List.take_set_of_le beyond]

theorem word_put (fits : m.memory.size < 2 ^ 63) (low : 0 ≤ addr) (high : addr < m.size) (w : Word) :
    (m.put addr w).word addr = w := by
  have inside := toNatClampNeg_lt_size fits low high
  rw [word, if_neg (Int64.not_lt.mpr low), put]
  simp [inside]

/-- One machine has some words above the stack of another, and all else alike but the memory beyond. -/
structure Above (m : Machine) (u : List Word) (n : Machine) : Prop where
  sane : n.Sane
  size : n.memory.size = m.memory.size
  held : n.held = u ++ m.held
  display : n.display = m.display
  input : n.input = m.input
  output : n.output = m.output

namespace Above

theorem refl (sane : m.Sane) : m.Above [] m := ⟨sane, rfl, rfl, rfl, rfl, rfl⟩

theorem nonneg (above : m.Above u n) {vs : List Word} (some : u = w :: vs) : 0 ≤ n.sp := by
  have length := length_held above.sane
  rw [above.held, some, List.cons_append, List.length_cons] at length
  rw [Int64.le_iff_toInt_le]
  change 0 ≤ _
  omega

/-- The topmost word, and the machine without it. -/
theorem cons (above : m.Above (w :: u) n) :
    0 ≤ n.sp ∧ n.word n.sp = w ∧ m.Above u { n with sp := n.sp - 1 } := by
  have some := above.nonneg rfl
  have same := held_eq_cons above.sane some
  rw [above.held, List.cons_append, List.cons.injEq] at same
  have low : -1 ≤ n.sp - 1 := by grind
  have high : n.sp - 1 < n.size := by
    have := above.sane.high
    grind
  exact ⟨some, same.1.symm, ⟨low, high, above.sane.fits⟩, above.size, same.2.symm, above.display, above.input,
    above.output⟩

/-- Another word in the place of the topmost one. -/
theorem put_top (above : m.Above (w :: u) n) (w' : Word) : m.Above (w' :: u) (n.put n.sp w') := by
  obtain ⟨some, _, below⟩ := above.cons
  have sane : (n.put n.sp w').Sane := ⟨above.sane.low, by simpa using above.sane.high, by simpa [put] using above.sane.fits⟩
  have rest : { n.put n.sp w' with sp := n.sp - 1 }.held = u ++ m.held := by
    rw [← below.held]
    refine held_put (m := { n with sp := n.sp - 1 }) (le_of_eq ?_)
    congr 1
    grind
  refine ⟨sane, ?_, ?_, above.display, above.input, above.output⟩
  · simpa [put] using above.size
  · rw [held_eq_cons sane some]
    refine congrArg₂ List.cons ?_ rest
    exact word_put above.sane.fits some above.sane.high w'

/-- Another word above the topmost one. -/
theorem push (above : m.Above u n) (free : u.length < m.room) (w : Word) :
    n.sp + 1 < n.size ∧ m.Above (w :: u) { n.put (n.sp + 1) w with sp := n.sp + 1 } := by
  have length := length_held above.sane
  have depth := depth_eq above.sane
  rw [above.held, List.length_append] at length
  unfold room at free
  have plain : (n.sp + 1).toInt = (n.sp + 1).toNatClampNeg := by
    apply Int64.toInt_eq_toNatClampNeg
    have := above.sane.low
    have := above.sane.high
    grind
  have high : n.sp + 1 < n.size := by
    rw [Int64.lt_iff_toInt_lt, toInt_size above.sane.fits, above.size]
    omega
  have some : 0 ≤ n.sp + 1 := by
    rw [Int64.le_iff_toInt_le]
    change 0 ≤ _
    omega
  have sane : { n.put (n.sp + 1) w with sp := n.sp + 1 }.Sane := by
    refine ⟨?_, by simpa [Machine.size, put] using high, by simpa [put] using above.sane.fits⟩
    grind
  refine ⟨high, sane, ?_, ?_, above.display, above.input, above.output⟩
  · simpa [put] using above.size
  · rw [held_eq_cons sane some, List.cons_append, ← above.held]
    refine congrArg₂ List.cons (word_put above.sane.fits some high w) ?_
    have again : n.sp + 1 - 1 = n.sp := by grind
    rw [again]
    exact held_put le_rfl

/-- The words below are those of the machine at the start. -/
theorem word_eq (above : m.Above u n) (sane : m.Sane) (low : 0 ≤ addr) (high : addr ≤ m.sp) :
    addr ≤ n.sp ∧ n.word addr = m.word addr := by
  have length := length_held above.sane
  have length' := length_held sane
  rw [above.held, List.length_append] at length
  have order : addr ≤ n.sp := by
    rw [Int64.le_iff_toInt_le] at high ⊢
    omega
  have found := getElem?_held sane low high
  have inside := (List.getElem?_eq_some_iff.mp found).1
  have found' := getElem?_held above.sane low order
  rw [above.held, List.reverse_append, List.getElem?_append_left inside, found] at found'
  exact ⟨order, (Option.some.inj found').symm⟩

end Above

end Machine

/-! ## Actions -/

namespace Exec

open Machine

variable {m : Machine} {image : Image} {α β : Type} {u vs ws : List Word} {a b : Word}

/-- An action has a result wherever some words stand above the stack of `m`, and leaves others there. -/
def Turns (m : Machine) (x : Exec α) (u : List Word) (r : α) (vs : List Word) : Prop :=
  ∀ n, m.Above u n → ∃ n', x n = .ok r n' ∧ m.Above vs n'

/-- An action stops at a fault wherever some words stand above the stack of `m`. -/
def Faults (m : Machine) (x : Exec α) (u : List Word) (f : RuntimeFault) : Prop :=
  ∀ n, m.Above u n → ∃ n', x n = .error (.fault f) n'

/-- Looking at the topmost word. -/
theorem peekTop_eq {n : Machine} (above : m.Above (a :: u) n) (f : Word → Exec α) :
    (do need 1; f (← peek (← sp))) n = f a n := by
  obtain ⟨some, top, _⟩ := above.cons
  have one : 1 ≤ n.sp + 1 := by
    have := above.sane.high
    grind
  simp only [bind_run, need_eq, if_pos one, sp_run, peek_eq above.sane.fits some above.sane.high, top]

namespace Turns

theorem pure (r : α) : Turns m (pure r) u r u := fun n above => ⟨n, rfl, above⟩

theorem bind {x : Exec α} {f : α → Exec β} {r : α} {t : β} (first : Turns m x u r vs) (second : Turns m (f r) vs t ws) :
    Turns m (x >>= f) u t ws := by
  intro n above
  obtain ⟨n', ran, above'⟩ := first n above
  rw [bind_run, ran]
  exact second n' above'

theorem faults {x : Exec α} {f : α → Exec β} {r : α} {fault : RuntimeFault} (first : Turns m x u r vs)
    (second : Faults m (f r) vs fault) : Faults m (x >>= f) u fault := by
  intro n above
  obtain ⟨n', ran, above'⟩ := first n above
  rw [bind_run, ran]
  exact second n' above'

theorem push (free : u.length < m.room) (w : Word) : Turns m (push w) u () (w :: u) := by
  intro n above
  obtain ⟨high, pushed⟩ := above.push free w
  exact ⟨_, by rw [push_eq above.sane, if_pos high], pushed⟩

theorem pop : Turns m pop (a :: u) a u := by
  intro n above
  obtain ⟨some, top, below⟩ := above.cons
  exact ⟨_, by rw [pop_eq above.sane, if_pos some, top], below⟩

theorem operands : Turns m operands (b :: a :: u) (a, b) (a :: u) := by
  intro n above
  obtain ⟨some, top, below⟩ := above.cons
  obtain ⟨some', top', _⟩ := below.cons
  have one : 1 ≤ n.sp := by
    grind
  change n.word (n.sp - 1) = a at top'
  exact ⟨_, by rw [operands_eq above.sane, if_pos one, top, top'], below⟩

theorem setTop (w : Word) : Turns m (setTop w) (a :: u) () (w :: u) := by
  intro n above
  exact ⟨_, setTop_eq above.cons.1 above.sane.high w, above.put_top w⟩

theorem peekTop {f : Word → Exec α} {r : α} (rest : Turns m (f a) (a :: u) r vs) :
    Turns m (do need 1; f (← peek (← sp))) (a :: u) r vs := by
  intro n above
  rw [peekTop_eq above]
  exact rest n above

theorem onTop (f : Word → Word) : Turns m (onTop f) (a :: u) () (f a :: u) := peekTop (setTop _)

theorem arithmetic (f : Int64 → Int64 → Int64) :
    Turns m (arithmetic f) (b :: a :: u) () (.int (f a.toInt b.toInt) :: u) := operands.bind (setTop _)

theorem relation (f : Word → Word → Bool) : Turns m (relation f) (b :: a :: u) () (.bool (f a b) :: u) :=
  operands.bind (setTop _)

theorem guard {c : Prop} [Decidable c] (no : ¬c) {x y : Exec α} {r : α} (rest : Turns m y u r vs) :
    Turns m (if c then x else y) u r vs := by
  rwa [if_neg no]

theorem division (f : Int64 → Int64 → Int64) (nonzero : b.toInt ≠ 0) :
    Turns m (division f) (b :: a :: u) () (.int (f a.toInt b.toInt) :: u) :=
  operands.bind (guard (by simpa using nonzero) (setTop _))

/-- Loading a word from the stack of the start. -/
theorem load (sane : m.Sane) (low : 0 ≤ addr) (high : addr ≤ m.sp) :
    Turns m (load addr) u (m.word addr) u := by
  intro n above
  obtain ⟨order, same⟩ := above.word_eq sane low high
  have inside := Int64.lt_of_le_of_lt order above.sane.high
  exact ⟨n, by rw [load_eq above.sane.fits, if_pos ⟨low, inside⟩, same], above⟩

theorem frameAddress {level base : Int64} (found : m.base? level = some base) (offset : Int64) :
    Turns m (frameAddress level offset) u (base + offset) u := by
  intro n above
  have same : n.base? level = some base := by rw [← found, base?, base?, above.display]
  exact ⟨n, by rw [frameAddress_eq, same], above⟩

theorem labelTarget {label : Int64} {position : Nat} (found : image.labels.get? label = some position) :
    Turns m (labelTarget image label) u (Int64.ofNat position) u := by
  unfold Exec.labelTarget
  rw [found]
  exact pure _

theorem pooled {index : Int64} {s : Bytes} (found : image.text? index = some s) :
    Turns m (pooled image index) u s u := by
  intro n above
  exact ⟨n, by rw [pooled_eq, found], above⟩

end Turns

theorem Faults.peekTop {f : Word → Exec α} {fault : RuntimeFault} (rest : Faults m (f a) (a :: u) fault) :
    Faults m (do need 1; f (← peek (← sp))) (a :: u) fault := by
  intro n above
  rw [peekTop_eq above]
  exact rest n above

theorem Faults.guard {c : Prop} [Decidable c] (yes : c) (f : RuntimeFault) {y : Exec α} :
    Faults m (if c then fail f else y) u f := by
  rw [if_pos yes]
  exact fun n _ => ⟨n, rfl⟩

theorem Faults.division (f : Int64 → Int64 → Int64) (zero : b.toInt = 0) :
    Faults m (division f) (b :: a :: u) .divisionByZero := by
  refine Turns.operands.faults ?_
  dsimp only
  rw [if_pos (by simpa using zero)]
  exact fun n _ => ⟨n, rfl⟩

end Exec

end LyaLang
