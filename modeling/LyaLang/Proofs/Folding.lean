import LyaLang.Proofs.Evaluation

/-! # Constants and the machine

The constant that is noted for an expression is what its code computes: the same word, or a word that refers to the
same text. So code that uses the constant in place of the expression does the same: storing a text from the pool, and
loading the step of a loop.
-/

namespace LyaLang

open Ast Machine

variable {e : Expr Note} {capacity : Int64}

variable {a b c w d : Word} {text : Bytes} {rest : List Word}

/-- A word stands for a constant: it is the constant, or it refers to its text on every machine. -/
def Word.StandsFor (image : Image) (w c : Word) : Prop :=
  if c.kind = .text then ∀ m : Machine, Exec.string image w m = .ok c.text m else w = c

namespace Word.StandsFor

variable {image : Image} {w c : Word}

theorem eq (stands : w.StandsFor image c) (other : c.kind ≠ .text) : w = c := by
  rwa [StandsFor, if_neg other] at stands

theorem string_eq (stands : w.StandsFor image c) (text : c.kind = .text) (m : Machine) :
    Exec.string image w m = .ok c.text m := by
  rw [StandsFor, if_pos text] at stands
  exact stands m

theorem refl (image : Image) (c : Word) : c.StandsFor image c := by
  unfold StandsFor
  split
  · rename_i text
    intro m
    have isText : (c.kind == .text) = true := by rw [text]; rfl
    simp only [Exec.string, isText, if_true]
    rfl
  · rfl

/-- A reference into the pool stands for the text there. -/
theorem of_pool {index : Int64} {s : Bytes} (found : image.text? index = some s) (text : c.kind = .text)
    (same : c.text = s) : (Word.int (-(index + 1))).StandsFor image c := by
  unfold Image.text? at found
  split at found
  · cases found
  · rw [StandsFor, if_pos text, same]
    intro m
    have negative : -(index + 1) < 0 := by grind
    have again : - -(index + 1) - 1 = index := by grind
    simp only [Exec.string, Word.int, if_pos negative, again, found]
    rfl

end Word.StandsFor

section

variable {image : Image} {limits : Limits} {m : Machine} {i : Nat} {u : List Word}

theorem Exec.bind_of_ok {α β : Type} {x : Exec α} {f : α → Exec β} {n n' : Machine} {r : α} (ran : x n = .ok r n') :
    (x >>= f) n = f r n' := by
  rw [Exec.bind_run, ran]

theorem Exec.Turns.string {x : Bytes} (reads : ∀ n, Exec.string image a n = .ok x n) :
    Exec.Turns m (Exec.string image a) u x u := fun n above => ⟨n, reads n, above⟩

theorem Exec.Turns.stringOperands {x y : Bytes} (left : ∀ n, Exec.string image a n = .ok x n)
    (right : ∀ n, Exec.string image b n = .ok y n) :
    Exec.Turns m (Exec.stringOperands image) (b :: a :: u) (x, y) (a :: u) :=
  Exec.Turns.operands.bind ((Exec.Turns.string left).bind ((Exec.Turns.string right).bind (.pure _)))

theorem Exec.Turns.size : Exec.Turns m Exec.size u m.size u := by
  intro n above
  refine ⟨n, ?_, above⟩
  rw [Exec.size_run, Machine.size, above.size]
  rfl

variable (ready : m.Ready image limits)

include ready

/-- Loading a constant pushes a word that stands for it. -/
theorem Draft.meets_constant (isAt : (Draft.constant c).IsAt image i) (free : u.length < m.room) :
    ∃ w, w.StandsFor image c ∧ m.Meets image limits i u (.arrives (i + 1) (w :: u)) := by
  by_cases text : c.kind = .text
  · rw [Draft.constant, if_pos (by simpa using text)] at isAt
    obtain ⟨index, found, there⟩ := isAt
    have pushes : Exec.Turns m (Exec.plain image { op := .lsc, a := index }) u () (.int (-(index + 1)) :: u) :=
      (Exec.Turns.pooled found).bind (.push free _)
    exact ⟨_, .of_pool found text rfl, .of_plain ready there rfl pushes⟩
  · rw [Draft.constant, if_neg (by simpa using text)] at isAt
    exact ⟨c, .refl image c, .load ready c isAt free⟩

/-- An operator on two texts computes what folding them gives. -/
theorem Ast.BinaryOp.meets_texts {o : BinaryOp} {x y : Word} (left : a.StandsFor image x)
    (right : b.StandsFor image y) (textX : x.kind = .text) (textY : y.kind = .text) (folded : o.fold? x y = some c)
    (isAt : (Draft.op o.stringOpcode).IsAt image i)
    (few : o = .add → Text.length x.text + Text.length y.text ≤ m.memory.size) :
    ∃ w, w.StandsFor image c ∧ m.Meets image limits i (b :: a :: u) (.arrives (i + 1) (w :: u)) := by
  have operands : Exec.Turns m (Exec.stringOperands image) (b :: a :: u) (x.text, y.text) (a :: u) :=
    .stringOperands (left.string_eq textX) (right.string_eq textY)
  unfold BinaryOp.fold? at folded
  rw [if_pos (by simpa using textX)] at folded
  cases o with
  | add =>
    have fits := ready.sane.fits
    have sum : (Int64.ofNat (Text.length x.text + Text.length y.text)).toInt = Text.length x.text + Text.length y.text :=
      Int64.toInt_ofNat_of_lt (Nat.lt_of_le_of_lt (few rfl) fits)
    have short : ¬Int64.ofNat (Text.length x.text + Text.length y.text) > m.size := by
      rw [gt_iff_lt, Int64.lt_iff_toInt_lt, toInt_size fits]
      have := few rfl
      omega
    cases folded
    exact ⟨_, .refl image _, .of_plain ready isAt rfl
      (operands.bind (Exec.Turns.size.bind (.guard short (.setTop (.ofText (x.text ++ y.text))))))⟩
  | equal =>
    cases folded
    exact ⟨_, .refl image _, .of_plain ready isAt rfl (operands.bind (.setTop (.bool (x.text == y.text))))⟩
  | notEqual =>
    cases folded
    exact ⟨_, .refl image _, .of_plain ready isAt rfl (operands.bind (.setTop (.bool (x.text != y.text))))⟩
  | _ => cases folded

end

/-! ## Expressions -/

/-- A word that is no text is computed with by its number. -/
theorem Word.toInt_of_kind (other : w.kind ≠ .text) : w.toInt = w.number ∧ w.isTrue = (w.number != 0) := by
  unfold Word.toInt Word.isTrue
  split <;> simp_all

theorem Word.same_of_kind {v : Word} (first : v.kind ≠ .text) (second : w.kind ≠ .text) :
    v.same w = (v.number == w.number) := by
  simp [Word.same, first, second]

namespace Ast

theorem UnaryOp.compute_eq_fold {o : UnaryOp} (other : w.kind ≠ .text) : o.compute w = o.fold w := by
  obtain ⟨number, truth⟩ := Word.toInt_of_kind other
  cases o with
  | negate => rw [UnaryOp.compute, UnaryOp.fold, number]
  | complement =>
    simp only [UnaryOp.compute, UnaryOp.fold, truth]
    cases zero : w.number == 0 <;> simp [bne, zero]

/-- An operator on two words that are no texts computes what folding them gives. -/
theorem BinaryOp.compute_of_fold? {o : BinaryOp} (left : a.kind ≠ .text) (right : b.kind ≠ .text)
    (folded : o.fold? a b = some c) (position : Nat) : o.compute position a b = .ok c := by
  obtain ⟨numberA, truthA⟩ := Word.toInt_of_kind left
  obtain ⟨numberB, truthB⟩ := Word.toInt_of_kind right
  unfold BinaryOp.fold? at folded
  rw [if_neg (by simpa using left)] at folded
  have same := Word.same_of_kind left right
  cases o with
  | div | mod =>
    simp only [BinaryOp.foldNumbers?] at folded
    split at folded
    · cases folded
    · rename_i nonzero
      cases folded
      have divisor : b.number ≠ 0 := by simpa using nonzero
      simp only [BinaryOp.compute, numberA, numberB, if_neg divisor]
  | _ =>
    cases folded
    simp only [BinaryOp.compute, numberA, numberB, truthA, truthB, same, bne]

/-- The number of characters of the text that is noted for an expression. -/
def Expr.textLength (e : Expr Note) : Nat := (e.note.constant.map fun c => Text.length c.text).getD 0

/-- The two parts of every join of noted texts have together at most a number of characters. -/
def Expr.joinsFit (size : Nat) : Expr Note → Bool
  | unary _ _ x => x.joinsFit size
  | binary _ o x y => x.joinsFit size && y.joinsFit size && (o != .add || x.textLength + y.textLength ≤ size)
  | _ => true

theorem Expr.textLength_eq (constant : e.note.constant = some c) : e.textLength = Text.length c.text := by
  rw [Expr.textLength, constant]
  rfl

/-- A noted constant is text exactly in an expression of strings. -/
theorem Expr.Typed.kind_text_iff {symbols : List Symbol} (good : ∀ s ∈ symbols, s.Good)
    (typed : e.Typed symbols) (constant : e.note.constant = some c) :
    c.kind = .text ↔ e.type = .string := by
  obtain ⟨mode, isMode, _, fits⟩ := typed.hasMode good
  rw [Expr.type, type_of_mode isMode]
  exact (fits c constant).kind_text_iff

variable {image : Image} {limits : Limits} {m : Machine} {symbols : List Symbol}

/-- The code of an expression with a noted constant pushes a word that stands for it. -/
theorem Expr.meets_constant (ready : m.Ready image limits) (good : ∀ s ∈ symbols, s.Good) :
    ∀ {e : Expr Note}, e.Typed symbols → ∀ {c : Word}, e.note.constant = some c → e.joinsFit m.memory.size = true →
    ∀ {i : Nat} {u : List Word}, image.Holds i e.valueCode → u.length + e.valueCode.length ≤ m.room →
    ∃ w, w.StandsFor image c ∧ m.Meets image limits i u (.arrives (i + e.valueCode.length) (w :: u))
  | .int _ value, typed, c, constant, _, i, u, code, free | .bool _ value, typed, c, constant, _, i, u, code, free
  | .char _ value, typed, c, constant, _, i, u, code, free | .text _ value, typed, c, constant, _, i, u, code, free => by
    obtain rfl := Option.mem_unique typed.2 constant
    exact Draft.meets_constant ready code.1 free
  | .ident id, typed, c, constant, _, i, u, code, free => by
    obtain ⟨s, _, isSymbol, _, _, noted⟩ := typed
    have value : s.constant? = some c := noted.symm.trans constant
    unfold Symbol.constant? at value
    split at value
    · rename_i synonym
      cases value
      have one : s.code = [.constant s.value] := by rw [Symbol.code, synonym]; rfl
      simp only [Expr.valueCode, isSymbol, Option.map_some, Option.getD_some, one] at code free ⊢
      exact Draft.meets_constant ready code.1 free
    · cases value
  | .unary _ o x, typed, c, constant, joins, i, u, code, free => by
    obtain ⟨typedX, defined, _, noted⟩ := typed
    obtain ⟨a, constantX, rfl⟩ := Option.map_eq_some_iff.mp (noted.symm.trans constant)
    have other : a.kind ≠ .text := by
      intro text
      rw [(typedX.kind_text_iff good constantX).mp text] at defined
      cases o <;> cases defined
    simp only [Expr.valueCode, List.length_append, List.length_singleton] at code free ⊢
    obtain ⟨codeX, isAt, _⟩ := Image.holds_append.mp code
    obtain ⟨w, stands, first⟩ := Expr.meets_constant ready good typedX constantX joins (u := u) codeX (by omega)
    obtain rfl := stands.eq other
    refine ⟨_, .refl image _, first.trans ?_⟩
    rw [← UnaryOp.compute_eq_fold other]
    exact o.meets ready isAt
  | .binary _ o x y, typed, c, constant, joins, i, u, code, free => by
    obtain ⟨typedX, typedY, same, _, _, noted⟩ := typed
    obtain ⟨a, constantX, rest⟩ := Option.bind_eq_some_iff.mp (noted.symm.trans constant)
    obtain ⟨b, constantY, folded⟩ := Option.bind_eq_some_iff.mp rest
    simp only [Expr.joinsFit, Bool.and_eq_true, Bool.or_eq_true, bne_iff_ne, decide_eq_true_eq] at joins
    obtain ⟨⟨joinsX, joinsY⟩, few⟩ := joins
    rw [x.textLength_eq constantX, y.textLength_eq constantY] at few
    have kindX := typedX.kind_text_iff good constantX
    have kindY := typedY.kind_text_iff good constantY
    rw [same] at kindY
    simp only [Expr.valueCode, List.length_append, List.length_singleton] at code free ⊢
    obtain ⟨codeX, code⟩ := Image.holds_append.mp code
    obtain ⟨codeY, isAt, _⟩ := Image.holds_append.mp code
    obtain ⟨v, standsX, first⟩ := Expr.meets_constant ready good typedX constantX joinsX (u := u) codeX (by omega)
    obtain ⟨w, standsY, second⟩ := Expr.meets_constant ready good typedY constantY joinsY (u := v :: u) codeY
      (by rw [List.length_cons]; omega)
    rw [← Nat.add_assoc]
    by_cases string : x.type = .string
    · have opcode : (x.note.type == .string) = true := beq_iff_eq.mpr string
      rw [opcode] at isAt
      obtain ⟨r, stands, last⟩ := BinaryOp.meets_texts ready standsX standsY (kindX.mpr string) (kindY.mpr string) folded
        isAt fun isAdd => few.resolve_left fun other => other isAdd
      exact ⟨r, stands, first.trans (second.trans last)⟩
    · have opcode : (x.note.type == .string) = false := beq_eq_false_iff_ne.mpr string
      have otherX : a.kind ≠ .text := mt kindX.mp string
      have otherY : b.kind ≠ .text := mt kindY.mp string
      rw [opcode] at isAt
      obtain rfl := standsX.eq otherX
      obtain rfl := standsY.eq otherY
      have last := o.delivers ready (u := u) (a := v) (b := w) isAt
      rw [BinaryOp.compute_of_fold? otherX otherY folded] at last
      exact ⟨c, .refl image c, first.trans (second.trans last)⟩
  | .cond _ _ _, typed, c, constant, _, _, _, _, _ => by
    obtain ⟨_, _, _, _, _, none⟩ := typed
    cases none.symm.trans constant
  | .call _ _ _, typed, c, constant, _, _, _, _, _ => by
    obtain ⟨_, _, none⟩ := typed
    cases none.symm.trans constant
  | .index _ _ _, typed, c, constant, _, _, _, _, _ => by
    obtain ⟨_, _, _, _, _, _, none⟩ := typed
    cases none.symm.trans constant
  | .deref _ _, typed, c, constant, _, _, _, _, _ | .ref _ _, typed, c, constant, _, _, _, _, _ => by
    obtain ⟨_, _, _, none⟩ := typed
    cases none.symm.trans constant

end Ast

/-! ## Storing texts -/

namespace Machine

variable {m n : Machine} {addr : Int64} {ws : List Word}

theorem overwrite_take {k start : Nat} {first second : Array Word} (same : first.toList.take k = second.toList.take k) :
    (Exec.overwrite start ws first).toList.take k = (Exec.overwrite start ws second).toList.take k := by
  induction ws generalizing start first second with
  | nil => exact same
  | cons w rest ih =>
    refine ih ?_
    rw [Array.toList_setIfInBounds, Array.toList_setIfInBounds, List.take_set, List.take_set, same]

theorem toList_overwrite {start : Nat} {memory : Array Word} (inside : start + ws.length ≤ memory.size) :
    (Exec.overwrite start ws memory).toList =
      memory.toList.take start ++ (ws ++ memory.toList.drop (start + ws.length)) := by
  induction ws generalizing start memory with
  | nil => simp [Exec.overwrite]
  | cons w rest ih =>
    rw [List.length_cons] at inside
    have here : start < memory.toList.length := by
      rw [Array.length_toList]
      omega
    have low : min start memory.size = start := by omega
    have front : (memory.toList.set start w).take (start + 1) = memory.toList.take start ++ [w] := by
      rw [List.set_eq_take_append_cons_drop, if_pos here, List.take_append]
      simp [List.take_take, low]
    rw [Exec.overwrite, ih (by rw [Array.size_setIfInBounds]; omega), Array.toList_setIfInBounds, front,
      List.drop_set_of_lt (by omega), Nat.add_right_comm start 1, Nat.add_assoc start]
    simp

/-- A block of words lies inside memory. -/
def Encloses (m : Machine) (addr : Int64) (count : Nat) : Prop :=
  0 ≤ addr ∧ addr.toNatClampNeg + count ≤ m.memory.size

theorem Encloses.toNatClampNeg_add {count : Nat} (inside : m.Encloses addr count) (fits : m.memory.size < 2 ^ 63) :
    (addr + Int64.ofNat count).toInt = addr.toNatClampNeg + count ∧
      (addr + Int64.ofNat count).toNatClampNeg = addr.toNatClampNeg + count := by
  obtain ⟨low, high⟩ := inside
  have plain := Int64.toInt_eq_toNatClampNeg low
  have counted : (Int64.ofNat count).toInt = count := Int64.toInt_ofNat_of_lt (by omega)
  have sum : (addr + Int64.ofNat count).toInt = addr.toInt + (Int64.ofNat count).toInt :=
    toInt_add_of_fits (by omega) (by omega)
  have same : (addr + Int64.ofNat count).toInt = (addr + Int64.ofNat count).toNatClampNeg := by
    apply Int64.toInt_eq_toNatClampNeg
    rw [Int64.le_iff_toInt_le]
    change 0 ≤ _
    omega
  omega

theorem words_putAll (inside : m.Encloses addr ws.length) (fits : m.memory.size < 2 ^ 63) :
    (m.putAll addr ws).words addr (Int64.ofNat ws.length) = ws := by
  have start : addr.toNatClampNeg ≤ m.memory.toList.length := by
    rw [Array.length_toList]
    have := inside.2
    omega
  rw [words, putAll, Array.toList_extract, toList_overwrite inside.2, (inside.toNatClampNeg_add fits).2,
    List.extract_eq_take_drop, List.drop_append_of_le_length (by rw [List.length_take]; omega)]
  simp

theorem Encloses.passes {count : Nat} (inside : m.Encloses addr count) (fits : m.memory.size < 2 ^ 63) :
    m.Passes addr (Int64.ofNat count) ∧ ¬addr + Int64.ofNat count < addr := by
  obtain ⟨sum, _⟩ := inside.toNatClampNeg_add fits
  obtain ⟨low, high⟩ := inside
  have plain := Int64.toInt_eq_toNatClampNeg low
  have counted : (Int64.ofNat count).toInt = count := Int64.toInt_ofNat_of_lt (by omega)
  refine ⟨⟨low, ?_, ?_⟩, ?_⟩
  · rw [Int64.le_iff_toInt_le, counted]
    exact Int.natCast_nonneg _
  · rw [Int64.le_iff_toInt_le, toInt_size fits]
    omega
  · rw [Int64.lt_iff_toInt_lt]
    omega

/-- A text is stored in a block inside memory. -/
theorem writeString_of_encloses (fits : m.memory.size < 2 ^ 63)
    (inside : m.Encloses addr (storedWords text capacity).length) :
    Exec.writeString addr text capacity m = .ok () (m.putAll addr (storedWords text capacity)) := by
  obtain ⟨passes, ends⟩ := inside.passes fits
  rw [Exec.writeString_eq, if_pos passes, if_neg ends]

/-- The machine without its topmost word. -/
def popped (m : Machine) : Machine := { m with sp := m.sp - 1 }

/-- A machine without its topmost word and with others stored at an address. Of the memory beyond the stack, only
the words stored are told. -/
structure Stored (m : Machine) (addr : Int64) (ws : List Word) (n : Machine) : Prop where
  sp : n.sp = m.sp - 1
  held : n.held = (m.popped.putAll addr ws).held
  block : n.words addr (Int64.ofNat ws.length) = ws
  display : n.display = m.display
  input : n.input = m.input
  output : n.output = m.output

theorem above_popped (sane : m.Sane) (held : m.held = d :: rest) :
    m.popped.Sane ∧ m.popped.Above [d] m := by
  have length := length_held sane
  rw [held, List.length_cons] at length
  have some : 0 ≤ m.sp := by
    rw [Int64.le_iff_toInt_le]
    change 0 ≤ _
    omega
  have same := held_eq_cons sane some
  have top : m.word m.sp = d := by
    rw [held, List.cons.injEq] at same
    exact same.1.symm
  have low : -1 ≤ m.sp - 1 := by grind
  have high : m.sp - 1 < m.size := by
    have := sane.high
    grind
  refine ⟨⟨low, high, sane.fits⟩, sane, rfl, ?_, rfl, rfl, rfl⟩
  rw [same, top]
  rfl

theorem room_popped (sane : m.Sane) (held : m.held = d :: rest) :
    m.popped.room = m.room + 1 := by
  have fewer := (above_popped sane held).2.held
  have high := Int64.lt_iff_toInt_lt.mp sane.high
  have length := length_held sane
  rw [toInt_size sane.fits] at high
  have longer : m.held.length = m.popped.held.length + 1 := by rw [fewer]; rfl
  change m.memory.size - m.popped.held.length = m.memory.size - m.held.length + 1
  omega

theorem Above.stored (above : m.popped.Above [] n) (sane : m.popped.Sane) (inside : m.Encloses addr ws.length)
    (pc : Int64) : m.Stored addr ws { n.putAll addr ws with pc } := by
  have sp : n.sp = m.popped.sp := by
    have length := length_held above.sane
    rw [above.held, List.nil_append, length_held sane] at length
    exact Int64.toInt_inj.mp (by omega)
  have enclosed : n.Encloses addr ws.length := ⟨inside.1, by rw [above.size]; exact inside.2⟩
  refine ⟨sp, ?_, words_putAll enclosed above.sane.fits, above.display, above.input, above.output⟩
  have same := above.held
  simp only [Machine.held, List.nil_append, sp, List.reverse_inj] at same
  change ((Exec.overwrite _ ws n.memory).toList.take (n.sp + 1).toNatClampNeg).reverse = _
  rw [sp, overwrite_take same]
  rfl

/-- Running an instruction that comes down to storing a text. -/
theorem stored_of_plain {image : Image} {limits : Limits} (ready : m.popped.Ready image limits) {i : Nat} {x : Instruction} {u : List Word} (found : image.instructions[i]? = some x)
    (plain : Exec.step image (Int64.ofNat i) x = (do Exec.plain image x; return some (Int64.ofNat i + 1)))
    (writes : ∀ n, m.popped.Above u n → ∃ n', m.popped.Above [] n' ∧
      Exec.plain image x n = Exec.writeString d.toInt text capacity n')
    (inside : m.Encloses d.toInt (storedWords text capacity).length) (here : n.pc = Int64.ofNat i)
    (above : m.popped.Above u n) :
    ∃ n', n.after image limits 1 = some n' ∧ n'.pc = Int64.ofNat (i + 1) ∧
      m.Stored d.toInt (storedWords text capacity) n' := by
  obtain ⟨n', above', ran⟩ := writes n.tick above.tick
  have enclosed : n'.Encloses d.toInt (storedWords text capacity).length :=
    ⟨inside.1, by rw [above'.size]; exact inside.2⟩
  refine ⟨_, after_one ready found here ?_, rfl, above'.stored ready.sane inside _⟩
  rw [plain, Exec.bind_run, ran, writeString_of_encloses above'.sane.fits enclosed, Int64.ofNat_add]
  rfl

variable {image : Image} {limits : Limits} {i : Nat}

/-- A text of the pool is stored where the topmost word says. -/
theorem stored_of_sts (ready : m.Ready image limits) (held : m.held = d :: rest)
    (inside : m.Encloses d.toInt (storedWords text capacity).length)
    (isAt : (Draft.pooled .sts text capacity).IsAt image i) (here : m.pc = Int64.ofNat i) :
    ∃ k m', m.after image limits k = some m' ∧ m'.pc = Int64.ofNat (i + 1) ∧
      m.Stored d.toInt (storedWords text capacity) m' := by
  obtain ⟨sane, above⟩ := above_popped ready.sane held
  obtain ⟨index, found, there⟩ := isAt
  refine ⟨1, stored_of_plain ⟨ready.linked, ready.unlimited, sane⟩ there rfl (fun n above => ?_) inside here above⟩
  obtain ⟨n₁, ran, above⟩ := Exec.Turns.pooled found n above
  obtain ⟨n₂, ran', above⟩ := Exec.Turns.pop n₁ above
  exact ⟨n₂, above, (Exec.bind_of_ok ran).trans (Exec.bind_of_ok ran')⟩

/-- A text that an address and a word above it refer to is stored at the address. -/
theorem stored_of_scp (ready : m.popped.Ready image limits) (reads : ∀ n, Exec.string image w n = .ok text n)
    (inside : m.Encloses d.toInt (storedWords text capacity).length)
    (isAt : (Draft.op1 .scp capacity).IsAt image i) (here : n.pc = Int64.ofNat i) (above : m.popped.Above [w, d] n) :
    ∃ n', n.after image limits 1 = some n' ∧ n'.pc = Int64.ofNat (i + 1) ∧
      m.Stored d.toInt (storedWords text capacity) n' := by
  refine stored_of_plain ready isAt rfl (fun n above => ?_) inside here above
  obtain ⟨n₁, ran, above⟩ := Exec.Turns.pop n above
  obtain ⟨n₂, ran', above⟩ := Exec.Turns.pop n₁ above
  exact ⟨n₂, above, (Exec.bind_of_ok ran).trans ((Exec.bind_of_ok ran').trans (Exec.bind_of_ok (reads n₂)))⟩

end Machine

/-! ## Compiled programs -/

namespace Ast

/-- The expressions whose values a statement assigns, or by which it counts. -/
def Stmt.operands : Stmt Note → List (Expr Note)
  | declare _ decls => decls.filterMap (·.init)
  | assign _ _ _ value => [value]
  | loop _ (some f) _ _ => f.start :: f.stop :: f.step.toList
  | _ => []

/-- A program uses the value of an expression: it has code for the value, or for a statement that assigns the value
or counts by it. -/
def Program.Uses (p : Program Note) (e : Expr Note) : Prop :=
  ∃ i, Emitted p i (.value e) ∨ ∃ s, Emitted p i (.stmt s) ∧ e ∈ s.operands

theorem Declaration.isTyped_of_each {frame : Int64} {decls : List (Declaration Note)} {V V' : View} (good : V.Good)
    (sound : EachSound (Declaration.Sound frame) V decls V') (member : e ∈ decls.filterMap (·.init)) :
    e.IsTyped := by
  induction decls generalizing V with
  | nil => cases member
  | cons d rest ih =>
    obtain ⟨W, first, sound⟩ := sound
    obtain ⟨d', isDecl, init⟩ := List.mem_filterMap.mp member
    rcases List.mem_cons.mp isDecl with rfl | later
    · obtain ⟨m, _, _, _, initial, _⟩ := first
      rw [init] at initial
      exact ⟨V.symbols, good, initial.1⟩
    · exact ih (Declaration.Sound.good good first) sound (List.mem_filterMap.mpr ⟨d', later, init⟩)

theorem Stmt.Sound.isTyped_operand {frame : Int64} {s : Stmt Note} {V V' : View} (good : V.Good)
    (sound : s.Sound frame V V') (member : e ∈ s.operands) : e.IsTyped := by
  cases s with
  | declare note decls => exact Declaration.isTyped_of_each good sound member
  | assign note target o value =>
    obtain rfl := List.mem_singleton.mp member
    exact ⟨V.symbols, good, sound.2.assigned.1⟩
  | loop note control whilst body =>
    cases control with
    | none => cases member
    | some f =>
      obtain ⟨_, W, W', counts, _⟩ := sound
      rcases List.mem_cons.mp member with rfl | member
      · exact ⟨V.symbols, good, counts.start.1⟩
      rcases List.mem_cons.mp member with rfl | member
      · exact ⟨V.symbols, good, counts.stop.1⟩
      · exact ⟨V.symbols, good, (counts.step e (Option.mem_toList.mp member)).1⟩
  | _ => cases member

end Ast

theorem Compiled.isTyped {source : Bytes} {p : Program Note} {code : Code} (compiled : Compiled source p code) (used : p.Uses e) : e.IsTyped := by
  obtain ⟨i, emitted | ⟨s, emitted, member⟩⟩ := used
  · exact compiled.sound_piece emitted
  · obtain ⟨frame, V, V', good, sound⟩ := compiled.sound_piece emitted
    exact sound.isTyped_operand good member

/-- In every accepted program, the constant noted for an expression is what its code computes, from every machine
with more words free than the code has instructions and with a memory in which its texts can be joined. Loading the
constant, as for the step of a loop, pushes the same, and storing its text from the pool stores the same block. -/
theorem noted_constants_are_computed {source : Bytes} (short : source.length < 2 ^ 63) {made : Compilation} {code : Code}
    (compiled : compile source = .ok made) (linked : made.result = .ok code) {e : Expr Note} (used : made.tree.Uses e)
    {c : Word} (constant : e.note.constant = some c) {image : Image} {limits : Limits} {m : Machine}
    (ready : m.Ready image limits) (free : e.valueCode.length < m.room) (joins : e.joinsFit m.memory.size = true) :
    (code.image = .ok image → ∀ i, Emitted made.tree i (.value e) → image.Holds i e.valueCode) ∧
    (∀ i, image.Holds i e.valueCode → m.pc = Int64.ofNat i →
      ∃ w, w.StandsFor image c ∧ m.Computes image limits (i + e.valueCode.length) (.ok w)) ∧
    (∀ i, image.Holds i [.constant c] → m.pc = Int64.ofNat i →
      ∃ w, w.StandsFor image c ∧ m.Computes image limits (i + 1) (.ok w)) ∧
    ∀ capacity target rest, c.kind = .text → m.held = target :: rest →
      m.Encloses target.toInt (storedWords c.text capacity).length →
      (∀ i, image.Holds i (e.valueCode ++ [.op1 .scp capacity]) → m.pc = Int64.ofNat i →
        ∃ k m', m.after image limits k = some m' ∧ m'.pc = Int64.ofNat (i + e.valueCode.length + 1) ∧
          m.Stored target.toInt (storedWords c.text capacity) m') ∧
      ∀ i, image.Holds i [.pooled .sts c.text capacity] → m.pc = Int64.ofNat i →
        ∃ k m', m.after image limits k = some m' ∧ m'.pc = Int64.ofNat (i + 1) ∧
          m.Stored target.toInt (storedWords c.text capacity) m' := by
  obtain ⟨_, known, _⟩ := compiled_of_ok compiled linked
  obtain ⟨symbols, good, typed⟩ := known.isTyped used
  refine ⟨fun loaded i emitted => known.image_holds short loaded emitted, ?_, ?_, ?_⟩
  · intro i holds here
    obtain ⟨w, stands, meets⟩ := Expr.meets_constant ready good typed constant joins (u := []) holds (by simpa using free.le)
    exact ⟨w, stands, Delivers.computes meets ready.sane here⟩
  · intro i holds here
    obtain ⟨w, stands, meets⟩ := Draft.meets_constant (u := []) ready holds.1 (Nat.zero_lt_of_lt free)
    exact ⟨w, stands, Delivers.computes meets ready.sane here⟩
  · intro capacity target rest text held inside
    refine ⟨fun i holds here => ?_, fun i holds here => stored_of_sts ready held inside holds.1 here⟩
    obtain ⟨sane, above⟩ := above_popped ready.sane held
    have ready' : m.popped.Ready image limits := ⟨ready.linked, ready.unlimited, sane⟩
    obtain ⟨holdsValue, isAt, _⟩ := Image.holds_append.mp holds
    obtain ⟨w, stands, meets⟩ := Expr.meets_constant ready' good typed constant joins (u := [target]) holdsValue
      (by rw [List.length_singleton, room_popped ready.sane held]; omega)
    obtain ⟨k, n, ran, there, above'⟩ := meets m here above
    obtain ⟨n', ran', there', stored⟩ := stored_of_scp ready' (stands.string_eq text) inside isAt there above'
    exact ⟨k + 1, n', (after_trans ran).trans ran', there', stored⟩

/-- A test over joined texts, a synonym and a quotient is noted as true, and computed so. -/
theorem noted_test_is_computed : ∃ (made : Compilation) (code : Code) (image : Image) (i : Nat) (e : Expr Note)
    (m : Machine), compile "syn n = \"ab\" + \"c\"; dcl x int = 7; if n + \"d\" == \"abcd\" && 7 / -2 * 3 < 10 then x = 0; fi;" =
      .ok made ∧ made.result = .ok code ∧ code.image = .ok image ∧ Emitted made.tree i (.value e) ∧
      e.note.constant = some (.bool true) ∧ (Machine.create 64 []).reset.after image {} 3 = some m ∧
      ∃ w, w.StandsFor image (.bool true) ∧ m.Computes image {} (i + e.valueCode.length) (.ok w) := by
  obtain ⟨made, code, compiled, linked, fine⟩ := @exists_accepted
    "syn n = \"ab\" + \"c\"; dcl x int = 7; if n + \"d\" == \"abcd\" && 7 / -2 * 3 < 10 then x = 0; fi;"
    (reachesTest 3 fun _ e m => decide (e.note.constant = some (.bool true)) && decide (e.valueCode.length < m.room) &&
      e.joinsFit m.memory.size) (by decide +kernel)
  obtain ⟨image, i, e, m, loaded, size, emitted, reached, sane, here, fine⟩ := exists_of_reachesTest fine
  simp only [Bool.and_eq_true, decide_eq_true_eq] at fine
  obtain ⟨⟨constant, free⟩, joins⟩ := fine
  have ready : m.Ready image {} := ⟨Code.image_linked loaded size, fun _ => rfl, sane⟩
  have agrees := noted_constants_are_computed (by decide +kernel) compiled linked ⟨i, .inl emitted⟩ constant ready free joins
  exact ⟨made, code, image, i, e, m, compiled, linked, loaded, emitted, constant, reached,
    agrees.2.1 i (agrees.1 loaded i emitted) here⟩

end LyaLang
