import LyaLang.Proofs.Confined
import LyaLang.Proofs.Emit.Running
import LyaLang.Proofs.Emit.Sound

/-! # Values of expressions

A direct evaluator of expressions without calls, on the variables that a machine holds, and the proof that the code
of an expression computes its value. The code works above the stack and leaves everything below as it was; it stops
at a fault where the evaluator does. The parts of an expression are evaluated from left to right, and of a
conditional expression only those that are chosen.
-/

namespace LyaLang

variable {r : Except Trouble Word}

variable {i : Nat}

/-! ## The evaluator -/

/-- Why an expression has no value. -/
inductive Trouble where
  /-- The division at a position has a divisor of zero. -/
  | divisionByZero (position : Nat)
  /-- The check at a position finds an index outside its bounds. -/
  | indexOutOfRange (position : Nat) (index lower upper : Int64)
  /-- A word is read that is not on the stack, or a frame that is not in the display. -/
  | outside
  /-- The expression is no scalar, or has not been checked. -/
  | unchecked
deriving DecidableEq

namespace Machine

/-- The word at an address on the stack. -/
def cell (m : Machine) (addr : Int64) : Except Trouble Word :=
  if 0 ≤ addr ∧ addr ≤ m.sp then .ok (m.word addr) else .error .outside

/-- The address of a word of the frame at a level. -/
def slot (m : Machine) (level offset : Int64) : Except Trouble Int64 :=
  match m.base? level with
  | some base => .ok (base + offset)
  | none => .error .outside

end Machine

namespace Symbol

/-- The address of the storage of a symbol. -/
def placeIn (s : Symbol) (m : Machine) : Except Trouble Word := do
  let addr ← m.slot s.level s.offset
  if s.category.isIndirect then m.cell addr else return .int addr

/-- The value of a symbol. -/
def valueIn (s : Symbol) (m : Machine) : Except Trouble Word := do
  if s.category == .synonym then return s.value
  let w ← m.cell (← m.slot s.level s.offset)
  if s.category.isIndirect then m.cell w.toInt else return w

end Symbol

/-- An index between two bounds; the check stands at a position. -/
def inBounds (position : Nat) (index lower upper : Int64) : Except Trouble Unit :=
  if index < lower || index > upper then .error (.indexOutOfRange position index lower upper) else .ok ()

/-- The address of an element, given that of the whole and an index. The characters of a string follow its length. -/
def Mode.elementAt (mode : Mode) (position : Nat) (whole index : Word) : Except Trouble Word :=
  if mode.isString then do
    inBounds position index.toInt 0 (mode.capacity - 1)
    return .int (whole.toInt + (index.toInt + 1))
  else do
    inBounds position index.toInt mode.lower mode.upper
    return .int (whole.toInt + (index.toInt - mode.lower) * (mode.elem?.map Mode.size).getD 0)

/-- The values of a type take one word, which is no text. -/
def ValueType.isScalar : ValueType → Bool
  | int | bool | char | reference _ => true
  | _ => false

theorem ValueType.isScalar_iff {t : ValueType} (scalar : t.isScalar = true) : t ≠ .string ∧ t.isArray = false := by
  cases t <;> simp_all [isScalar, isArray]

/-- A scalar is loaded by one instruction. -/
theorem Mode.indirectCode_of_isScalar {m : Mode} (scalar : m.type.isScalar = true) :
    m.isString = false ∧ m.isArray = false ∧ m.indirectCode = [.op .grc] := by
  obtain ⟨text, array⟩ := ValueType.isScalar_iff scalar
  have string : m.isString = false := beq_eq_false_iff_ne.mpr text
  refine ⟨string, array, ?_⟩
  rw [Mode.indirectCode, string, Mode.isArray, array]
  rfl

theorem Note.indirectCode_of_isScalar (note : Note) (scalar : note.type.isScalar = true) :
    ∃ m, note.mode = some m ∧ m.indirectCode = [.op .grc] := by
  unfold Note.type at scalar
  cases mode : note.mode with
  | none =>
    rw [mode] at scalar
    cases scalar
  | some m =>
    rw [mode] at scalar
    exact ⟨m, rfl, (Mode.indirectCode_of_isScalar scalar).2.2⟩

theorem Symbol.code_length_pos (s : Symbol) : 0 < s.code.length := by
  unfold Symbol.code
  split
  · exact Nat.one_pos
  · split
    · split
      · exact Nat.one_pos
      · split <;> simp
    · exact Nat.one_pos

theorem Mode.length_elementCode (m : Mode) : m.elementCode.length = 4 := by
  unfold Mode.elementCode
  split <;> rfl

/-- What has an element under several indexes has one under the first, and that one under the others. -/
theorem Mode.isSome_element? (m : Mode) {count : Nat} (isSome : (m.indexed? (count + 1)).isSome = true) :
    (m.element?.bind (·.indexed? count)).isSome = true := by
  unfold Mode.indexed? at isSome
  unfold Mode.element?
  by_cases string : m.isString = true
  · have array : m.isArray = false := by rw [Mode.isArray, beq_iff_eq.mp string]; rfl
    rw [array] at isSome
    simpa [string] using isSome
  · by_cases array : m.isArray = true
    · simpa [string, array] using isSome
    · simp [string, array] at isSome

namespace Ast

/-- The value of an operator on a word. -/
def UnaryOp.compute (o : UnaryOp) (w : Word) : Word :=
  match o with
  | .negate => .int (-w.toInt)
  | .complement => .bool (!w.isTrue)

/-- The value of an operator on two words; the operation stands at a position. -/
def BinaryOp.compute (o : BinaryOp) (position : Nat) (a b : Word) : Except Trouble Word :=
  match o with
  | .add => .ok (.int (a.toInt + b.toInt))
  | .sub => .ok (.int (a.toInt - b.toInt))
  | .mul => .ok (.int (a.toInt * b.toInt))
  | .div => if b.toInt = 0 then .error (.divisionByZero position) else .ok (.int (a.toInt / b.toInt))
  | .mod => if b.toInt = 0 then .error (.divisionByZero position) else .ok (.int (a.toInt % b.toInt))
  | .less => .ok (.bool (a.toInt < b.toInt))
  | .lessEqual => .ok (.bool (a.toInt ≤ b.toInt))
  | .greater => .ok (.bool (b.toInt < a.toInt))
  | .greaterEqual => .ok (.bool (b.toInt ≤ a.toInt))
  | .equal => .ok (.bool (a.same b))
  | .notEqual => .ok (.bool (!a.same b))
  | .both => .ok (.bool (a.isTrue && b.isTrue))
  | .either => .ok (.bool (a.isTrue || b.isTrue))

mutual

/-- The value of an expression whose code starts at a position. -/
def Expr.evaluate (m : Machine) : Expr Note → Nat → Except Trouble Word
  | int _ value, _ => .ok (.int value)
  | bool _ value, _ => .ok (.bool value)
  | char _ value, _ => .ok (.ofChar value)
  | ident id, _ =>
    match id.note.symbol with
    | some s => s.valueIn m
    | none => .error .unchecked
  | unary _ o x, i => do return o.compute (← x.evaluate m i)
  | binary _ o x y, i => do
    let a ← x.evaluate m i
    let b ← y.evaluate m (i + x.valueCode.length)
    o.compute (i + x.valueCode.length + y.valueCode.length) a b
  | cond _ arms otherwise, i => Expr.choose m arms (otherwise.evaluate m) i
  | index _ x indexes, i => do
    let whole ← x.locate m i
    let addr ← Expr.follow m indexes x.note.mode whole (i + x.addressCode.length)
    m.cell addr.toInt
  | deref _ x, i => do m.cell (← x.evaluate m i).toInt
  | ref _ x, i => x.locate m i
  | text _ _, _ | call _ _ _, _ => .error .unchecked

/-- The address of an expression whose code starts at a position. -/
def Expr.locate (m : Machine) : Expr Note → Nat → Except Trouble Word
  | ident id, _ =>
    match id.note.symbol with
    | some s => s.placeIn m
    | none => .error .unchecked
  | index _ x indexes, i => do
    let whole ← x.locate m i
    Expr.follow m indexes x.note.mode whole (i + x.addressCode.length)
  | deref _ x, i => x.evaluate m i
  | _, _ => .error .unchecked

/-- The address of an element under indexes, given that of the whole. -/
def Expr.follow (m : Machine) : List (Expr Note) → Option Mode → Word → Nat → Except Trouble Word
  | [], _, whole, _ => .ok whole
  | e :: rest, some mode, whole, i => do
    let index ← e.evaluate m i
    let part ← mode.elementAt (i + e.valueCode.length) whole index
    Expr.follow m rest mode.element? part (i + e.valueCode.length + mode.elementCode.length)
  | _ :: _, none, _, _ => .error .unchecked

/-- The value of the first arm whose test is true, or else of what follows the arms. -/
def Expr.choose (m : Machine) : List (CondValue Note) → (Nat → Except Trouble Word) → Nat → Except Trouble Word
  | [], otherwise, i => otherwise i
  | .mk _ test value :: rest, otherwise, i => do
    if (← test.evaluate m i).isTrue then value.evaluate m (i + test.valueCode.length + 1)
    else Expr.choose m rest otherwise (i + test.valueCode.length + 1 + value.valueCode.length + 2)

end

mutual

/-- An expression without calls whose parts are scalars, except for what is indexed or referred to. -/
def Expr.isScalar : Expr Note → Bool
  | int note _ | bool note _ | char note _ => note.type.isScalar
  | ident id => id.note.type.isScalar
  | unary note _ x => note.type.isScalar && x.isScalar
  | binary note _ x y => note.type.isScalar && x.isScalar && y.isScalar
  | cond note arms otherwise => note.type.isScalar && Expr.areScalarArms arms && otherwise.isScalar
  | index note x indexes => note.type.isScalar && x.isPlain && Expr.areScalar indexes
  | deref note x => note.type.isScalar && x.isScalar
  | ref note x => note.type.isScalar && x.isPlain
  | text _ _ | call _ _ _ => false

/-- A location that is found without calls. -/
def Expr.isPlain : Expr Note → Bool
  | ident _ => true
  | index _ x indexes => x.isPlain && Expr.areScalar indexes
  | deref _ x => x.isScalar
  | _ => false

def Expr.areScalar : List (Expr Note) → Bool
  | [] => true
  | e :: rest => e.isScalar && Expr.areScalar rest

def Expr.areScalarArms : List (CondValue Note) → Bool
  | [] => true
  | .mk _ test value :: rest => test.isScalar && value.isScalar && Expr.areScalarArms rest

end

theorem Expr.type_of_isScalar {e : Expr Note} (scalar : e.isScalar = true) : e.note.type.isScalar = true := by
  cases e <;> simp_all [Expr.isScalar, Expr.note]

end Ast

/-! ## The code computes the value -/

/-- A run delivers what the evaluator says: it ends at a position with the value above other words, or at the fault. -/
def Delivers (image : Image) (limits : Limits) (m : Machine) (i : Nat) (u : List Word) (j : Nat) (vs : List Word) :
    Except Trouble Word → Prop
  | .ok w => m.Meets image limits i u (.arrives j (w :: vs))
  | .error (.divisionByZero k) => m.Meets image limits i u (.fails k .divisionByZero)
  | .error (.indexOutOfRange k n lower upper) => m.Meets image limits i u (.fails k (.indexOutOfRange n lower upper))
  | .error .outside => True
  | .error .unchecked => False

variable {f : Word → Except Trouble Word}

section

open Machine

variable {image : Image} {limits : Limits} {m : Machine} {i j k : Nat} {u vs ws : List Word}

namespace Delivers

theorem after (first : m.Meets image limits i u (.arrives j vs))
    (second : Delivers image limits m j vs k ws r) : Delivers image limits m i u k ws r := by
  cases r with
  | ok w => exact first.trans second
  | error t =>
    cases t with
    | divisionByZero | indexOutOfRange => exact first.trans second
    | outside => trivial
    | unchecked => exact second

theorem bind (first : Delivers image limits m i u j vs r)
    (second : ∀ w, Delivers image limits m j (w :: vs) k ws (f w)) : Delivers image limits m i u k ws (r >>= f) := by
  cases r with
  | error t => cases t <;> exact first
  | ok w => exact after first (second w)

/-- A value is followed by a run that replaces it by another. -/
theorem map {f : Word → Word} (first : Delivers image limits m i u j vs r)
    (second : ∀ w, m.Meets image limits j (w :: vs) (.arrives k (f w :: ws))) :
    Delivers image limits m i u k ws (do return f (← r)) := first.bind second

/-- A value is followed by a run that keeps it. -/
theorem before (first : Delivers image limits m i u j vs r)
    (second : ∀ w, m.Meets image limits j (w :: vs) (.arrives k (w :: ws))) : Delivers image limits m i u k ws r := by
  cases r with
  | error t => cases t <;> exact first
  | ok w => exact first.trans (second w)

theorem cell_bind {addr : Int64} (inside : 0 ≤ addr → addr ≤ m.sp → Delivers image limits m i u j vs (f (m.word addr))) :
    Delivers image limits m i u j vs (m.cell addr >>= f) := by
  unfold Machine.cell
  split
  · rename_i on
    exact inside on.1 on.2
  · trivial

theorem cell {addr : Int64}
    (inside : 0 ≤ addr → addr ≤ m.sp → m.Meets image limits i u (.arrives j (m.word addr :: vs))) :
    Delivers image limits m i u j vs (m.cell addr) := by
  rw [← bind_pure (m.cell addr)]
  exact cell_bind inside

theorem slot {level offset : Int64} {f : Int64 → Except Trouble Word}
    (inside : ∀ base, m.base? level = some base → Delivers image limits m i u j vs (f (base + offset))) :
    Delivers image limits m i u j vs (m.slot level offset >>= f) := by
  unfold Machine.slot
  cases found : m.base? level with
  | none => trivial
  | some base => exact inside base found

theorem inBounds {n : Word} {lower upper : Int64} (ready : m.Ready image limits)
    (isAt : Draft.IsAt (.op2 .chk lower upper) image i)
    (rest : Delivers image limits m (i + 1) (n :: u) j vs r) :
    Delivers image limits m i (n :: u) j vs (do inBounds i n.toInt lower upper; r) := by
  unfold LyaLang.inBounds
  split
  · rename_i out
    exact Meets.of_fault ready isAt rfl (.peekTop (.guard out _))
  · rename_i within
    exact after (Meets.of_plain ready isAt rfl (.peekTop (.guard within (.pure ())))) rest

end Delivers

variable (ready : m.Ready image limits)

include ready

/-! ## Instructions -/

theorem Ast.UnaryOp.meets (o : UnaryOp) {w : Word} (isAt : Draft.IsAt (.op o.opcode) image i) :
    m.Meets image limits i (w :: u) (.arrives (i + 1) (o.compute w :: u)) := by
  cases o <;> exact .of_plain ready isAt rfl (.onTop _)

theorem Ast.BinaryOp.delivers (o : BinaryOp) {a b : Word} (isAt : Draft.IsAt (.op o.opcode) image i) :
    Delivers image limits m i (b :: a :: u) (i + 1) u (o.compute i a b) := by
  cases o with
  | add | sub | mul => exact Meets.of_plain ready isAt rfl (.arithmetic _)
  | less => exact Meets.of_plain ready isAt rfl (.relation fun a b => a.toInt < b.toInt)
  | lessEqual => exact Meets.of_plain ready isAt rfl (.relation fun a b => a.toInt ≤ b.toInt)
  | greater => exact Meets.of_plain ready isAt rfl (.relation fun a b => b.toInt < a.toInt)
  | greaterEqual => exact Meets.of_plain ready isAt rfl (.relation fun a b => b.toInt ≤ a.toInt)
  | equal => exact Meets.of_plain ready isAt rfl (.relation Word.same)
  | notEqual => exact Meets.of_plain ready isAt rfl (.relation fun a b => !a.same b)
  | both => exact Meets.of_plain ready isAt rfl (.relation fun a b => a.isTrue && b.isTrue)
  | either => exact Meets.of_plain ready isAt rfl (.relation fun a b => a.isTrue || b.isTrue)
  | div | mod =>
    dsimp only [BinaryOp.compute]
    by_cases zero : b.toInt = 0
    · rw [if_pos zero]
      exact Meets.of_fault ready isAt rfl (.division _ zero)
    · rw [if_neg zero]
      exact Meets.of_plain ready isAt rfl (.division _ zero)

/-- Replacing an address by the word there. -/
theorem Machine.delivers_cell {w : Word} (isAt : Draft.IsAt (.op .grc) image i) :
    Delivers image limits m i (w :: u) (i + 1) u (m.cell w.toInt) := by
  refine .cell fun low high => ?_
  have loaded := Exec.Turns.load (u := w :: u) ready.sane low high
  exact Meets.of_plain ready isAt rfl (.peekTop (loaded.bind (.setTop _)))

theorem Symbol.delivers_address (s : Symbol) (isAt : Draft.IsAt s.addressDraft image i) (free : u.length < m.room) :
    Delivers image limits m i u (i + 1) u (s.placeIn m) := by
  refine .slot fun base found => ?_
  have address := Exec.Turns.frameAddress (u := u) found s.offset
  unfold Symbol.addressDraft at isAt
  cases indirect : s.category.isIndirect with
  | false =>
    rw [indirect] at isAt
    exact Meets.of_plain ready isAt rfl (address.bind (.push free _))
  | true =>
    rw [indirect] at isAt
    refine .cell fun low high => ?_
    exact Meets.of_plain ready isAt rfl (address.bind ((Exec.Turns.load ready.sane low high).bind (.push free _)))

/-- Pushing the word of a variable. -/
theorem Symbol.delivers_load (s : Symbol) (isAt : Draft.IsAt s.loadDraft image i) (free : u.length < m.room)
    (storage : (s.category == .synonym) = false) : Delivers image limits m i u (i + 1) u (s.valueIn m) := by
  unfold Symbol.valueIn
  rw [storage]
  refine .slot fun base found => .cell_bind fun low high => ?_
  have address := Exec.Turns.frameAddress (u := u) found s.offset
  have loaded := Exec.Turns.load (u := u) ready.sane low high
  unfold Symbol.loadDraft at isAt
  cases indirect : s.category.isIndirect with
  | false =>
    rw [indirect] at isAt
    exact Meets.of_plain ready isAt rfl (address.bind (loaded.bind (.push free _)))
  | true =>
    rw [indirect] at isAt
    refine .cell fun low high => ?_
    have through := Exec.Turns.load (u := u) ready.sane low high
    exact Meets.of_plain ready isAt rfl (address.bind (loaded.bind (through.bind (.push free _))))

theorem Symbol.delivers_value {s : Symbol} (good : s.Good) (scalar : (Mode.optionType s.mode).isScalar = true)
    (code : image.Holds i s.code) (free : u.length < m.room) :
    Delivers image limits m i u (i + s.code.length) u (s.valueIn m) := by
  obtain ⟨mode, isMode, _, rest⟩ := good
  have type : mode.type.isScalar = true := by rwa [isMode] at scalar
  unfold Symbol.code at code ⊢
  cases synonym : s.category == .synonym with
  | true =>
    have kind : s.value.kind ≠ .text := by
      intro text
      rw [beq_iff_eq.mp synonym] at rest
      rw [rest.kind_text_iff.mp text] at type
      cases type
    have loads : Draft.constant s.value = .load s.value := if_neg (by simpa using kind)
    rw [synonym, loads] at code
    unfold Symbol.valueIn
    rw [synonym]
    exact Meets.load ready _ code.1 free
  | false =>
    obtain ⟨string, array, _⟩ := Mode.indirectCode_of_isScalar type
    simp only [synonym, Bool.false_eq_true, if_false, isMode, string, array] at code ⊢
    exact s.delivers_load ready code.1 free synonym

/-- Turning an index above an address into the address of an element. -/
theorem Mode.delivers_element (mode : Mode) {whole index : Word} (code : image.Holds i mode.elementCode)
    (free : u.length + 2 < m.room) :
    Delivers image limits m i (index :: whole :: u) (i + mode.elementCode.length) u
      (mode.elementAt i whole index) := by
  unfold Mode.elementCode at code ⊢
  unfold Mode.elementAt
  have pushed (w : Word) (isAt : Draft.IsAt (.load w) image (i + 1)) :
      m.Meets image limits (i + 1) (index :: whole :: u) (.arrives (i + 1 + 1) (w :: index :: whole :: u)) :=
    .load ready w isAt free
  by_cases string : mode.isString = true
  · simp only [if_pos string] at code ⊢
    obtain ⟨check, one, add, scale, _⟩ := code
    refine .inBounds ready check (.after (pushed _ one) ?_)
    have sum := Meets.of_plain ready (u := .int 1 :: index :: whole :: u) add rfl (.arithmetic _)
    have element := Meets.of_plain ready (u := .int (index.toInt + 1) :: whole :: u) scale rfl
      (Exec.Turns.operands.bind (.setTop _))
    have same : whole.toInt + (index.toInt + 1) * 1 = whole.toInt + (index.toInt + 1) := by rw [Int64.mul_one]
    refine .after sum ?_
    rw [← same]
    exact element
  · simp only [if_neg string] at code ⊢
    obtain ⟨check, lower, subtract, scale, _⟩ := code
    refine .inBounds ready check (.after (pushed _ lower) ?_)
    have difference := Meets.of_plain ready (u := .int mode.lower :: index :: whole :: u) subtract rfl
      (.arithmetic _)
    exact .after difference (Meets.of_plain ready scale rfl (Exec.Turns.operands.bind (.setTop _)))

/-! ## Expressions -/

namespace Ast

variable {symbols : List Symbol}

mutual

/-- The code of a scalar expression delivers its value. -/
theorem Expr.delivers_value (good : ∀ s ∈ symbols, s.Good) :
    ∀ {e : Expr Note}, e.Typed symbols → e.isScalar = true → ∀ {i : Nat} {u : List Word},
    image.Holds i e.valueCode → u.length + e.valueCode.length ≤ m.room →
    Delivers image limits m i u (i + e.valueCode.length) u (e.evaluate m i)
  | .int _ value, _, _, i, u, code, free | .bool _ value, _, _, i, u, code, free
  | .char _ value, _, _, i, u, code, free => Meets.load ready _ code.1 free
  | .ident id, typed, scalar, i, u, code, free => by
    obtain ⟨s, found, isSymbol, _, mode, _⟩ := typed
    have type : (Mode.optionType s.mode).isScalar = true := by
      rw [← mode]
      exact scalar
    simp only [Expr.valueCode, Expr.evaluate, isSymbol, Option.map_some, Option.getD_some] at code free ⊢
    refine s.delivers_value ready (good s (findSymbol_some found).1) type code ?_
    have := s.code_length_pos
    omega
  | .unary _ o x, typed, scalar, i, u, code, free => by
    simp only [Expr.isScalar, Bool.and_eq_true] at scalar
    simp only [Expr.valueCode, List.length_append, List.length_singleton] at code free ⊢
    obtain ⟨codeX, isAt, _⟩ := Image.holds_append.mp code
    have first := Expr.delivers_value good typed.1 scalar.2 (u := u) codeX (by omega)
    exact first.map fun w => o.meets ready isAt
  | .binary _ o x y, typed, scalar, i, u, code, free => by
    obtain ⟨typedX, typedY, _⟩ := typed
    simp only [Expr.isScalar, Bool.and_eq_true] at scalar
    obtain ⟨⟨_, scalarX⟩, scalarY⟩ := scalar
    have number : (x.note.type == .string) = false :=
      beq_eq_false_iff_ne.mpr (ValueType.isScalar_iff (Expr.type_of_isScalar scalarX)).1
    simp only [Expr.valueCode, List.length_append, List.length_singleton, number] at code free ⊢
    obtain ⟨codeX, code⟩ := Image.holds_append.mp code
    obtain ⟨codeY, isAt, _⟩ := Image.holds_append.mp code
    refine (Expr.delivers_value good typedX scalarX codeX (by omega)).bind fun a => ?_
    have second := Expr.delivers_value good typedY scalarY (u := a :: u) codeY (by rw [List.length_cons]; omega)
    refine second.bind fun b => ?_
    rw [← Nat.add_assoc]
    exact o.delivers ready isAt
  | .cond note arms otherwise, typed, scalar, i, u, code, free => by
    obtain ⟨typedArms, typed, _⟩ := typed
    simp only [Expr.isScalar, Bool.and_eq_true] at scalar
    simp only [Expr.valueCode, List.length_append, List.length_singleton] at code free ⊢
    obtain ⟨codeArms, code⟩ := Image.holds_append.mp code
    obtain ⟨codeLast, exit, _⟩ := Image.holds_append.mp code
    have last := Expr.delivers_value good typed scalar.2 codeLast (u := u) (by omega)
    have chosen := Expr.delivers_arms good typedArms scalar.1.2 codeArms exit (by omega) last
    refine chosen.before fun w => ?_
    rw [← Nat.add_assoc]
    exact .label ready exit
  | .index note x indexes, typed, scalar, i, u, code, free => by
    obtain ⟨typedX, _, typedIndexes, _, mode, isSome, _⟩ := typed
    simp only [Expr.isScalar, Bool.and_eq_true] at scalar
    obtain ⟨⟨type, plain⟩, scalars⟩ := scalar
    obtain ⟨r, isMode, one⟩ := note.indirectCode_of_isScalar type
    simp only [Expr.valueCode, isMode, Option.map_some, Option.getD_some, one, List.length_append,
      List.length_singleton] at code free ⊢
    obtain ⟨codeX, code⟩ := Image.holds_append.mp code
    obtain ⟨codeIndexes, isAt, _⟩ := Image.holds_append.mp code
    rw [mode] at isSome
    refine (Expr.delivers_address good typedX plain codeX (by omega)).bind fun whole => ?_
    refine (Expr.delivers_indexes good typedIndexes scalars isSome codeIndexes (by omega)).bind fun addr => ?_
    rw [← Nat.add_assoc]
    exact Machine.delivers_cell ready isAt
  | .deref note x, typed, scalar, i, u, code, free => by
    simp only [Expr.isScalar, Bool.and_eq_true] at scalar
    obtain ⟨r, isMode, one⟩ := note.indirectCode_of_isScalar scalar.1
    simp only [Expr.valueCode, isMode, Option.map_some, Option.getD_some, one, List.length_append,
      List.length_singleton] at code free ⊢
    obtain ⟨codeX, isAt, _⟩ := Image.holds_append.mp code
    refine (Expr.delivers_value good typed.1 scalar.2 codeX (by omega)).bind fun addr => ?_
    exact Machine.delivers_cell ready isAt
  | .ref _ x, typed, scalar, i, u, code, free => by
    simp only [Expr.isScalar, Bool.and_eq_true] at scalar
    exact Expr.delivers_address good typed.1 scalar.2 code free
  | .text _ _, _, scalar, _, _, _, _ | .call _ _ _, _, scalar, _, _, _, _ => by cases scalar

/-- The code of the address of a location delivers it. -/
theorem Expr.delivers_address (good : ∀ s ∈ symbols, s.Good) :
    ∀ {e : Expr Note}, e.Typed symbols → e.isPlain = true → ∀ {i : Nat} {u : List Word},
    image.Holds i e.addressCode → u.length + e.addressCode.length ≤ m.room →
    Delivers image limits m i u (i + e.addressCode.length) u (e.locate m i)
  | .ident id, typed, _, i, u, code, free => by
    obtain ⟨s, _, isSymbol, _⟩ := typed
    simp only [Expr.addressCode, Expr.locate, isSymbol, Option.map_some, Option.toList_some] at code free ⊢
    exact s.delivers_address ready code.1 free
  | .index note x indexes, typed, plain, i, u, code, free => by
    obtain ⟨typedX, _, typedIndexes, _, mode, isSome, _⟩ := typed
    simp only [Expr.isPlain, Bool.and_eq_true] at plain
    simp only [Expr.addressCode, List.length_append] at code free ⊢
    obtain ⟨codeX, codeIndexes⟩ := Image.holds_append.mp code
    rw [mode] at isSome
    refine (Expr.delivers_address good typedX plain.1 codeX (by omega)).bind fun whole => ?_
    rw [← Nat.add_assoc]
    exact Expr.delivers_indexes good typedIndexes plain.2 isSome codeIndexes (by omega)
  | .deref _ x, typed, plain, i, u, code, free => Expr.delivers_value good typed.1 plain code free
  | .int _ _, _, plain, _, _, _, _ | .bool _ _, _, plain, _, _, _, _ | .char _ _, _, plain, _, _, _, _
  | .text _ _, _, plain, _, _, _, _ | .unary _ _ _, _, plain, _, _, _, _ | .binary _ _ _ _, _, plain, _, _, _, _
  | .cond _ _ _, _, plain, _, _, _, _ | .call _ _ _, _, plain, _, _, _, _ | .ref _ _, _, plain, _, _, _, _ => by
    cases plain

/-- The code of indexes delivers the address of an element. -/
theorem Expr.delivers_indexes (good : ∀ s ∈ symbols, s.Good) : ∀ {es : List (Expr Note)}, Expr.TypedList symbols es → Expr.areScalar es = true →
    ∀ {mode : Option Mode}, (mode.bind (·.indexed? es.length)).isSome = true → ∀ {i : Nat} {u : List Word} {whole : Word},
    image.Holds i (Expr.indexesCode mode es) → u.length + (Expr.indexesCode mode es).length ≤ m.room →
    Delivers image limits m i (whole :: u) (i + (Expr.indexesCode mode es).length) u (Expr.follow m es mode whole i)
  | [], _, _, mode, _, i, u, whole, _, _ => by
    have none : Expr.indexesCode mode [] = [] := by cases mode <;> rfl
    rw [none, Expr.follow]
    exact Meets.refl
  | e :: rest, _, _, none, isSome, _, _, _, _, _ => by cases isSome
  | e :: rest, typed, scalar, some mode, isSome, i, u, whole, code, free => by
    simp only [Expr.areScalar, Bool.and_eq_true] at scalar
    simp only [Expr.indexesCode, List.length_append] at code free ⊢
    obtain ⟨codeE, code⟩ := Image.holds_append.mp code
    obtain ⟨codeElement, codeRest⟩ := Image.holds_append.mp code
    have four := mode.length_elementCode
    refine (Expr.delivers_value good typed.1 scalar.1 codeE (by rw [List.length_cons]; omega)).bind fun index => ?_
    refine (mode.delivers_element ready codeElement (by omega)).bind fun part => ?_
    rw [← Nat.add_assoc, ← Nat.add_assoc]
    exact Expr.delivers_indexes good typed.2 scalar.2 (mode.isSome_element? isSome) codeRest (by omega)

/-- The code of the arms of a conditional expression delivers the value of the arm that is chosen. -/
theorem Expr.delivers_arms (good : ∀ s ∈ symbols, s.Good) {type : ValueType} {exit : Int64} {last : Nat}
    {otherwise : Nat → Except Trouble Word} :
    ∀ {arms : List (CondValue Note)}, Expr.TypedArms symbols type arms → Expr.areScalarArms arms = true →
    ∀ {i : Nat} {u : List Word} {label : Int64}, image.Holds i (Expr.armsCode exit label arms) →
    Draft.IsAt (.op1 .lbl exit) image last → u.length + (Expr.armsCode exit label arms).length ≤ m.room →
    Delivers image limits m (i + (Expr.armsCode exit label arms).length) u last u
      (otherwise (i + (Expr.armsCode exit label arms).length)) →
    Delivers image limits m i u last u (Expr.choose m arms otherwise i)
  | [], _, _, i, u, label, _, _, _, rest => rest
  | .mk _ test value :: arms, typed, scalar, i, u, label, code, isExit, free, rest => by
    obtain ⟨typedTest, _, typedValue, _, typedArms⟩ := typed
    simp only [Expr.areScalarArms, Bool.and_eq_true] at scalar
    simp only [Expr.armsCode, List.length_append, List.length_cons] at code free rest
    obtain ⟨codeTest, branch, code⟩ := Image.holds_append.mp code
    obtain ⟨codeValue, jump, label, codeArms⟩ := Image.holds_append.mp code
    refine (Expr.delivers_value good typedTest scalar.1.1 codeTest (by omega)).bind fun w => ?_
    refine .after (.branch ready branch label) ?_
    cases w.isTrue with
    | true =>
      have chosen := Expr.delivers_value good typedValue scalar.1.2 codeValue (u := u) (by omega)
      exact chosen.before fun _ => .jump ready jump isExit
    | false =>
      simp only [Bool.false_eq_true, if_false]
      refine .after (.label ready label) ?_
      refine Expr.delivers_arms good typedArms scalar.2 codeArms isExit (by omega) ?_
      have same (count : Nat) : i + test.valueCode.length + 1 + value.valueCode.length + 1 + 1 + count =
          i + (test.valueCode.length + (value.valueCode.length + (count + 1 + 1) + 1)) := by omega
      rw [same]
      exact rest

end

end Ast

end

/-! ## Compiled programs -/

open Ast

section

variable {source : Bytes} {p : Program Note} {code : Code} {image : Image}

theorem Code.image_eq (loaded : code.image = .ok image) :
    code.labels = .ok image.labels ∧ image.instructions = code.instructions ∧ image.strings = code.strings := by
  unfold Code.image at loaded
  cases labels : code.labels with
  | error d =>
    rw [labels] at loaded
    cases loaded
  | ok table =>
    rw [labels] at loaded
    cases loaded
    exact ⟨rfl, rfl, rfl⟩

theorem Code.image_linked (loaded : code.image = .ok image) (size : code.instructions.size < 2 ^ 63) : image.Linked := by
  obtain ⟨labels, instructions, _⟩ := Code.image_eq loaded
  rw [← instructions] at size
  refine ⟨size, fun i x found isLabel => ?_⟩
  rw [instructions] at found
  exact (Code.get?_labels_iff labels).mpr ⟨x, found, isLabel, rfl⟩

/-- A string of a compiled program is found at its place. -/
theorem Compiled.text?_pool (compiled : Compiled source p code) (short : source.length < 2 ^ 63)
    (loaded : code.image = .ok image) {d : Draft} (member : d ∈ p.code) {s : Bytes} (isText : d.text = some s) :
    image.text? (code.pool s) = some s := by
  obtain ⟨_, few⟩ := compiled.strings short
  obtain ⟨k, placed⟩ := Option.isSome_iff_exists.mp (compiled.renders.texts d member s isText)
  have found := getElem?_of_placeOf? placed
  have inside := (Array.getElem?_eq_some_iff.mp found).1
  have index : code.pool s = Int64.ofNat k := by rw [Code.pool, placed]; rfl
  have exact' : (Int64.ofNat k).toInt = k := Int64.toInt_ofNat_of_lt (by omega)
  have low : 0 ≤ Int64.ofNat k := by
    rw [Int64.le_iff_toInt_le, exact']
    exact Int.natCast_nonneg k
  have plain := Int64.toInt_eq_toNatClampNeg low
  have same : (Int64.ofNat k).toNatClampNeg = k := by omega
  rw [Image.text?, index, if_neg (Int64.not_lt.mpr low), (Code.image_eq loaded).2.2, same, found]

/-- The image of a compiled program holds the code of its pieces where they are emitted. -/
theorem Compiled.image_holds (compiled : Compiled source p code) (short : source.length < 2 ^ 63)
    (loaded : code.image = .ok image) {k : Piece} (emitted : Emitted p i k) : image.Holds i k.code := by
  obtain ⟨front, back, same, rfl⟩ := emitted.code_eq
  suffices holds : ∀ (ds front : List Draft), p.code = front ++ ds → image.Holds front.length ds by
    exact (Image.holds_append.mp (holds _ front same)).1
  intro ds
  induction ds with
  | nil => exact fun _ _ => trivial
  | cons d rest ih =>
    intro front same
    have there : image.instructions[front.length]? = some (d.resolve code.pool) := by
      rw [(Code.image_eq loaded).2.1, compiled.getElem?, same]
      simp
    refine ⟨?_, by simpa using ih (front ++ [d]) (by simpa using same)⟩
    unfold Draft.IsAt
    unfold Draft.resolve at there
    cases isText : d.text with
    | none => rwa [isText] at there
    | some s =>
      rw [isText] at there
      exact ⟨_, compiled.text?_pool short loaded (by rw [same]; simp) isText, there⟩

end

/-- A run prints nothing and ends with a fault at a position. -/
def Machine.FailsAt (image : Image) (limits : Limits) (m : Machine) (i : Nat) (f : RuntimeFault) : Prop :=
  ∃ k m' op last, m.after image limits k = some m' ∧ m'.output = m.output ∧
    m'.stop image limits = (.failed ⟨Int64.ofNat i, op, f⟩, last)

/-- What a machine makes of an expression whose code ends at a position. A value is pushed, and nothing else on the
stack, in the display or in the output changes; where the evaluator finds a fault, the run ends with it. Nothing is
said where something outside the stack or the display is read. -/
def Machine.Computes (image : Image) (limits : Limits) (m : Machine) (stop : Nat) : Except Trouble Word → Prop
  | .ok w => ∃ k m', m.after image limits k = some m' ∧ m'.pc = Int64.ofNat stop ∧ m'.held = w :: m.held ∧
      m'.memory.size = m.memory.size ∧ m'.display = m.display ∧ m'.input = m.input ∧ m'.output = m.output
  | .error (.divisionByZero i) => m.FailsAt image limits i .divisionByZero
  | .error (.indexOutOfRange i n lower upper) => m.FailsAt image limits i (.indexOutOfRange n lower upper)
  | .error .outside => True
  | .error .unchecked => False

theorem Machine.Meets.failsAt {image : Image} {limits : Limits} {m : Machine} {j : Nat} {f : RuntimeFault}
    (meets : m.Meets image limits i [] (.fails j f)) (sane : m.Sane) (here : m.pc = Int64.ofNat i) :
    m.FailsAt image limits j f := by
  obtain ⟨k, m', ran, ⟨_, above⟩, op, last, stops⟩ := meets m here (.refl sane)
  exact ⟨k, m', op, last, ran, above.output, stops⟩

theorem Delivers.computes {image : Image} {limits : Limits} {m : Machine} {j : Nat}
    (delivers : Delivers image limits m i [] j [] r) (sane : m.Sane) (here : m.pc = Int64.ofNat i) :
    m.Computes image limits j r := by
  cases r with
  | ok w =>
    obtain ⟨k, m', ran, there, above⟩ := delivers m here (.refl sane)
    exact ⟨k, m', ran, there, above.held, above.size, above.display, above.input, above.output⟩
  | error t =>
    cases t with
    | divisionByZero | indexOutOfRange => exact Machine.Meets.failsAt delivers sane here
    | outside => trivial
    | unchecked => exact delivers

/-- In every accepted program, the code of a scalar expression without calls computes what the direct evaluator says,
on every machine that stands at its start and has as many words free as the code has instructions. -/
theorem scalar_expression_runs_to_its_value {source : Bytes} (short : source.length < 2 ^ 63) {made : Compilation}
    {code : Code} (compiled : compile source = .ok made) (linked : made.result = .ok code)
    (size : code.instructions.size < 2 ^ 63) {image : Image} (loaded : code.image = .ok image) {limits : Limits}
    (unlimited : limits.Unlimited) {i : Nat} {e : Expr Note} (emitted : Emitted made.tree i (.value e))
    (scalar : e.isScalar = true) {m : Machine} (sane : m.Sane) (here : m.pc = Int64.ofNat i)
    (free : e.valueCode.length ≤ m.room) : m.Computes image limits (i + e.valueCode.length) (e.evaluate m i) := by
  obtain ⟨_, known, _⟩ := compiled_of_ok compiled linked
  obtain ⟨symbols, good, typed⟩ := known.sound_piece emitted
  have holds : image.Holds i e.valueCode := known.image_holds short loaded emitted
  have ready : m.Ready image limits := ⟨Code.image_linked loaded size, unlimited, sane⟩
  have delivers := Expr.delivers_value ready good typed scalar (u := []) holds (by simpa using free)
  exact delivers.computes sane here

/-- The test of the first `if` among statements whose code starts at a position, and the position of its own. -/
def firstTest? : Nat → List (Stmt Note) → Option (Nat × Expr Note)
  | _, [] => none
  | i, s :: rest =>
    match s with
    | .branch _ (.mk _ test _ :: _) _ => some (i, test)
    | _ => firstTest? (i + s.code.length) rest

theorem emitted_of_firstTest? {p : Program Note} {e : Expr Note}
    (found : firstTest? 1 p.stmts = some (i, e)) : Emitted p i (.value e) := by
  suffices general : ∀ (ss front : List (Stmt Note)), p.stmts = front ++ ss →
      firstTest? ((Stmt.listCode front).length + 1) ss = some (i, e) → Emitted p i (.value e) from
    general p.stmts [] rfl found
  intro ss
  induction ss with
  | nil =>
    intro _ _ found
    cases found
  | cons s rest ih =>
    intro front same found
    have outer : Emitted p ((Stmt.listCode front).length + 1) (.stmt s) := .stmt same
    unfold firstTest? at found
    split at found
    · obtain ⟨rfl, rfl⟩ := found
      exact @Emitted.part _ _ _ _ [] _ outer rfl
    · refine ih (front ++ [s]) (by simpa using same) ?_
      have longer : (Stmt.listCode (front ++ [s])).length + 1 = (Stmt.listCode front).length + 1 + s.code.length := by
        rw [← codeOf_bodySegments, bodySegments, List.map_append, ← bodySegments]
        simp [Piece.code]
        omega
      rw [longer]
      exact found

/-- Whether a run gets in a number of steps to the first test of a program, with a machine that passes a check. -/
def reachesTest (steps : Nat) (passes : Nat → Expr Note → Machine → Bool) (made : Compilation) (code : Code) : Bool :=
  decide (code.instructions.size < 2 ^ 63) && (firstTest? 1 made.tree.stmts).any fun (t : Nat × Expr Note) =>
    code.image.toOption.any fun image => ((Machine.create 64 []).reset.after image {} steps).any fun (m : Machine) =>
      decide (m.pc = Int64.ofNat t.1) && decide (-1 ≤ m.sp ∧ m.sp < m.size) && decide (m.memory.size < 2 ^ 63) &&
        passes t.1 t.2 m

theorem exists_of_reachesTest {steps : Nat} {passes : Nat → Expr Note → Machine → Bool} {made : Compilation} {code : Code}
    (reaches : reachesTest steps passes made code = true) : ∃ image i e m, code.image = .ok image ∧
      code.instructions.size < 2 ^ 63 ∧ Emitted made.tree i (.value e) ∧
      (Machine.create 64 []).reset.after image {} steps = some m ∧ m.Sane ∧ m.pc = Int64.ofNat i ∧ passes i e m = true := by
  simp only [reachesTest, Bool.and_eq_true, decide_eq_true_eq, Option.any_eq_true] at reaches
  obtain ⟨size, t, found, image, isImage, m, reached, ⟨⟨here, low, high⟩, fits⟩, fine⟩ := reaches
  have loaded : code.image = .ok image := by
    cases image? : code.image with
    | error d =>
      rw [image?] at isImage
      cases isImage
    | ok image' =>
      rw [image?] at isImage
      cases isImage
      rfl
  exact ⟨image, t.1, t.2, m, loaded, size, emitted_of_firstTest? found, reached, ⟨low, high, fits⟩, here, fine⟩

/-- A conditional expression over an element of an array, a quotient, and another name of the element. -/
theorem conditional_quotient_runs_to_its_value : ∃ (made : Compilation) (code : Code) (image : Image) (i : Nat)
    (e : Expr Note) (m : Machine),
    compile "dcl a array[1:3] int, i int = 2, c int loc = a[i]; a[i] = 6; if if c > i then a[i] / i else 0 fi == 3 then i = 0; fi;" =
      .ok made ∧ made.result = .ok code ∧ code.image = .ok image ∧ Emitted made.tree i (.value e) ∧
      (Machine.create 64 []).reset.after image {} 18 = some m ∧ e.evaluate m i = .ok (.bool true) ∧
      m.Computes image {} (i + e.valueCode.length) (e.evaluate m i) := by
  obtain ⟨made, code, compiled, linked, fine⟩ := @exists_accepted
    "dcl a array[1:3] int, i int = 2, c int loc = a[i]; a[i] = 6; if if c > i then a[i] / i else 0 fi == 3 then i = 0; fi;"
    (reachesTest 18 fun i e m => e.isScalar && decide (e.evaluate m i = .ok (.bool true)) &&
      decide (e.valueCode.length ≤ m.room)) (by decide +kernel)
  obtain ⟨image, i, e, m, loaded, size, emitted, reached, sane, here, fine⟩ := exists_of_reachesTest fine
  simp only [Bool.and_eq_true, decide_eq_true_eq] at fine
  obtain ⟨⟨scalar, value⟩, free⟩ := fine
  exact ⟨made, code, image, i, e, m, compiled, linked, loaded, emitted, reached, value,
    scalar_expression_runs_to_its_value (by decide +kernel) compiled linked size loaded (fun _ => rfl) emitted scalar
      sane here free⟩

end LyaLang
