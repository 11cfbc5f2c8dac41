import Mathlib.Data.List.Forall2
import LyaLang.Check.ModeExpr
import LyaLang.Proofs.Scope.Good

/-! # Typed expressions and modes

What the notes of an expression or mode expression say once it has been checked without a fault, read
off the visible symbols alone: which symbol each name denotes, the mode of each part, and the constant
of each part that has one.
-/

namespace LyaLang

variable {symbols : List Symbol} {t : ValueType}

variable {m : Mode} {op : BinaryOp} {k : Word} {note : Note}

/-- The constant that a name stands for. -/
def Symbol.constant? (s : Symbol) : Option Word := if s.category = .synonym then some s.value else none

/-- Whether a name can stand for a value. -/
def Symbol.IsValue (s : Symbol) : Prop := s.category ≠ .mode ∧ s.category ≠ .procedure

open Ast

/-- A location of as many words as a mode has. -/
def Ast.Expr.IsLocationOf (m : Mode) (e : Expr Note) : Prop :=
  e.isLocation = true ∧ ∃ m', e.note.mode = some m' ∧ m.size = m'.size

/-- A parameter takes an argument of its type; by location, it takes a location of its size. -/
def Parameter.Takes (p : Parameter) (a : Expr Note) : Prop :=
  ∃ m, p.mode = some m ∧ a.type = m.type ∧ (p.loc = true → a.IsLocationOf m)

/-- What can be read into. -/
def Readable (a : Expr Note) : Prop :=
  a.isLocation = true ∧ a.type.isArray = false ∧ a.type.isReference = false

/-- What can be printed. -/
def Printable (a : Expr Note) : Prop :=
  a.type ≠ .void ∧ (a.type.isArray = true → a.type.innermost ≠ .string ∧ a.isLocation = true)

/-- A procedure takes arguments. -/
def Procedure.Takes (p : Procedure) (args : List (Expr Note)) : Prop :=
  match p.builtin with
  | some .read => ∀ a ∈ args, Readable a
  | some .print => ∀ a ∈ args, Printable a
  | some (.operation _ accepts) => ∃ a, args = [a] ∧ a.type ∈ accepts
  | none => List.Forall₂ Parameter.Takes p.params args

/-- The mode of an element under a number of indexes: of an array, or a character of a string. -/
def Mode.indexed? : Mode → Nat → Option Mode
  | m, 0 => some m
  | m, count + 1 =>
    if m.isArray then m.elem?.bind (·.indexed? count)
    else if m.isString then Mode.char.indexed? count
    else none

theorem Mode.Proper.indexed? {r : Mode} {count : Nat} (proper : m.Proper) (indexed : m.indexed? count = some r) :
    r.Proper := by
  induction count generalizing m with
  | zero =>
    cases indexed
    exact proper
  | succ count ih =>
    unfold Mode.indexed? at indexed
    split at indexed
    case isTrue array =>
      obtain ⟨elem, element, properElem, _⟩ := proper.elem_of_isArray array
      rw [element] at indexed
      exact ih properElem indexed
    case isFalse =>
      split at indexed
      · exact ih (show Mode.char.Proper from trivial) indexed
      · cases indexed

namespace Ast

/-- A name of a procedure that takes the given arguments, and its result. -/
def CallTyped (symbols : List Symbol) (callee : Ident Note) (args : List (Expr Note)) (result : Option Mode) : Prop :=
  ∃ symbol proc, findSymbol symbols callee.name = some symbol ∧ callee.note.symbol = some symbol ∧
    symbol.category = .procedure ∧ symbol.proc = some proc ∧ proc.Takes args ∧ result = some proc.result

mutual

/-- An expression is typed under visible symbols. -/
def Expr.Typed (symbols : List Symbol) : Expr Note → Prop
  | int note value => note.mode = some .int ∧ note.constant = some (.int value)
  | bool note value => note.mode = some .bool ∧ note.constant = some (.bool value)
  | char note value => note.mode = some .char ∧ note.constant = some (.ofChar value)
  | text note value =>
    note.mode = some (.chars (Int64.ofNat (Text.length value))) ∧ note.constant = some (.ofText value)
  | ident id =>
    ∃ symbol, findSymbol symbols id.name = some symbol ∧ id.note.symbol = some symbol ∧ symbol.IsValue ∧
      id.note.mode = symbol.mode ∧ id.note.constant = symbol.constant?
  | unary note op x =>
    x.Typed symbols ∧ op.definedOn x.type = true ∧ note.mode = Mode.ofScalar? x.type ∧
      note.constant = x.note.constant.map op.fold
  | binary note op x y =>
    x.Typed symbols ∧ y.Typed symbols ∧ y.type = x.type ∧ op.definedOn x.type = true ∧
      note.mode = (if op.isRelational then some .bool else Mode.ofScalar? x.type) ∧
      note.constant = x.note.constant.bind fun a => y.note.constant.bind fun b => op.fold? a b
  | cond note branches otherwise =>
    Expr.TypedArms symbols otherwise.type branches ∧ otherwise.Typed symbols ∧
      otherwise.type.isArray = false ∧ otherwise.type ≠ .void ∧
      note.mode = (if otherwise.type = .string then some .string else otherwise.note.mode) ∧
      note.constant = none
  | call note callee args =>
    Expr.TypedList symbols args ∧ CallTyped symbols callee args note.mode ∧ note.constant = none
  | index note x indexes =>
    x.Typed symbols ∧ x.isLocation = true ∧ Expr.TypedList symbols indexes ∧ (∀ i ∈ indexes, i.type = .int) ∧
      note.mode = (x.note.mode.bind (·.indexed? indexes.length)) ∧ note.mode.isSome = true ∧ note.constant = none
  | deref note x =>
    x.Typed symbols ∧ x.type.isReference = true ∧ note.mode = x.note.mode.bind Mode.elem? ∧ note.constant = none
  | ref note x =>
    x.Typed symbols ∧ x.isLocation = true ∧ note.mode = x.note.mode.map .ref ∧ note.constant = none

/-- Expressions that are typed. -/
def Expr.TypedList (symbols : List Symbol) : List (Expr Note) → Prop
  | [] => True
  | e :: rest => e.Typed symbols ∧ Expr.TypedList symbols rest

/-- Arms that are typed and have values of one type. -/
def Expr.TypedArms (symbols : List Symbol) (type : ValueType) : List (CondValue Note) → Prop
  | [] => True
  | .mk _ test value :: rest =>
    test.Typed symbols ∧ test.type = .bool ∧ value.Typed symbols ∧ value.type = type ∧
      Expr.TypedArms symbols type rest

end

theorem Expr.typedList_iff {es : List (Expr Note)} : Expr.TypedList symbols es ↔ ∀ e ∈ es, e.Typed symbols := by
  induction es with
  | nil => simp [Expr.TypedList]
  | cons e rest ih => simp [Expr.TypedList, ih]

/-! ## Modes and constants of typed expressions -/

theorem UnaryOp.isBasic_of_definedOn {op : UnaryOp} (defined : op.definedOn t = true) : t.IsBasic := by
  cases op <;> cases t <;> trivial

theorem BinaryOp.isBasic_of_definedOn (defined : op.definedOn t = true) : t.IsBasic := by
  cases t <;> trivial

theorem UnaryOp.fits_fold {op : UnaryOp} (defined : op.definedOn t = true)
    (fits : k.Fits t) : (op.fold k).Fits t := by
  cases op <;> cases t <;> simp [UnaryOp.definedOn] at defined
  · exact ⟨_, rfl⟩
  · exact ⟨_, rfl⟩

/-- The type of an operator on two operands of a type. -/
def BinaryOp.resultType (op : BinaryOp) (t : ValueType) : ValueType := if op.isRelational then .bool else t

theorem BinaryOp.fits_foldNumbers? {x y : Int64} (defined : op.definedOn t = true) (text : t ≠ .string) (folded : op.foldNumbers? x y = some k) :
    k.Fits (op.resultType t) := by
  cases t with
  | int =>
    cases op <;> simp [BinaryOp.definedOn, BinaryOp.isArithmetic, BinaryOp.isRelational] at defined <;>
      simp only [BinaryOp.foldNumbers?, Option.some.injEq] at folded
    case div | mod =>
      split at folded
      · cases folded
      · cases folded
        exact ⟨_, rfl⟩
    all_goals
      subst folded
      exact ⟨_, rfl⟩
  | bool =>
    cases op <;> simp [BinaryOp.definedOn] at defined <;>
      simp only [BinaryOp.foldNumbers?, Option.some.injEq] at folded <;>
      · subst folded
        exact ⟨_, rfl⟩
  | char =>
    cases op <;> simp [BinaryOp.definedOn, BinaryOp.isRelational] at defined <;>
      simp only [BinaryOp.foldNumbers?, Option.some.injEq] at folded <;>
      · subst folded
        exact ⟨_, rfl⟩
  | string => exact absurd rfl text
  | _ => simp [BinaryOp.definedOn] at defined

/-- A constant folded from constants of a type fits the type of the operator. -/
theorem BinaryOp.fits_fold? {x y : Word} (defined : op.definedOn t = true)
    (fits : x.Fits t) (folded : op.fold? x y = some k) : k.Fits (op.resultType t) := by
  unfold BinaryOp.fold? at folded
  by_cases text : t = .string
  · have kind := fits.kind_text_iff.mpr text
    subst text
    rw [if_pos (by rw [kind]; rfl)] at folded
    cases op <;> simp [BinaryOp.definedOn] at defined <;> simp only [Option.some.injEq] at folded <;>
      · subst folded
        exact ⟨_, rfl⟩
  · have kind : (x.kind == .text) = false := beq_eq_false_iff_ne.mpr fun same => text (fits.kind_text_iff.mp same)
    rw [kind] at folded
    exact BinaryOp.fits_foldNumbers? defined text folded

/-- A note has a proper mode, and its constant, if there is one, fits it. -/
def HasMode (note : Note) : Prop :=
  ∃ m, note.mode = some m ∧ m.Proper ∧ ∀ k, note.constant = some k → k.Fits m.type

theorem type_of_mode (mode : note.mode = some m) : note.type = m.type := by
  rw [Note.type, mode]
  rfl

theorem HasMode.type_isKnown (hasMode : HasMode note) : note.type.isKnown = true := by
  obtain ⟨m, mode, _⟩ := hasMode
  rw [type_of_mode mode, Mode.type_isKnown]

/-- A note without a constant has a mode if it has a proper one. -/
private theorem HasMode.of_none (mode : note.mode = some m) (proper : m.Proper)
    (constant : note.constant = none) : HasMode note := by
  refine ⟨m, mode, proper, ?_⟩
  intro k some
  rw [constant] at some
  cases some

private theorem HasMode.of_some (mode : note.mode = some m) (proper : m.Proper)
    (constant : note.constant = some k) (fits : k.Fits m.type) : HasMode note := by
  refine ⟨m, mode, proper, ?_⟩
  intro k' same
  rw [constant] at same
  cases same
  exact fits

private theorem hasMode_ident (good : ∀ s ∈ symbols, s.Good) {id : Ident Note}
    (typed : (Expr.ident id).Typed symbols) : HasMode id.note := by
  obtain ⟨symbol, found, _, _, mode, constant⟩ := typed
  obtain ⟨m, symbolMode, proper, rest⟩ := good symbol (findSymbol_some found).1
  rw [symbolMode] at mode
  by_cases synonym : symbol.category = .synonym
  · rw [Symbol.constant?, if_pos synonym] at constant
    rw [synonym] at rest
    exact .of_some mode proper constant rest
  · rw [Symbol.constant?, if_neg synonym] at constant
    exact .of_none mode proper constant

/-- The procedure of a typed call. -/
theorem CallTyped.procedure (good : ∀ s ∈ symbols, s.Good) {callee : Ident Note} {args : List (Expr Note)}
    {result : Option Mode} (typed : CallTyped symbols callee args result) :
    ∃ proc, callee.note.symbol.bind (·.proc) = some proc ∧ proc.Good ∧ proc.Takes args ∧ result = some proc.result := by
  obtain ⟨symbol, proc, found, isSymbol, category, isProc, takes, isResult⟩ := typed
  obtain ⟨fine, _⟩ := (good symbol (findSymbol_some found).1).proc category isProc
  exact ⟨proc, bind_proc isSymbol isProc, fine, takes, isResult⟩

/-- Every typed expression has a proper mode. -/
theorem Expr.Typed.hasMode (good : ∀ s ∈ symbols, s.Good) : ∀ {e : Expr Note}, e.Typed symbols → HasMode e.note
  | .int _ _, ⟨mode, constant⟩ | .bool _ _, ⟨mode, constant⟩ | .char _ _, ⟨mode, constant⟩
  | .text _ _, ⟨mode, constant⟩ => .of_some mode trivial constant ⟨_, rfl⟩
  | .ident _, typed => hasMode_ident good typed
  | .unary note op x, typed => by
    obtain ⟨typed, defined, mode, constant⟩ := typed
    obtain ⟨m, modeX, _, fits⟩ := typed.hasMode good
    obtain ⟨r, result, proper, type⟩ := Mode.ofScalar?_of_isBasic (UnaryOp.isBasic_of_definedOn defined)
    refine ⟨r, mode.trans result, proper, ?_⟩
    intro k folded
    obtain ⟨c, constantX, rfl⟩ := Option.map_eq_some_iff.mp (constant.symm.trans folded)
    rw [type]
    exact UnaryOp.fits_fold defined (by rw [Expr.type, type_of_mode modeX]; exact fits c constantX)
  | .binary note op x y, typed => by
    obtain ⟨typed, _, _, defined, mode, constant⟩ := typed
    obtain ⟨m, modeX, _, fits⟩ := typed.hasMode good
    obtain ⟨r, result, proper, type⟩ := Mode.ofScalar?_of_isBasic (BinaryOp.isBasic_of_definedOn defined)
    have constants : ∀ k, note.constant = some k → k.Fits (op.resultType x.type) := by
      intro k folded
      rw [folded] at constant
      obtain ⟨a, constantX, rest⟩ := Option.bind_eq_some_iff.mp constant.symm
      obtain ⟨b, _, folded⟩ := Option.bind_eq_some_iff.mp rest
      exact BinaryOp.fits_fold? defined (by rw [Expr.type, type_of_mode modeX]; exact fits a constantX) folded
    rw [BinaryOp.resultType] at constants
    cases relational : op.isRelational with
    | true =>
      rw [relational] at mode constants
      exact ⟨.bool, mode, trivial, constants⟩
    | false =>
      rw [relational] at mode constants
      exact ⟨r, mode.trans result, proper, by rw [type]; exact constants⟩
  | .cond note _ otherwise, typed => by
    obtain ⟨_, typed, _, _, mode, constant⟩ := typed
    by_cases text : otherwise.type = .string
    · rw [if_pos text] at mode
      exact .of_none mode trivial constant
    · rw [if_neg text] at mode
      obtain ⟨m, modeX, proper, _⟩ := typed.hasMode good
      exact .of_none (mode.trans modeX) proper constant
  | .call note callee args, typed => by
    obtain ⟨_, call, constant⟩ := typed
    obtain ⟨_, _, fine, _, mode⟩ := call.procedure good
    exact .of_none mode fine.1 constant
  | .index note x indexes, typed => by
    obtain ⟨typed, _, _, _, mode, some, constant⟩ := typed
    obtain ⟨m, modeX, proper, _⟩ := typed.hasMode good
    obtain ⟨r, result⟩ := Option.isSome_iff_exists.mp some
    rw [result, modeX] at mode
    exact .of_none result (proper.indexed? mode.symm) constant
  | .deref note x, typed => by
    obtain ⟨typed, reference, mode, constant⟩ := typed
    obtain ⟨m, modeX, proper, _⟩ := typed.hasMode good
    rw [Expr.type, type_of_mode modeX] at reference
    obtain ⟨target, elem, properTarget, _⟩ := proper.target_of_isReference reference
    rw [modeX, Option.bind_some, elem] at mode
    exact .of_none mode properTarget constant
  | .ref note x, typed => by
    obtain ⟨typed, _, mode, constant⟩ := typed
    obtain ⟨m, modeX, proper, _⟩ := typed.hasMode good
    rw [modeX] at mode
    exact .of_none mode proper constant

/-- The modes in front of the indexes of a typed expression and behind them. -/
theorem Expr.Typed.index_modes (good : ∀ s ∈ symbols, s.Good) {x : Expr Note} {indexes : List (Expr Note)}
    (typed : (Expr.index note x indexes).Typed symbols) :
    ∃ m r, x.note.mode = some m ∧ m.Proper ∧ note.mode = some r ∧ m.indexed? indexes.length = some r := by
  obtain ⟨typed, _, _, _, mode, some, _⟩ := typed
  obtain ⟨m, isMode, proper, _⟩ := typed.hasMode good
  obtain ⟨r, result⟩ := Option.isSome_iff_exists.mp some
  rw [result, isMode] at mode
  exact ⟨m, r, isMode, proper, result, mode.symm⟩

/-! ## Mode expressions -/

/-- The name of a mode. -/
def ModeName.Typed (symbols : List Symbol) (m : ModeName Note) : Prop :=
  ∃ symbol, findSymbol symbols m.id.name = some symbol ∧ m.id.note.symbol = some symbol ∧ symbol.category = .mode ∧
    m.note.mode = symbol.mode

/-- A constant of a type, given by its number. -/
def Expr.IsBound (symbols : List Symbol) (type : ValueType) (e : Expr Note) (n : Int64) : Prop :=
  e.Typed symbols ∧ e.type = type ∧ ∃ k, e.note.constant = some k ∧ k.number = n

/-- The base of a range: the integers, or a named mode of one word that is no reference. -/
def IsBase (symbols : List Symbol) : Option (ModeName Note) → Mode → Prop
  | none, mode => mode = .int
  | some name, mode =>
    name.Typed symbols ∧ name.note.mode = some mode ∧ mode.size = 1 ∧ mode.type.isReference = false

mutual

/-- A mode expression is typed under visible symbols. -/
def ModeExpr.Typed (symbols : List Symbol) : ModeExpr Note → Prop
  | name m => m.Typed symbols
  | range note base lo hi =>
    ∃ mode lower upper, IsBase symbols base mode ∧ lo.IsBound symbols mode.type lower ∧
      hi.IsBound symbols mode.type upper ∧ lower ≤ upper ∧ note.mode = some (.range mode lower upper)
  | ref note elem => elem.Typed symbols ∧ note.mode = elem.note.mode.map .ref
  | chars note len => ∃ length, len.IsBound symbols .int length ∧ 1 ≤ length ∧ note.mode = some (.chars length)
  | array note indexes elem =>
    elem.Typed symbols ∧ ∃ modes mode, ModeExpr.TypedIndexes symbols indexes modes ∧
      elem.note.mode = some mode ∧ mode.size ≠ 0 ∧ note.mode = some (mode.arrayOf modes)

/-- The index modes of an array, each an integer range. -/
def ModeExpr.TypedIndexes (symbols : List Symbol) : List (ModeExpr Note) → List Mode → Prop
  | [], modes => modes = []
  | index :: rest, modes =>
    ∃ mode modes', modes = mode :: modes' ∧ index.Typed symbols ∧ index.note.mode = some mode ∧
      mode.isRange = true ∧ mode.type = .int ∧ ModeExpr.TypedIndexes symbols rest modes'

end

theorem ModeName.Typed.hasMode (good : ∀ s ∈ symbols, s.Good) {m : ModeName Note}
    (typed : m.Typed symbols) : ∃ mode, m.note.mode = some mode ∧ mode.Proper := by
  obtain ⟨symbol, found, _, _, mode⟩ := typed
  obtain ⟨m, symbolMode, proper, _⟩ := good symbol (findSymbol_some found).1
  exact ⟨m, mode.trans symbolMode, proper⟩

theorem Expr.IsBound.isBasic (good : ∀ s ∈ symbols, s.Good) {type : ValueType} {e : Expr Note}
    {n : Int64} (bound : e.IsBound symbols type n) : type.IsBasic := by
  obtain ⟨typed, rfl, k, constant, _⟩ := bound
  obtain ⟨m, mode, _, fits⟩ := typed.hasMode good
  rw [Expr.type, type_of_mode mode]
  exact (fits k constant).isBasic

private theorem IsBase.proper (good : ∀ s ∈ symbols, s.Good) {base : Option (ModeName Note)}
    {mode : Mode} (isBase : IsBase symbols base mode) : mode.Proper := by
  cases base with
  | none =>
    cases isBase
    trivial
  | some name =>
    obtain ⟨typed, isMode, _⟩ := isBase
    obtain ⟨m, same, proper⟩ := typed.hasMode good
    obtain rfl := Option.mem_unique isMode same
    exact proper

mutual

/-- Every typed mode expression has a proper mode. -/
theorem ModeExpr.Typed.hasMode {symbols : List Symbol} (good : ∀ s ∈ symbols, s.Good) :
    ∀ {m : ModeExpr Note}, m.Typed symbols → ∃ mode, m.note.mode = some mode ∧ mode.Proper
  | .name _, typed => ModeName.Typed.hasMode good typed
  | .range note base lo hi, typed => by
    obtain ⟨b, lower, upper, isBase, isLo, _, ordered, mode⟩ := typed
    exact ⟨_, mode, isBase.proper good, isLo.isBasic good, ordered⟩
  | .ref note elem, typed => by
    obtain ⟨typed, mode⟩ := typed
    obtain ⟨target, modeElem, proper⟩ := typed.hasMode good
    rw [modeElem] at mode
    exact ⟨_, mode, proper⟩
  | .chars _ _, typed => by
    obtain ⟨length, _, _, mode⟩ := typed
    exact ⟨_, mode, trivial⟩
  | .array note indexes elem, typed => by
    obtain ⟨typed, modes, m, ranges, modeElem, _, mode⟩ := typed
    obtain ⟨elemMode, same, proper⟩ := typed.hasMode good
    obtain rfl := Option.mem_unique modeElem same
    exact ⟨_, mode, proper.arrayOf (ModeExpr.TypedIndexes.ranges good ranges)⟩

theorem ModeExpr.TypedIndexes.ranges {symbols : List Symbol} (good : ∀ s ∈ symbols, s.Good) :
    ∀ {indexes : List (ModeExpr Note)} {modes : List Mode}, ModeExpr.TypedIndexes symbols indexes modes →
      ∀ m ∈ modes, m.Proper ∧ m.isRange = true
  | [], _, typed => by
    rw [typed]
    simp
  | index :: rest, _, typed => by
    obtain ⟨mode, modes, rfl, typed, isMode, range, _, ranges⟩ := typed
    obtain ⟨m, same, proper⟩ := typed.hasMode good
    obtain rfl := Option.mem_unique isMode same
    exact List.forall_mem_cons.mpr ⟨⟨proper, range⟩, ModeExpr.TypedIndexes.ranges good ranges⟩

end

end Ast

end LyaLang
