import Mathlib
import LyaLang.Check.Stmt
import LyaLang.Proofs.Check.Typed

/-! # Sound statements

What the notes of a statement say once it has been checked without a fault: which symbols it declares
and where their storage is, and that its expressions are typed under the symbols visible where they
stand. A view is what a statement sees of the scopes; a statement is sound between the view before it
and the view after it, in a frame of a given size.
-/

namespace LyaLang

open Ast

variable {V V' : View} {count position : Nat}

variable {ps : List (FormalParam Note)} {frame : Int64}

/-- What a statement sees of the scopes: the visible symbols, the next free word of the frame, the
display level and the procedure around it. -/
structure View where
  symbols : List Symbol
  next : Int64
  level : Int64
  function : Option Symbol

namespace View

/-- A symbol at the address that declaring it gives it. -/
def place (V : View) (symbol : Symbol) : Symbol :=
  { symbol with level := V.level, offset := if symbol.category.hasStorage then V.next else symbol.offset }

/-- The view after a number of words has been given out. -/
def reserve (V : View) (count : Int64) : View := { V with next := V.next + count }

/-- The view after a symbol has been declared. -/
def declare (V : View) (symbol : Symbol) : View :=
  { V with
    symbols := V.place symbol :: V.symbols
    next := if symbol.category.hasStorage then V.next + symbol.size else V.next }

/-- The view after a symbol has been declared at an address below the frame. -/
def declareParam (V : View) (symbol : Symbol) : View := { V with symbols := symbol :: V.symbols }

/-- The view at the start of the body of a procedure. -/
def enter (V : View) (procedure : Symbol) : View :=
  { V with next := 0, level := V.level + 1, function := some procedure }

/-- A view of good symbols. -/
def Good (V : View) : Prop := ∀ s ∈ V.symbols, s.Good

theorem Good.declare (good : V.Good) {symbol : Symbol} (fine : symbol.Good) (serial : Nat) :
    (V.declare { symbol with serial }).Good := by
  intro s mem
  rcases List.mem_cons.mp mem with rfl | mem
  · exact fine
  · exact good s mem

theorem Good.enter (good : V.Good) (procedure : Symbol) : (V.enter procedure).Good := good

theorem Good.declareParam (good : V.Good) {symbol : Symbol} (fine : symbol.Good) (serial : Nat) :
    (V.declareParam { symbol with serial }).Good := by
  intro s mem
  rcases List.mem_cons.mp mem with rfl | mem
  · exact fine
  · exact good s mem

end View

variable {I : View → Prop}

namespace Ast

/-! ## Declared symbols -/

/-- The symbol of a variable or an alias. -/
def variableSymbol (loc : Bool) (m : Mode) (id : Ident Note) : Symbol :=
  { name := id.name
    category := if loc then .location else .var
    mode := some m
    size := if loc then 1 else m.size
    line := Int64.ofNat id.note.line }

/-- The symbol of a synonym. -/
def synonymSymbol (m : Mode) (value : Word) (id : Ident Note) : Symbol :=
  { name := id.name, category := .synonym, mode := some m, line := Int64.ofNat id.note.line, value }

/-- The symbol of a declared mode. -/
def modeSymbol (m : Mode) (id : Ident Note) : Symbol :=
  { name := id.name, category := .mode, mode := some (.named id.name m), size := m.size,
    line := Int64.ofNat id.note.line }

/-- The symbol of the counter that a loop declares. -/
def counterSymbol (id : Ident Note) : Symbol :=
  { name := id.name, category := .counter, mode := some .int, size := 1, line := Int64.ofNat id.note.line }

/-- The symbol of a procedure. -/
def procedureSymbol (p : Procedure) (id : Ident Note) : Symbol :=
  { name := id.name, category := .procedure, mode := some p.result, line := Int64.ofNat id.note.line, proc := some p }

/-- The symbol of a parameter: the words of the arguments lie below the two words that a call saves. -/
def paramSymbol (count : Nat) (level : Int64) (loc : Bool) (m : Mode) (position : Nat) (id : Ident Note) : Symbol :=
  { name := id.name
    category := if loc then .locParam else .param
    mode := some m
    size := 1
    line := Int64.ofNat id.note.line
    offset := Int64.ofNat position - (Int64.ofNat count + 2)
    level }

/-- Names are declared one after the other, each with a symbol of its own in a frame of `frame` words. -/
def NamesSound (frame : Int64) (make : Ident Note → Symbol) : View → List (Ident Note) → View → Prop
  | V, [], V' => V' = V
  | V, id :: rest, V' =>
    ∃ serial, id.note.symbol = some (V.place { make id with serial }) ∧ (make id).Good ∧
      ((make id).category.hasStorage = true → V.next + (make id).size ≤ frame) ∧
      NamesSound frame make (V.declare { make id with serial }) rest V'

/-- Constructs are sound one after the other. -/
def EachSound {γ : Type} (sound : View → γ → View → Prop) : View → List γ → View → Prop
  | V, [], V' => V' = V
  | V, x :: rest, V' => ∃ W, sound V x W ∧ EachSound sound W rest V'

/-! ## Declarations -/

/-- The initializer of names of a mode: an alias needs a location, and an array is copied from one. -/
def InitialSound (symbols : List Symbol) (loc : Bool) (m : Mode) : Option (Expr Note) → Prop
  | none => loc = false
  | some e => e.Typed symbols ∧ e.type = m.type ∧ (loc = true ∨ m.isArray = true → e.IsLocationOf m)

/-- A declaration is sound. -/
def Declaration.Sound (frame : Int64) (V : View) (d : Declaration Note) (V' : View) : Prop :=
  ∃ m, d.mode.Typed V.symbols ∧ d.mode.note.mode = some m ∧ m.size ≠ 0 ∧ InitialSound V.symbols d.loc m d.init ∧
    NamesSound frame (variableSymbol d.loc m) V d.names V'

/-- The mode of a synonym is the given one, or that of its value. -/
def SynonymMode (symbols : List Symbol) (value : Expr Note) (m : Mode) : Option (ModeExpr Note) → Prop
  | none => value.note.mode = some m
  | some mode => mode.Typed symbols ∧ mode.note.mode = some m ∧ value.type = m.type

/-- A synonym definition is sound. -/
def SynonymDef.Sound (frame : Int64) (V : View) (d : SynonymDef Note) (V' : View) : Prop :=
  ∃ m k, d.value.Typed V.symbols ∧ d.value.note.constant = some k ∧ SynonymMode V.symbols d.value m d.mode ∧
    NamesSound frame (synonymSymbol m k) V d.names V'

/-- A mode definition is sound. -/
def ModeDef.Sound (frame : Int64) (V : View) (d : ModeDef Note) (V' : View) : Prop :=
  ∃ m, d.mode.Typed V.symbols ∧ d.mode.note.mode = some m ∧ NamesSound frame (modeSymbol m) V d.names V'

/-! ## Procedures -/

/-- The names of a parameter group are declared from a position on. -/
def ParamNamesSound (count : Nat) (loc : Bool) (m : Mode) : View → Nat → List (Ident Note) → View → Prop
  | V, _, [], V' => V' = V
  | V, position, id :: rest, V' =>
    ∃ serial, id.note.symbol = some { paramSymbol count V.level loc m position id with serial } ∧
      (paramSymbol count V.level loc m position id).Good ∧
      ParamNamesSound count loc m (V.declareParam { paramSymbol count V.level loc m position id with serial })
        (position + 1) rest V'

/-- The parameters of a procedure with `count` of them are declared from a position on. -/
def ParamsSound (count : Nat) : View → Nat → List (FormalParam Note) → View → Prop
  | V, _, [], V' => V' = V
  | V, position, p :: rest, V' =>
    ∃ m W, p.mode.note.mode = some m ∧ ParamNamesSound count p.loc m V position p.names W ∧
      ParamsSound count W (position + p.names.length) rest V'

theorem count_eq_sum {α : Type} (ps : List (FormalParam α)) :
    FormalParam.count ps = (ps.map (·.names.length)).sum := by
  have fold : ∀ total, ps.foldl (fun total p => total + p.names.length) total =
      total + (ps.map (·.names.length)).sum := by
    induction ps with
    | nil => simp
    | cons p rest ih =>
      intro total
      rw [List.foldl_cons, ih, List.map_cons, List.sum_cons, Nat.add_assoc]
  rw [FormalParam.count, fold, Nat.zero_add]

theorem ParamNamesSound.within (f : Option Symbol) {loc : Bool} {m : Mode}
    {ids : List (Ident Note)} (sound : ParamNamesSound count loc m V position ids V') :
    ParamNamesSound count loc m { V with function := f } position ids { V' with function := f } := by
  induction ids generalizing V position with
  | nil =>
    cases sound
    rfl
  | cons id rest ih =>
    obtain ⟨serial, isSymbol, good, sound⟩ := sound
    exact ⟨serial, isSymbol, good, ih sound⟩

theorem ParamsSound.within (f : Option Symbol) (sound : ParamsSound count V position ps V') :
    ParamsSound count { V with function := f } position ps { V' with function := f } := by
  induction ps generalizing V position with
  | nil =>
    cases sound
    rfl
  | cons p rest ih =>
    obtain ⟨m, W, isMode, names, sound⟩ := sound
    exact ⟨m, _, isMode, names.within f, ih sound⟩

/-- The result mode of a procedure. -/
def ResultMode (symbols : List Symbol) (m : Mode) : Option (ResultSpec Note) → Prop
  | none => m = .void
  | some r => r.mode.Typed symbols ∧ r.mode.note.mode = some m

/-- What the header of a procedure says about it. -/
structure HeaderSound (V : View) (labels : Option LabelBlock) (params : List (FormalParam Note)) (spec : Option (ResultSpec Note))
    (p : Procedure) : Prop where
  entry : p.entry = (labels.map (·.first)).getD 0
  arity : p.arity = .exactly (FormalParam.count params)
  builtin : p.builtin = none
  level : p.level = V.level + 1
  result : ResultMode V.symbols p.result spec
  resultLoc : p.resultLoc = spec.any (·.loc)
  modes : ∀ q ∈ params, q.mode.Typed V.symbols
  params : p.params = params.flatMap fun q => q.names.map fun _ => { mode := q.mode.note.mode, loc := q.loc }
  good : p.Good

/-! ## Actions -/

/-- The counter of a loop is a variable in scope, or declared by the loop. -/
def CounterSound (frame : Int64) (V : View) (f : ForControl Note) (symbol : Symbol) (V' : View) : Prop :=
  (findSymbol V.symbols f.counter.name = some symbol ∧ symbol.category.hasStorage = true ∧ symbol.type = .int ∧
      f.note.declaresCounter = false ∧ V' = V) ∨
    ∃ serial, findSymbol V.symbols f.counter.name = none ∧
      symbol = V.place { counterSymbol f.counter with serial } ∧ V.next + 1 ≤ frame ∧
      f.note.declaresCounter = true ∧ V' = V.declare { counterSymbol f.counter with serial }

/-- Whether the step of a loop is kept in a word of its own. -/
def ForControl.keepsStep (f : ForControl Note) : Bool := f.step.any (·.note.constant.isNone)

/-- The words of the bound and the step of a loop. -/
def SlotsSound (frame : Int64) (V : View) (f : ForControl Note) (V' : View) : Prop :=
  V.next + 1 ≤ frame ∧
    if f.keepsStep then
      V.next + 1 + 1 ≤ frame ∧ f.note.slots = some ⟨V.level, V.next, V.next + 1⟩ ∧ V' = (V.reserve 1).reserve 1
    else f.note.slots = some ⟨V.level, V.next, -1⟩ ∧ V' = V.reserve 1

/-- An expression of a type. -/
def Expr.TypedAs (symbols : List Symbol) (type : ValueType) (e : Expr Note) : Prop :=
  e.Typed symbols ∧ e.type = type

/-- The counting clause of a loop is sound. -/
structure ForControl.Sound (frame : Int64) (V : View) (f : ForControl Note) (V' : View) : Prop where
  start : f.start.TypedAs V.symbols .int
  step : ∀ e, f.step = some e → e.TypedAs V.symbols .int
  stop : f.stop.TypedAs V.symbols .int
  counter : ∃ symbol W, f.note.symbol = some symbol ∧ f.counter.note.symbol = some symbol ∧
    CounterSound frame V f symbol W ∧ SlotsSound frame W f V'

/-- An assignment is sound: a compound one has an operator of the type, and an array is copied from a
location. -/
structure AssignSound (symbols : List Symbol) (target : Expr Note) (op : Option BinaryOp) (value : Expr Note) : Prop where
  typed : target.Typed symbols
  location : target.isLocation = true
  assigned : value.TypedAs symbols target.type
  operator : ∀ o, op = some o → o.assignsOn target.type = true
  array : target.type.isArray = true → ∃ m, target.note.mode = some m ∧ value.IsLocationOf m

/-- A `return` or `result` action is sound: it stands in a procedure that has a result to store. -/
def ResultSound (V : View) (note : Note) (value : Option (Expr Note)) : Prop :=
  ∃ f p, V.function = some f ∧ note.symbol = some f ∧ f.proc = some p ∧
    ∀ e, value = some e →
      e.TypedAs V.symbols p.result.type ∧ p.result ≠ .void ∧ (p.resultLoc = true → e.IsLocationOf p.result)

mutual

/-- A statement is sound between two views. -/
def Stmt.Sound (frame : Int64) (V : View) : Stmt Note → View → Prop
  | declare _ decls, V' => EachSound (Declaration.Sound frame) V decls V'
  | synonym _ defs, V' => EachSound (SynonymDef.Sound frame) V defs V'
  | modes _ defs, V' => EachSound (ModeDef.Sound frame) V defs V'
  | proc note name params spec body, V' =>
    ∃ serial p words W W', V' = V.declare { procedureSymbol p name with serial } ∧
      note.symbol = some (V.place { procedureSymbol p name with serial }) ∧
      name.note.symbol = some (V.place { procedureSymbol p name with serial }) ∧
      HeaderSound V note.labels params spec p ∧ note.frame = some words ∧ 0 ≤ words ∧
      ParamsSound (FormalParam.count params) (V'.enter (V.place { procedureSymbol p name with serial })) 0 params W ∧
      Stmt.SoundList words W body W'
  | assign _ target op value, V' => V' = V ∧ AssignSound V.symbols target op value
  | branch _ arms otherwise, V' => V' = V ∧ Stmt.SoundArms frame V arms ∧ Stmt.SoundElse frame V otherwise
  | loop _ control whilst body, V' =>
    V' = V ∧ ∃ W W', (match control with
        | none => W = V
        | some f => f.Sound frame V W) ∧
      (∀ e, whilst = some e → e.TypedAs W.symbols .bool) ∧ Stmt.SoundList frame W body W'
  | call _ callNote callee args, V' => V' = V ∧ (Expr.call callNote callee args).Typed V.symbols
  | ret note value, V' => V' = V ∧ ResultSound V note value
  | result note value, V' => V' = V ∧ ResultSound V note (some value)

/-- Statements are sound one after the other. -/
def Stmt.SoundList (frame : Int64) (V : View) : List (Stmt Note) → View → Prop
  | [], V' => V' = V
  | s :: rest, V' => ∃ W, s.Sound frame V W ∧ Stmt.SoundList frame W rest V'

/-- An optional body is sound; what it declares ends with it. -/
def Stmt.SoundElse (frame : Int64) (V : View) : Option (List (Stmt Note)) → Prop
  | none => True
  | some body => ∃ W, Stmt.SoundList frame V body W

/-- The arms of an `if` chain are sound. -/
def Stmt.SoundArms (frame : Int64) (V : View) : List (CondBranch Note) → Prop
  | [] => True
  | .mk _ test body :: rest =>
    test.TypedAs V.symbols .bool ∧ (∃ W, Stmt.SoundList frame V body W) ∧ Stmt.SoundArms frame V rest

end

/-- A program is sound under the names of its context: its statements are, in a frame of its own. -/
def Program.Sound (V : View) (p : Program Note) : Prop :=
  ∃ words W, p.note.frame = some words ∧ 0 ≤ words ∧ Stmt.SoundList words V p.stmts W

/-! ## Views along declarations -/

/-- Names are declared one after the other: what every declaration keeps holds behind them and before each. -/
theorem NamesSound.walk {make : Ident Note → Symbol} {names : List (Ident Note)}
    (start : I V) (sound : NamesSound frame make V names V')
    (keeps : ∀ id ∈ names, ∀ W serial, I W → id.note.symbol = some (W.place { make id with serial }) → (make id).Good →
      I (W.declare { make id with serial })) :
    I V' ∧ ∀ id ∈ names, ∃ W serial, I W ∧ id.note.symbol = some (W.place { make id with serial }) ∧ (make id).Good := by
  induction names generalizing V with
  | nil =>
    cases sound
    exact ⟨start, List.forall_mem_nil _⟩
  | cons id rest ih =>
    obtain ⟨serial, isSymbol, good, _, sound⟩ := sound
    obtain ⟨first, others⟩ := List.forall_mem_cons.mp keeps
    obtain ⟨last, found⟩ := ih (first V serial start isSymbol good) sound others
    exact ⟨last, List.forall_mem_cons.mpr ⟨⟨V, serial, start, isSymbol, good⟩, found⟩⟩

/-- Constructs stand one after the other: what each of them keeps holds behind them and before each. -/
theorem EachSound.walk {γ : Type} {sound : View → γ → View → Prop} {xs : List γ} (start : I V)
    (holds : EachSound sound V xs V') (keeps : ∀ x ∈ xs, ∀ V V', I V → sound V x V' → I V') :
    I V' ∧ ∀ x ∈ xs, ∃ W W', I W ∧ sound W x W' := by
  induction xs generalizing V with
  | nil =>
    cases holds
    exact ⟨start, List.forall_mem_nil _⟩
  | cons x rest ih =>
    obtain ⟨W, first, holds⟩ := holds
    obtain ⟨keep, others⟩ := List.forall_mem_cons.mp keeps
    obtain ⟨last, found⟩ := ih (keep V W start first) holds others
    exact ⟨last, List.forall_mem_cons.mpr ⟨⟨V, W, start, first⟩, found⟩⟩

theorem ParamNamesSound.walk {loc : Bool} {m : Mode} {ids : List (Ident Note)} (start : I V)
    (sound : ParamNamesSound count loc m V position ids V')
    (keeps : ∀ W i id serial, i < position + ids.length → I W → (paramSymbol count W.level loc m i id).Good →
      I (W.declareParam { paramSymbol count W.level loc m i id with serial })) : I V' := by
  induction ids generalizing V position with
  | nil =>
    cases sound
    exact start
  | cons id rest ih =>
    obtain ⟨serial, _, good, sound⟩ := sound
    rw [List.length_cons] at keeps
    exact ih (keeps V position id serial (by omega) start good) sound fun W i id serial few => keeps W i id serial (by omega)

/-- Parameters are declared one after the other: what every declaration keeps holds behind them. -/
theorem ParamsSound.walk (start : I V)
    (sound : ParamsSound count V position ps V')
    (keeps : ∀ q ∈ ps, ∀ m, q.mode.note.mode = some m → ∀ W i id serial, i < position + (ps.map (·.names.length)).sum →
      I W → (paramSymbol count W.level q.loc m i id).Good →
      I (W.declareParam { paramSymbol count W.level q.loc m i id with serial })) : I V' := by
  induction ps generalizing V position with
  | nil =>
    cases sound
    exact start
  | cons p rest ih =>
    obtain ⟨m, W, isMode, names, sound⟩ := sound
    rw [List.map_cons, List.sum_cons] at keeps
    obtain ⟨first, others⟩ := List.forall_mem_cons.mp keeps
    refine ih (names.walk start fun W i id serial few => first m isMode W i id serial (by omega)) sound ?_
    exact fun q member m isMode W i id serial few => others q member m isMode W i id serial (by omega)

/-- A counting clause declares its counter or nothing, and takes words. -/
theorem ForControl.Sound.walk {f : ForControl Note} (start : I V)
    (sound : f.Sound frame V V')
    (declares : ∀ serial, (counterSymbol f.counter).Good → I (V.declare { counterSymbol f.counter with serial }))
    (reserves : ∀ W : View, I W → I (W.reserve 1)) : I V' := by
  obtain ⟨symbol, W, _, _, counter, _, slots⟩ := sound.counter
  have counted : I W := by
    rcases counter with ⟨_, _, _, _, rfl⟩ | ⟨serial, _, _, _, _, rfl⟩
    · exact start
    · exact declares serial ⟨.int, rfl, trivial, rfl, rfl⟩
  split at slots
  · obtain ⟨_, _, rfl⟩ := slots
    exact reserves _ (reserves _ counted)
  · obtain ⟨_, rfl⟩ := slots
    exact reserves _ counted

theorem HeaderSound.goodSymbol {labels : Option LabelBlock} {params : List (FormalParam Note)}
    {spec : Option (ResultSpec Note)} {p : Procedure} (header : HeaderSound V labels params spec p) (name : Ident Note) :
    (procedureSymbol p name).Good :=
  ⟨p.result, rfl, header.good.1, p, rfl, header.good, rfl⟩

/-- A statement declares good symbols, and nothing else of it stays in view. -/
theorem Stmt.Sound.walk {s : Stmt Note} (start : I V) (sound : s.Sound frame V V')
    (keeps : ∀ (W : View) (symbol : Symbol) serial, I W → symbol.Good → I (W.declare { symbol with serial })) : I V' := by
  have names {V V' : View} {make} {ids : List (Ident Note)} (start : I V) (sound : NamesSound frame make V ids V') : I V' :=
    (sound.walk start fun id _ W serial holds _ good => keeps W (make id) serial holds good).1
  cases s with
  | declare _ decls => exact (EachSound.walk start sound fun _ _ _ _ start ⟨_, _, _, _, _, ids⟩ => names start ids).1
  | synonym _ defs => exact (EachSound.walk start sound fun _ _ _ _ start ⟨_, _, _, _, _, ids⟩ => names start ids).1
  | modes _ defs => exact (EachSound.walk start sound fun _ _ _ _ start ⟨_, _, _, ids⟩ => names start ids).1
  | proc note name params spec body =>
    obtain ⟨serial, p, _, _, _, rfl, _, _, header, _⟩ := sound
    exact keeps V _ serial start (header.goodSymbol name)
  | _ =>
    obtain ⟨rfl, _⟩ := sound
    exact start

/-! ## Views stay good -/

theorem ParamsSound.good (good : V.Good) (sound : ParamsSound count V position ps V') :
    V'.Good :=
  sound.walk good fun _ _ _ _ _ _ _ serial _ good fine => good.declareParam fine serial

theorem ForControl.Sound.good {f : ForControl Note} (good : V.Good) (sound : f.Sound frame V V') : V'.Good :=
  sound.walk good (fun serial fine => good.declare fine serial) fun _ good => good

theorem View.Good.inLoop {control : Option (ForControl Note)} (good : V.Good)
    (controlled : match control with
      | none => V' = V
      | some f => f.Sound frame V V') : V'.Good := by
  cases control with
  | none => exact controlled ▸ good
  | some f => exact controlled.good good

theorem Declaration.Sound.good {d : Declaration Note} (good : V.Good)
    (sound : d.Sound frame V V') : V'.Good := by
  obtain ⟨_, _, _, _, _, names⟩ := sound
  exact (names.walk good fun _ _ _ serial good _ fine => good.declare fine serial).1

theorem Stmt.Sound.good {s : Stmt Note} (good : V.Good) (sound : s.Sound frame V V') : V'.Good :=
  sound.walk good fun _ _ serial good fine => good.declare fine serial

end Ast

end LyaLang
