import LyaLang.Proofs.Check.Placed
import LyaLang.Proofs.Compile

/-! # The mode of nothing

A procedure without a result has the mode `void`, and a program can name that mode too. If it never does, no
mode of the program has it as a part, so nothing but the call of such a procedure has it: what has an address
holds something.
-/

namespace LyaLang

open Ast

/-! ## Modes without it -/

/-- No part of a mode is `void`. -/
def Mode.VoidFree : Mode → Prop
  | int | bool | char | string | chars _ => True
  | void => False
  | range base _ _ => base.VoidFree
  | array _ _ elem => elem.VoidFree
  | ref target => target.VoidFree
  | named _ mode => mode.VoidFree

namespace Mode.VoidFree

variable {m r : Mode}

theorem type_ne_void (free : m.VoidFree) : m.type ≠ .void := by
  induction m with
  | void => exact free.elim
  | range base _ _ ih => exact ih free
  | named _ mode ih => exact ih free
  | _ =>
    intro same
    cases same

theorem elem? (free : m.VoidFree) (isElem : m.elem? = some r) : r.VoidFree := by
  induction m with
  | array _ _ elem =>
    cases isElem
    exact free
  | ref target =>
    cases isElem
    exact free
  | named _ mode ih => exact ih free isElem
  | _ => cases isElem

theorem indexed? {count : Nat} (free : m.VoidFree) (indexed : m.indexed? count = some r) : r.VoidFree := by
  induction count generalizing m with
  | zero =>
    cases indexed
    exact free
  | succ count ih =>
    unfold Mode.indexed? at indexed
    split at indexed
    · obtain ⟨elem, isElem, indexed⟩ := Option.bind_eq_some_iff.mp indexed
      exact ih (free.elem? isElem) indexed
    · split at indexed
      · exact ih (show Mode.char.VoidFree from trivial) indexed
      · cases indexed

theorem arrayOf (free : m.VoidFree) (indexes : List Mode) : (m.arrayOf indexes).VoidFree := by
  induction indexes with
  | nil => exact free
  | cons _ _ ih => exact ih

theorem ofScalar? {t : ValueType} (scalar : Mode.ofScalar? t = some m) : m.VoidFree := by
  cases t <;> cases scalar <;> trivial

end Mode.VoidFree

/-! ## Symbols without it -/

/-- A mode is free of `void`, or is `void` itself. -/
def Mode.VoidOnly (m : Mode) : Prop := m.VoidFree ∨ m = .void

/-- A symbol that has to do with `void` is that mode, or a procedure without a result. -/
structure Symbol.VoidFree (s : Symbol) : Prop where
  mode : ∀ m, s.mode = some m → m.VoidOnly
  value : s.IsValue → ∀ m, s.mode = some m → m.VoidFree
  located : ∀ p, s.proc = some p → p.resultLoc = true → p.result.VoidFree

/-- A symbol of a mode that is free of `void`. -/
theorem Symbol.VoidFree.of_mode {s : Symbol} {m : Mode} (isMode : s.mode = some m) (free : m.VoidFree)
    (located : ∀ p, s.proc = some p → p.resultLoc = true → p.result.VoidFree) : s.VoidFree := by
  have same : ∀ m', s.mode = some m' → m'.VoidFree := by
    intro m' isMode'
    obtain rfl := Option.mem_unique isMode isMode'
    exact free
  exact ⟨fun m' isMode' => .inl (same m' isMode'), fun _ => same, located⟩

theorem Symbol.voidFree_predefined : ∀ s ∈ predefinedSymbols, s.VoidFree := by
  intro s member
  have modes : ∀ s ∈ predefinedSymbols, s.mode ∈ [some .int, some .bool, some .char, some .string] ∨
      s.mode = some .void ∧ (s.category = .mode ∨ s.category = .procedure) := by decide +kernel
  have direct : ∀ s ∈ predefinedSymbols, s.proc.all (!·.resultLoc) = true := by decide +kernel
  have located : ∀ p, s.proc = some p → p.resultLoc = true → p.result.VoidFree := by
    intro p isProc loc
    have none := direct s member
    rw [isProc, Option.all_some, loc] at none
    cases none
  rcases modes s member with scalar | ⟨isMode, category⟩
  · simp only [List.mem_cons, List.not_mem_nil, or_false] at scalar
    rcases scalar with isMode | isMode | isMode | isMode <;> exact .of_mode isMode trivial located
  · refine ⟨?_, ?_, located⟩
    · intro m isMode'
      exact .inr (Option.mem_unique isMode' isMode)
    · intro isValue
      exact (category.elim isValue.1 isValue.2).elim

namespace Ast

/-- A node that names the mode `void`. -/
def Node.isVoid : Node Note → Bool
  | modeExpr (.name m) => m.note.mode == some .void
  | _ => false

variable {symbols : List Symbol}

/-! ## Mode expressions -/

theorem ModeName.Typed.voidOnly (free : ∀ s ∈ symbols, s.VoidFree) {m : ModeName Note} (typed : m.Typed symbols)
    {mode : Mode} (isMode : m.note.mode = some mode) : mode.VoidOnly := by
  obtain ⟨symbol, found, _, _, same⟩ := typed
  exact (free symbol (findSymbol_some found).1).mode mode (same.symm.trans isMode)

/-- The mode that a typed mode expression describes is free of `void` if it does not name it. -/
theorem ModeExpr.Typed.voidFree (free : ∀ s ∈ symbols, s.VoidFree) :
    ∀ {m : ModeExpr Note}, m.Typed symbols → (∀ n ∈ m.nodes, n.isVoid = false) →
      ∀ {mode : Mode}, m.note.mode = some mode → mode.VoidFree
  | .name m, typed, unnamed, mode, isMode => by
    rcases ModeName.Typed.voidOnly free typed isMode with free | rfl
    · exact free
    · have named := unnamed (.modeExpr (.name m)) List.mem_cons_self
      have isVoid : m.note.mode = some .void := isMode
      rw [Node.isVoid, isVoid] at named
      cases named
  | .range note base lo hi, typed, unnamed, mode, isMode => by
    obtain ⟨b, lower, upper, isBase, _, _, _, same⟩ := typed
    obtain rfl := Option.mem_unique isMode same
    cases base with
    | none =>
      cases isBase
      trivial
    | some name =>
      obtain ⟨typed, isName, word, _⟩ := isBase
      rcases typed.voidOnly free isName with free | rfl
      · exact free
      · cases word
  | .ref note elem, typed, unnamed, mode, isMode => by
    obtain ⟨typed, same⟩ := typed
    obtain ⟨target, isTarget, rfl⟩ := Option.map_eq_some_iff.mp (same.symm.trans isMode)
    change target.VoidFree
    exact typed.voidFree free (fun n member => unnamed n (List.mem_cons_of_mem _ member)) isTarget
  | .chars _ _, typed, unnamed, mode, isMode => by
    obtain ⟨length, _, _, same⟩ := typed
    obtain rfl := Option.mem_unique isMode same
    trivial
  | .array note indexes elem, typed, unnamed, mode, isMode => by
    obtain ⟨typed, modes, m, _, isElem, _, same⟩ := typed
    obtain rfl := Option.mem_unique isMode same
    exact (typed.voidFree free (fun n member => unnamed n (List.mem_cons_of_mem _ (List.mem_append_right _ member)))
      isElem).arrayOf modes

/-! ## Expressions -/

/-- The mode of a typed expression is free of `void`, unless it is the call of a procedure without a result. -/
theorem Expr.Typed.voidFree (good : ∀ s ∈ symbols, s.Good) (free : ∀ s ∈ symbols, s.VoidFree) :
    ∀ {e : Expr Note}, e.Typed symbols → ∀ {m : Mode}, e.note.mode = some m →
      m.VoidFree ∨ m = .void ∧ e.isLocation = false
  | .int _ _, ⟨same, _⟩, m, isMode | .bool _ _, ⟨same, _⟩, m, isMode | .char _ _, ⟨same, _⟩, m, isMode
  | .text _ _, ⟨same, _⟩, m, isMode => by
    obtain rfl := Option.mem_unique isMode same
    exact .inl trivial
  | .ident id, typed, m, isMode => by
    obtain ⟨symbol, found, _, isValue, same, _⟩ := typed
    exact .inl ((free symbol (findSymbol_some found).1).value isValue m (same.symm.trans isMode))
  | .unary note op x, typed, m, isMode => by
    obtain ⟨_, _, same, _⟩ := typed
    exact .inl (.ofScalar? (same.symm.trans isMode))
  | .binary note op x y, typed, m, isMode => by
    obtain ⟨_, _, _, _, same, _⟩ := typed
    replace isMode := same.symm.trans isMode
    split at isMode
    · cases isMode
      exact .inl trivial
    · exact .inl (.ofScalar? isMode)
  | .cond note arms otherwise, typed, m, isMode => by
    obtain ⟨_, typed, _, known, same, _⟩ := typed
    replace isMode := same.symm.trans isMode
    split at isMode
    · cases isMode
      exact .inl trivial
    · rcases typed.voidFree good free isMode with free | ⟨rfl, _⟩
      · exact .inl free
      · exact (known (type_of_mode isMode)).elim
  | .call note callee args, typed, m, isMode => by
    obtain ⟨_, ⟨symbol, proc, found, isSymbol, category, isProc, _, same⟩, _⟩ := typed
    obtain rfl := Option.mem_unique isMode same
    obtain ⟨_, ofSymbol⟩ := (good symbol (findSymbol_some found).1).proc category isProc
    have voids := free symbol (findSymbol_some found).1
    rcases voids.mode _ ofSymbol with free | isVoid
    · exact .inl free
    · cases loc : proc.resultLoc with
      | true => exact .inl (voids.located proc isProc loc)
      | false =>
        refine .inr ⟨isVoid, ?_⟩
        rw [Expr.isLocation, isSymbol, Option.bind_some, isProc]
        exact loc
  | .index note x indexes, typed, m, isMode => by
    obtain ⟨typed, location, _, _, same, _⟩ := typed
    obtain ⟨r, ofX, indexed⟩ := Option.bind_eq_some_iff.mp (same.symm.trans isMode)
    rcases typed.voidFree good free ofX with free | ⟨_, unlocated⟩
    · exact .inl (free.indexed? indexed)
    · cases location.symm.trans unlocated
  | .deref note x, typed, m, isMode => by
    obtain ⟨typed, reference, same, _⟩ := typed
    obtain ⟨r, ofX, target⟩ := Option.bind_eq_some_iff.mp (same.symm.trans isMode)
    rcases typed.voidFree good free ofX with free | ⟨rfl, _⟩
    · exact .inl (free.elem? target)
    · cases target
  | .ref note x, typed, m, isMode => by
    obtain ⟨typed, location, same, _⟩ := typed
    obtain ⟨r, ofX, rfl⟩ := Option.map_eq_some_iff.mp (same.symm.trans isMode)
    rcases typed.voidFree good free ofX with free | ⟨_, unlocated⟩
    · exact .inl free
    · cases location.symm.trans unlocated

/-- What has an address holds something. -/
theorem Expr.Typed.holds (good : ∀ s ∈ symbols, s.Good) (free : ∀ s ∈ symbols, s.VoidFree) {e : Expr Note}
    (typed : e.Typed symbols) (location : e.isLocation = true) : e.type ≠ .void := by
  obtain ⟨m, isMode, _⟩ := typed.hasMode good
  rw [Expr.type, type_of_mode isMode]
  rcases typed.voidFree good free isMode with free | ⟨_, unlocated⟩
  · exact free.type_ne_void
  · cases location.symm.trans unlocated

/-- The declarations of a program that does not name `void` declare symbols that are free of it. -/
theorem voidFree_inherited {nodes : List (Node Note)} (unnamed : ∀ n ∈ nodes, n.isVoid = false) :
    Inherited Symbol.VoidFree nodes := by
  have described : ∀ {V : View} {m : ModeExpr Note} {mode : Mode}, m.nodes ⊆ nodes → V.Fine Symbol.VoidFree →
      m.Typed V.symbols → m.note.mode = some mode → mode.VoidFree := by
    intro V m mode within fine typed isMode
    exact typed.voidFree (fun s member => (fine.symbols s member).2) (fun n member => unnamed n (within member)) isMode
  have plain : ∀ {s : Symbol} {m : Mode}, s.mode = some m → s.proc = none → m.VoidFree → s.VoidFree := by
    intro s m isMode none free
    refine .of_mode isMode free fun p isProc => ?_
    cases none.symm.trans isProc
  constructor
  case ofVariable =>
    intro V W d m serial id within fine typed isMode
    refine plain rfl rfl (described (fun n member => within ?_) fine typed isMode)
    simp [Declaration.nodes, member]
  case ofSynonym =>
    intro V W d m k serial id within fine typed constant isMode
    refine plain rfl rfl ?_
    cases given : d.mode with
    | none =>
      rw [given] at isMode
      rcases typed.voidFree (fun s member => (fine.symbols s member).1) (fun s member => (fine.symbols s member).2)
        isMode with free | ⟨rfl, _⟩
      · exact free
      -- nothing is no constant
      · obtain ⟨r, same, _, fits⟩ := typed.hasMode fun s member => (fine.symbols s member).1
        obtain rfl := Option.mem_unique isMode same
        exact (fits k constant).elim
    | some mode =>
      rw [given] at isMode
      obtain ⟨typed, isMode, _⟩ := isMode
      refine described (fun n member => within ?_) fine typed isMode
      simp [SynonymDef.nodes, given, member]
  case ofMode =>
    intro V W d m serial id within fine typed isMode
    have free : m.VoidFree := by
      refine described (fun n member => within ?_) fine typed isMode
      simp [ModeDef.nodes, member]
    exact plain rfl rfl free
  case ofCounter => exact fun serial id => plain rfl rfl trivial
  case ofParam =>
    intro V q m count level position serial id within fine typed isMode
    refine plain rfl rfl (described (fun n member => within ?_) fine typed isMode)
    simp [FormalParam.nodes, member]
  case ofProcedure =>
    intro V note name params spec body p serial within fine header
    have result := header.result
    have loc := header.resultLoc
    cases spec with
    | none =>
      refine ⟨?_, fun isValue => (isValue.2 rfl).elim, ?_⟩
      · intro m isMode
        exact .inr ((Option.some.inj isMode).symm.trans result)
      · intro q isProc isLoc
        obtain rfl := Option.some.inj isProc
        cases loc.symm.trans isLoc
    | some r =>
      obtain ⟨typed, isMode⟩ := result
      have free : p.result.VoidFree := by
        refine described (fun n member => within ?_) fine typed isMode
        simp [Stmt.nodes, ResultSpec.nodes, member]
      refine .of_mode rfl free ?_
      intro q isProc _
      obtain rfl := Option.some.inj isProc
      exact free

end Ast

end LyaLang
