import Mathlib.Data.List.Basic
import LyaLang.Proofs.Scope.Visible

/-! # Good scopes

The scopes of a program in which no fault has been found: every symbol has what its category needs, no
scope declares a key twice, and some scope has opened a frame. Declaring, reserving, and entering and
leaving scopes keep them good, and what each does to the visible symbols and to the frame at hand is
stated here once.
-/

namespace LyaLang

variable {e e' : Environment} {a b : List Scope}

variable {p : Procedure} {s : Scope} {symbol : Symbol} {owner : Option Symbol}

/-- A parameter has a mode, which takes one word unless it is passed by location. -/
def Parameter.Good (p : Parameter) : Prop :=
  ∃ m, p.mode = some m ∧ m.Proper ∧ (p.loc = false → m.size = 1)

/-- A procedure is predefined, or takes as many arguments as it has parameters. Unless it is a location,
its result takes one word. -/
def Procedure.Good (p : Procedure) : Prop :=
  p.result.Proper ∧
    match p.builtin with
    | some _ => ∃ s ∈ Context.predefinedProcedures, s.proc = some p
    | none =>
      p.arity = .exactly p.params.length ∧ (∀ q ∈ p.params, q.Good) ∧
        (p.resultLoc = false → p.result = .void ∨ p.result.size = 1)

/-- A predefined operation takes one argument. -/
theorem Procedure.Good.arity_of_operation (good : p.Good) {op : Opcode} {accepts : List ValueType}
    (operation : p.builtin = some (.operation op accepts)) : p.arity = .exactly 1 := by
  obtain ⟨_, predefined⟩ := good
  rw [operation] at predefined
  obtain ⟨symbol, member, isProc⟩ := predefined
  simp only [Context.predefinedProcedures, List.mem_cons, List.not_mem_nil, or_false] at member
  rcases member with rfl | rfl | rfl | rfl | rfl | rfl | rfl <;> cases isProc <;> cases operation <;> rfl

/-- A symbol has a mode and what its category needs beside it. -/
def Symbol.Good (s : Symbol) : Prop :=
  ∃ m, s.mode = some m ∧ m.Proper ∧
    match s.category with
    | .mode => True
    | .var => m.size ≠ 0 ∧ s.size = m.size
    | .location => m.size ≠ 0 ∧ s.size = 1
    | .param => m.size = 1
    | .locParam => True
    | .counter => m = .int ∧ s.size = 1
    | .synonym => s.value.Fits m.type
    | .procedure => ∃ p, s.proc = some p ∧ p.Good ∧ m = p.result

/-- The procedure of a good symbol is good. -/
theorem Symbol.Good.proc {s : Symbol} (good : s.Good) (category : s.category = .procedure)
    (isProc : s.proc = some p) : p.Good ∧ s.mode = some p.result := by
  obtain ⟨m, isMode, _, rest⟩ := good
  rw [category] at rest
  obtain ⟨_, same, fine, rfl⟩ := rest
  obtain rfl := Option.mem_unique isProc same
  exact ⟨fine, isMode⟩

theorem bind_proc {found : Option Symbol} {s : Symbol} (isSymbol : found = some s)
    (isProc : s.proc = some p) : found.bind (·.proc) = some p := Option.bind_eq_some_iff.mpr ⟨s, isSymbol, isProc⟩

/-- Good scopes. -/
structure Environment.Good (e : Environment) : Prop where
  orderly : ∀ s ∈ e.scopes, s.Orderly
  symbols : ∀ s ∈ e.visible, s.Good
  framed : ∃ s ∈ e.scopes, s.opensFrame = true
  frames : ∀ s ∈ e.scopes, 0 ≤ s.highWater

theorem Environment.Good.find (good : e.Good) (name : Bytes) : e.lookup? name = findSymbol e.visible name :=
  Environment.lookup?_eq good.orderly name

/-! ## Declaring -/

private theorem insertEntry_of_fresh (key : Bytes) (symbol : Symbol) {entries : List ScopeEntry}
    (fresh : ∀ e ∈ entries, e.key ≠ key) :
    Scope.insertEntry key symbol entries = entries ++ [⟨key, symbol, symbol⟩] := by
  induction entries with
  | nil => rfl
  | cons e rest ih =>
    have other : (e.key == key) = false := beq_eq_false_iff_ne.mpr (fresh e List.mem_cons_self)
    rw [Scope.insertEntry, other, ih fun f member => fresh f (List.mem_cons_of_mem _ member)]
    rfl

private theorem fresh_of_find?_eq_none {name : Bytes} (free : s.find? name = none) :
    ∀ e ∈ s.entries, e.key ≠ Scope.keyOf name := by
  intro e member same
  have absent := List.find?_eq_none.mp (Option.map_eq_none_iff.mp free) e member
  exact absent (beq_iff_eq.mpr same)

theorem Scope.insert_visible (symbol : Symbol) (free : s.find? symbol.name = none) :
    (s.insert symbol.name symbol).visible = symbol :: s.visible := by
  simp only [insert, visible, insertEntry_of_fresh _ _ (fresh_of_find?_eq_none free), List.map_append,
    List.reverse_append]
  rfl

theorem Scope.Orderly.insert (orderly : s.Orderly) (symbol : Symbol)
    (free : s.find? symbol.name = none) : (s.insert symbol.name symbol).Orderly := by
  have fresh := fresh_of_find?_eq_none free
  have entries : (s.insert symbol.name symbol).entries =
      s.entries ++ [⟨Scope.keyOf symbol.name, symbol, symbol⟩] := insertEntry_of_fresh _ _ fresh
  refine ⟨?_, ?_⟩
  · intro entry member
    rw [entries] at member
    rcases List.mem_append.mp member with old | new
    · exact orderly.keyed entry old
    · obtain rfl := List.mem_singleton.mp new
      rfl
  · rw [entries, List.map_append]
    refine List.nodup_append.mpr ⟨orderly.distinct, List.nodup_cons.mpr ⟨List.not_mem_nil, List.nodup_nil⟩, ?_⟩
    intro key old key' new
    obtain ⟨entry, member, rfl⟩ := List.mem_map.mp old
    obtain rfl := List.mem_singleton.mp new
    exact fresh entry member

/-- Declaring a free name puts its symbol in front of the visible ones. -/
theorem Environment.declareAt_visible {offset level : Int64} (free : e.find? symbol.name = none) :
    (e.declareAt symbol.name symbol offset level).1.visible = { symbol with offset, level } :: e.visible := by
  exact congrArg (· ++ _) (Scope.insert_visible { symbol with offset, level } free)

theorem Environment.Good.declareAt (good : e.Good) {offset level : Int64}
    (free : e.find? symbol.name = none) (fine : { symbol with offset, level }.Good) :
    (e.declareAt symbol.name symbol offset level).1.Good := by
  obtain ⟨orderly, symbols, framed, frames⟩ := good
  obtain ⟨inner, outer⟩ := List.forall_mem_cons.mp orderly
  refine ⟨List.forall_mem_cons.mpr ⟨inner.insert { symbol with offset, level } free, outer⟩, ?_, ?_, ?_⟩
  · rw [Environment.declareAt_visible free]
    exact List.forall_mem_cons.mpr ⟨fine, symbols⟩
  · exact (List.exists_mem_cons_iff ..).mpr ((List.exists_mem_cons_iff ..).mp framed)
  · exact List.forall_mem_cons.mpr (List.forall_mem_cons.mp frames)

/-! ## Frames -/

/-- Scopes of which the first that opened a frame may have grown. -/
inductive Raised : List Scope → List Scope → Prop
  | nil : Raised [] []
  | grown {s : Scope} {rest : List Scope} {size : Int64} (opens : s.opensFrame = true) (larger : s.highWater ≤ size) :
    Raised (s :: rest) ({ s with highWater := size } :: rest)
  | behind {s : Scope} {rest rest' : List Scope} (closed : s.opensFrame = false) (raised : Raised rest rest') :
    Raised (s :: rest) (s :: rest')

theorem Raised.refl (scopes : List Scope) : Raised scopes scopes := by
  induction scopes with
  | nil => exact .nil
  | cons s rest ih =>
    cases opens : s.opensFrame with
    | true => exact .grown opens (Int64.le_refl _)
    | false => exact .behind opens ih

theorem Raised.trans {c : List Scope} (first : Raised a b) (second : Raised b c) : Raised a c := by
  induction first generalizing c with
  | nil => exact second
  | grown opens larger =>
    cases second with
    | grown _ larger' => exact .grown opens (Int64.le_trans larger larger')
    | behind closed => cases opens.symm.trans closed
  | behind closed _ ih =>
    cases second with
    | grown opens => cases closed.symm.trans opens
    | behind _ raised => exact .behind closed (ih raised)

theorem raised_raise (size : Int64) (scopes : List Scope) : Raised scopes (Environment.raise size scopes) := by
  induction scopes with
  | nil => exact .nil
  | cons s rest ih =>
    unfold Environment.raise
    split
    case isTrue opens =>
      split
      case isTrue larger => exact .grown opens (Int64.le_of_lt larger)
      case isFalse => exact .refl _
    case isFalse closed => exact .behind (Bool.eq_false_iff.mpr closed) ih

/-- What growth keeps of one scope, growing scopes keep of all. -/
theorem Raised.forall {P : Scope → Prop} (raised : Raised a b) (holds : ∀ s ∈ a, P s)
    (grows : ∀ s size, s.highWater ≤ size → P s → P { s with highWater := size }) : ∀ s ∈ b, P s := by
  induction raised with
  | nil => exact holds
  | grown _ larger =>
    obtain ⟨head, tail⟩ := List.forall_mem_cons.mp holds
    exact List.forall_mem_cons.mpr ⟨grows _ _ larger head, tail⟩
  | behind _ _ ih =>
    obtain ⟨head, tail⟩ := List.forall_mem_cons.mp holds
    exact List.forall_mem_cons.mpr ⟨head, ih tail⟩

/-- What does not depend on the size of a frame stays. -/
theorem Raised.map_eq {γ : Type} {f : Scope → γ} (raised : Raised a b)
    (blind : ∀ s size, f { s with highWater := size } = f s) : b.map f = a.map f := by
  induction raised with
  | nil => rfl
  | grown => rw [List.map_cons, List.map_cons, blind]
  | behind _ _ ih => exact congrArg (_ :: ·) ih

/-- The first scope may have grown. -/
theorem Raised.head {t : Scope} (raised : Raised (s :: a) (t :: b)) : ∃ size, t = { s with highWater := size } := by
  cases raised <;> exact ⟨_, rfl⟩

theorem Raised.tail {t : Scope} (raised : Raised (s :: a) (t :: b)) : if s.opensFrame then b = a else Raised a b := by
  cases raised with
  | grown opens => rw [if_pos opens]
  | behind closed raised =>
    rw [closed]
    exact raised

theorem Raised.flatMap_visible (raised : Raised a b) : b.flatMap Scope.visible = a.flatMap Scope.visible :=
  congrArg List.flatten (raised.map_eq fun _ _ => rfl)

/-- The size of the first frame among scopes. -/
def frameOf (scopes : List Scope) : Int64 := ((scopes.find? (·.opensFrame)).map (·.highWater)).getD 0

theorem frameOf_cons (s : Scope) (rest : List Scope) :
    frameOf (s :: rest) = if s.opensFrame then s.highWater else frameOf rest := by
  cases opens : s.opensFrame <;> simp [frameOf, opens]

theorem Raised.frameOf_le (raised : Raised a b) : frameOf a ≤ frameOf b := by
  induction raised with
  | nil => exact Int64.le_refl _
  | grown opens larger => rwa [frameOf_cons, frameOf_cons, if_pos opens, if_pos opens]
  | behind closed _ ih => rwa [frameOf_cons, frameOf_cons, closed]

theorem Raised.framed (raised : Raised a b) (framed : ∃ s ∈ a, s.opensFrame = true) :
    ∃ s ∈ b, s.opensFrame = true := by
  obtain ⟨s, member, opens⟩ := framed
  have same : b.map (·.opensFrame) = a.map (·.opensFrame) := raised.map_eq fun _ _ => rfl
  exact List.mem_map.mp (same ▸ List.mem_map.mpr ⟨s, member, opens⟩)

theorem le_frameOf_raise (size : Int64) {scopes : List Scope} (framed : ∃ s ∈ scopes, s.opensFrame = true) :
    size ≤ frameOf (Environment.raise size scopes) := by
  induction scopes with
  | nil =>
    obtain ⟨s, member, _⟩ := framed
    cases member
  | cons s rest ih =>
    unfold Environment.raise
    split
    case isTrue opens =>
      split
      case isTrue => simp [frameOf_cons, opens]
      case isFalse small => simpa [frameOf_cons, opens] using Int64.not_lt.mp small
    case isFalse closed =>
      rw [frameOf_cons, if_neg closed]
      refine ih ?_
      obtain ⟨t, member, opens⟩ := framed
      rcases List.mem_cons.mp member with rfl | tail
      · exact absurd opens closed
      · exact ⟨t, tail, opens⟩

theorem Environment.frameSize_of_framed (framed : ∃ s ∈ e.scopes, s.opensFrame = true) : e.frameSize = frameOf e.scopes := by
  unfold frameSize frameScope frameOf
  cases found : e.scopes.find? (·.opensFrame) with
  | none =>
    obtain ⟨s, member, opens⟩ := framed
    exact absurd opens (List.find?_eq_none.mp found s member)
  | some s => rfl

theorem Environment.Good.frameSize_eq (good : e.Good) : e.frameSize = frameOf e.scopes := frameSize_of_framed good.framed

theorem Environment.Good.frameSize_nonneg (good : e.Good) : 0 ≤ e.frameSize := by
  rw [good.frameSize_eq, frameOf]
  cases found : e.scopes.find? (·.opensFrame) with
  | none => exact Int64.le_refl _
  | some s => exact good.frames s (List.mem_of_find?_eq_some found)

/-! ## Entering and leaving scopes -/

theorem Scope.Orderly.of_empty (empty : s.entries = []) : s.Orderly := by
  refine ⟨?_, ?_⟩
  · intro e member
    rw [empty] at member
    cases member
  · rw [empty]
    exact List.nodup_nil

/-- A scope without its symbols and its allocation. -/
def Scope.bare (s : Scope) : Scope := { s with entries := [], next := 0 }

theorem Raised.bare {t : Scope} (raised : Raised (s :: a) (t :: b)) : Raised (s.bare :: a) (t.bare :: b) := by
  cases raised with
  | grown opens larger => exact .grown (s := s.bare) opens larger
  | behind closed raised => exact .behind closed raised

/-- The scopes after more was declared and reserved in the innermost one. -/
def Environment.Extends (e e' : Environment) : Prop := Raised (e.inner.bare :: e.outer) (e'.inner.bare :: e'.outer)

namespace Environment

theorem Extends.refl (e : Environment) : e.Extends e := Raised.refl _

theorem Extends.trans {a b c : Environment} (first : a.Extends b) (second : b.Extends c) : a.Extends c :=
  Raised.trans first second

private theorem frameOf_bare (e : Environment) : frameOf (e.inner.bare :: e.outer) = frameOf e.scopes := by
  simp only [frameOf, scopes, List.find?_cons, Scope.bare]
  cases e.inner.opensFrame <;> rfl

theorem Extends.frameSize_le (extends' : e.Extends e') (good : e.Good) (good' : e'.Good) :
    e.frameSize ≤ e'.frameSize := by
  rw [good.frameSize_eq, good'.frameSize_eq, ← frameOf_bare, ← frameOf_bare]
  exact extends'.frameOf_le

theorem Extends.level_eq (extends' : e.Extends e') : e'.inner.level = e.inner.level := by
  obtain ⟨size, same⟩ := Raised.head extends'
  have level := congrArg Scope.level same
  exact level

/-- The scopes after words were given out are those before with the frame at hand raised. -/
theorem reserve_scopes (e : Environment) (count : Int64) :
    (e.reserve count).1.scopes =
      raise (e.inner.next + count) ({ e.inner with next := e.inner.next + count } :: e.outer) := by
  dsimp only [reserve]
  split
  case h_1 empty =>
    unfold raise at empty
    split at empty <;> cases empty
  case h_2 inner outer raised => exact raised.symm

theorem reserve_offset (e : Environment) (count : Int64) : (e.reserve count).2 = e.inner.next := by
  dsimp only [reserve]
  split <;> rfl

theorem reserve_raised (e : Environment) (count : Int64) :
    Raised ({ e.inner with next := e.inner.next + count } :: e.outer) (e.reserve count).1.scopes := by
  rw [reserve_scopes]
  exact raised_raise _ _

theorem reserve_next (e : Environment) (count : Int64) : (e.reserve count).1.inner.next = e.inner.next + count := by
  obtain ⟨size, inner⟩ := (e.reserve_raised count).head
  rw [inner]

theorem reserve_visible (e : Environment) (count : Int64) : (e.reserve count).1.visible = e.visible := by
  rw [visible, (e.reserve_raised count).flatMap_visible]
  rfl

theorem reserve_find? (e : Environment) (count : Int64) (name : Bytes) :
    (e.reserve count).1.find? name = e.find? name := by
  obtain ⟨size, inner⟩ := (e.reserve_raised count).head
  rw [find?, inner]
  rfl

theorem reserve_extends (e : Environment) (count : Int64) : e.Extends (e.reserve count).1 := (e.reserve_raised count).bare

theorem Good.reserve (good : e.Good) (count : Int64) :
    (e.reserve count).1.Good ∧ e.inner.next + count ≤ (e.reserve count).1.frameSize := by
  have raised := e.reserve_raised count
  obtain ⟨orderly, symbols, framed, frames⟩ := good
  have framed := (List.exists_mem_cons_iff (·.opensFrame = true) { e.inner with next := e.inner.next + count } _).mpr
    ((List.exists_mem_cons_iff ..).mp framed)
  obtain ⟨inner, outer⟩ := List.forall_mem_cons.mp orderly
  have good' : (e.reserve count).1.Good := by
    refine ⟨?_, ?_, raised.framed framed, ?_⟩
    · refine raised.forall (List.forall_mem_cons.mpr ?_) fun s size _ orderly => ⟨orderly.keyed, orderly.distinct⟩
      exact ⟨⟨inner.keyed, inner.distinct⟩, outer⟩
    · rw [reserve_visible]
      exact symbols
    · refine raised.forall (List.forall_mem_cons.mpr ?_) fun s size grown positive => Int64.le_trans positive grown
      exact List.forall_mem_cons.mp frames
  refine ⟨good', ?_⟩
  rw [good'.frameSize_eq, reserve_scopes]
  exact le_frameOf_raise _ framed

theorem declareAt_extends (e : Environment) (name : Bytes) (symbol : Symbol) (offset level : Int64) :
    e.Extends (e.declareAt name symbol offset level).1 := Raised.refl _

/-- The symbol that declaring a symbol gives. -/
def placed (e : Environment) (symbol : Symbol) : Symbol :=
  { symbol with
    level := e.inner.level, offset := if symbol.category.hasStorage then e.inner.next else symbol.offset }

/-- What declaring a symbol under a free name does to good scopes. -/
structure Declared (e : Environment) (symbol : Symbol) : Prop where
  good : (e.declare symbol.name symbol).1.Good
  extends' : e.Extends (e.declare symbol.name symbol).1
  symbol_eq : (e.declare symbol.name symbol).2 = e.placed symbol
  visible : (e.declare symbol.name symbol).1.visible = e.placed symbol :: e.visible
  next : (e.declare symbol.name symbol).1.inner.next =
    if symbol.category.hasStorage then e.inner.next + symbol.size else e.inner.next
  fits : symbol.category.hasStorage = true → e.inner.next + symbol.size ≤ (e.declare symbol.name symbol).1.frameSize

/-- The scopes in which a symbol is put, once it has its words. -/
private theorem Good.stored (good : e.Good) (free : e.find? symbol.name = none) : ∃ base offset,
    e.declare symbol.name symbol = base.declareAt symbol.name symbol offset e.inner.level ∧
      e.placed symbol = { symbol with offset, level := e.inner.level } ∧ base.Good ∧ e.Extends base ∧
      base.find? symbol.name = none ∧ base.visible = e.visible ∧
      (base.inner.next = if symbol.category.hasStorage then e.inner.next + symbol.size else e.inner.next) ∧
      (symbol.category.hasStorage = true → e.inner.next + symbol.size ≤ base.frameSize) := by
  unfold declare placed
  split
  · obtain ⟨reserved, large⟩ := good.reserve symbol.size
    have within := e.reserve_extends symbol.size
    refine ⟨_, e.inner.next, ?_, rfl, reserved, within, ?_, e.reserve_visible _, e.reserve_next _, fun _ => large⟩
    · rw [← within.level_eq, ← e.reserve_offset symbol.size]
    · rw [reserve_find?, free]
  · exact ⟨e, symbol.offset, rfl, rfl, good, .refl e, free, rfl, rfl, fun stored => absurd stored ‹_›⟩

theorem Good.declare (good : e.Good) (free : e.find? symbol.name = none)
    (fine : symbol.Good) : Declared e symbol := by
  obtain ⟨base, offset, result, placed, good, within, free, visible, next, fits⟩ := good.stored free
  have good' := good.declareAt free (show { symbol with offset, level := e.inner.level }.Good from fine)
  constructor <;> rw [result]
  case good => exact good'
  case extends' => exact within.trans (declareAt_extends _ _ _ _ _)
  case symbol_eq => exact placed.symm
  case visible => rw [declareAt_visible free, visible, placed]
  case next => exact next
  case fits => exact fun stored => Int64.le_trans (fits stored) ((declareAt_extends _ _ _ _ _).frameSize_le good good')

theorem Good.pushBlock (good : e.Good) (owner : Option Symbol) : (e.pushBlock owner).Good := by
  obtain ⟨orderly, symbols, ⟨s, member, opens⟩, frames⟩ := good
  refine ⟨List.forall_mem_cons.mpr ⟨.of_empty rfl, orderly⟩, symbols, ?_, ?_⟩
  · exact ⟨s, List.mem_cons_of_mem _ member, opens⟩
  · exact List.forall_mem_cons.mpr ⟨Int64.le_refl _, frames⟩

theorem Good.push (good : e.Good) (owner : Option Symbol) : (e.push owner).Good := by
  obtain ⟨orderly, symbols, _, frames⟩ := good
  refine ⟨List.forall_mem_cons.mpr ⟨.of_empty rfl, orderly⟩, symbols, ?_, ?_⟩
  · exact ⟨_, List.mem_cons_self, rfl⟩
  · exact List.forall_mem_cons.mpr ⟨Int64.le_refl _, frames⟩

/-- Leaving a procedure restores the scopes around it. -/
theorem pop_of_push_extends (inside : (e.push owner).Extends e') : e'.pop = e := by
  have outer : e'.outer = e.inner :: e.outer := Raised.tail inside
  rw [pop, outer]

/-- Leaving a block restores the scopes around it, up to the size of the frame at hand. -/
theorem pop_of_pushBlock_extends (inside : (e.pushBlock owner).Extends e') :
    Raised e.scopes e'.pop.scopes ∧ e'.outer = e'.pop.scopes ∧ e'.inner.opensFrame = false := by
  obtain ⟨size, same⟩ := Raised.head inside
  have opens := congrArg Scope.opensFrame same
  have raised : Raised e.scopes e'.outer := Raised.tail inside
  cases around : e'.outer with
  | nil =>
    rw [around] at raised
    cases raised
  | cons s others =>
    have popped : e'.pop.scopes = s :: others := by rw [pop, around]; rfl
    exact ⟨popped ▸ around ▸ raised, popped.symm, opens⟩

theorem Extends.of_raised (raised : Raised e.scopes e'.scopes) : e.Extends e' ∧ e'.inner.next = e.inner.next := by
  obtain ⟨size, same⟩ := raised.head
  have next := congrArg Scope.next same
  exact ⟨raised.bare, next⟩

/-- What a block leaves behind. -/
structure LeftBlock (e e' : Environment) : Prop where
  good : e'.pop.Good
  extends' : e.Extends e'.pop
  visible : e'.pop.visible = e.visible
  next : e'.pop.inner.next = e.inner.next
  frameSize : e'.pop.frameSize = e'.frameSize

theorem leftBlock (good : e.Good) (good' : e'.Good)
    (inside : (e.pushBlock owner).Extends e') : LeftBlock e e' := by
  obtain ⟨raised, outer, opens⟩ := pop_of_pushBlock_extends inside
  obtain ⟨extended, next⟩ := Extends.of_raised raised
  have same : e'.pop.visible = e.visible := raised.flatMap_visible
  have popped : e'.pop.Good := by
    refine ⟨?_, ?_, raised.framed good.framed, ?_⟩
    · intro s member
      rw [← outer] at member
      exact good'.orderly s (List.mem_cons_of_mem _ member)
    · rw [same]
      exact good.symbols
    · intro s member
      rw [← outer] at member
      exact good'.frames s (List.mem_cons_of_mem _ member)
  refine ⟨popped, extended, same, next, ?_⟩
  rw [popped.frameSize_eq, good'.frameSize_eq, ← outer]
  simp [frameOf_cons, scopes, opens]

end Environment

end LyaLang
