import Mathlib.Tactic.Simps.Basic
import LyaLang.Proofs.Text.Case
import LyaLang.Scope.Context

/-! # Scopes up to spelling

Symbols with their names in lower case and without their lines. Scopes find and place symbols by keys,
which are in lower case anyway, so every operation on scopes commutes with blurring their symbols.
-/

namespace LyaLang

/-! ## Modes -/

namespace Mode

/-- A mode with the names in it in lower case. -/
def blur : Mode → Mode
  | range base lower upper => range base.blur lower upper
  | array lower upper elem => array lower upper elem.blur
  | ref target => ref target.blur
  | named name mode => named (Text.toLower name) mode.blur
  | int => int
  | bool => bool
  | char => char
  | string => string
  | void => void
  | chars length => chars length

@[simp] theorem type_blur (m : Mode) : m.blur.type = m.type := by
  induction m with
  | range base lower upper ih => exact ih
  | array lower upper elem ih => exact congrArg ValueType.array ih
  | ref target ih => exact congrArg ValueType.reference ih
  | named name mode ih => exact ih
  | _ => rfl

@[simp] theorem size_blur (m : Mode) : m.blur.size = m.size := by
  induction m with
  | array lower upper elem ih => exact congrArg ((upper - lower + 1) * ·) ih
  | named name mode ih => exact ih
  | _ => rfl

@[simp] theorem lower_blur (m : Mode) : m.blur.lower = m.lower := by
  induction m with
  | named name mode ih => exact ih
  | _ => rfl

@[simp] theorem upper_blur (m : Mode) : m.blur.upper = m.upper := by
  induction m with
  | named name mode ih => exact ih
  | _ => rfl

@[simp] theorem isRange_blur (m : Mode) : m.blur.isRange = m.isRange := by
  induction m with
  | named name mode ih => exact ih
  | _ => rfl

@[simp] theorem capacity_blur (m : Mode) : m.blur.capacity = m.capacity := by
  induction m with
  | named name mode ih => exact ih
  | _ => rfl

@[simp] theorem elem?_blur (m : Mode) : m.blur.elem? = m.elem?.map blur := by
  induction m with
  | named name mode ih => exact ih
  | _ => rfl

@[simp] theorem isString_blur (m : Mode) : m.blur.isString = m.isString := by rw [isString, type_blur, isString]

@[simp] theorem isArray_blur (m : Mode) : m.blur.isArray = m.isArray := by rw [isArray, type_blur, isArray]

@[simp] theorem blur_eq_void_iff {m : Mode} : m.blur = .void ↔ m = .void := by
  constructor
  · intro same
    cases m with
    | void => rfl
    | _ => cases same
  · rintro rfl
    rfl

@[simp] theorem optionType_blur (m : Option Mode) : optionType (m.map blur) = optionType m := by
  cases m with
  | none => rfl
  | some m => exact m.type_blur

@[simp] theorem optionIsArray_blur (m : Option Mode) : optionIsArray (m.map blur) = optionIsArray m := by
  cases m with
  | none => rfl
  | some m => exact m.isArray_blur

@[simp] theorem optionIsString_blur (m : Option Mode) : optionIsString (m.map blur) = optionIsString m := by
  cases m with
  | none => rfl
  | some m => exact m.isString_blur

theorem ofScalar?_blur (t : ValueType) : (ofScalar? t).map blur = ofScalar? t := by
  cases t <;> rfl

end Mode

/-! ## Symbols -/

/-- A parameter with the names in its mode in lower case. -/
@[simps] def Parameter.blur (p : Parameter) : Parameter := { p with mode := p.mode.map Mode.blur }

/-- A procedure with the names in its modes in lower case. -/
@[simps] def Procedure.blur (p : Procedure) : Procedure :=
  { p with result := p.result.blur, params := p.params.map Parameter.blur }

/-- A symbol with its names in lower case and without its line. -/
@[simps] def Symbol.blur (s : Symbol) : Symbol :=
  { s with name := Text.toLower s.name, mode := s.mode.map Mode.blur, line := 0, proc := s.proc.map Procedure.blur }

/-! ## Scopes -/

namespace Scope

/-- A scope with its symbols blurred. -/
def blur (s : Scope) : Scope := s.mapSymbols Symbol.blur

@[simp] theorem keyOf_toLower (name : Bytes) : keyOf (Text.toLower name) = keyOf name := Text.toLower_idem name

theorem find?_blur (s : Scope) (name : Bytes) : s.blur.find? (Text.toLower name) = (s.find? name).map Symbol.blur := by
  rw [find?, find?, keyOf_toLower, blur, mapSymbols, List.find?_map, Option.map_map, Option.map_map]
  rfl

theorem insertEntry_blur (key : Bytes) (symbol : Symbol) (entries : List ScopeEntry) :
    (insertEntry key symbol entries).map (fun e => { e with first := e.first.blur, current := e.current.blur }) =
      insertEntry key symbol.blur
        (entries.map fun e => { e with first := e.first.blur, current := e.current.blur }) := by
  induction entries with
  | nil => rfl
  | cons e rest ih =>
    rw [insertEntry, List.map_cons, insertEntry]
    by_cases same : (e.key == key) = true
    · rw [if_pos same, if_pos same]
      rfl
    · rw [if_neg same, if_neg same, List.map_cons, ih]

theorem insert_blur (s : Scope) (name : Bytes) (symbol : Symbol) :
    (s.insert name symbol).blur = s.blur.insert (Text.toLower name) symbol.blur := by
  rw [insert, insert, keyOf_toLower, blur, mapSymbols, insertEntry_blur]
  rfl

end Scope

namespace Environment

/-- Scopes with their symbols blurred. -/
def blur (e : Environment) : Environment := e.mapSymbols Symbol.blur

theorem scopes_blur (e : Environment) : e.blur.scopes = e.scopes.map Scope.blur := rfl

theorem depth_blur (e : Environment) : e.blur.depth = e.depth := by
  rw [depth, depth, blur, mapSymbols, List.length_map]

theorem root_blur (e : Environment) : e.blur.root = e.root.blur := by
  rw [root, root, blur, mapSymbols, List.getLast?_map]
  cases e.outer.getLast? <;> rfl

theorem find?_blur (e : Environment) (name : Bytes) :
    e.blur.find? (Text.toLower name) = (e.find? name).map Symbol.blur := e.inner.find?_blur name

theorem lookup?_blur (e : Environment) (name : Bytes) :
    e.blur.lookup? (Text.toLower name) = (e.lookup? name).map Symbol.blur := by
  rw [lookup?, lookup?, scopes_blur, List.findSome?_map, List.map_findSome?]
  exact congrArg (fun find => List.findSome? find e.scopes) (funext fun s => s.find?_blur name)

theorem frameSize_blur (e : Environment) : e.blur.frameSize = e.frameSize := by
  rw [frameSize, frameSize, frameScope, frameScope, scopes_blur, List.find?_map, root_blur]
  have opens : (fun s : Scope => s.opensFrame) ∘ Scope.blur = fun s : Scope => s.opensFrame := rfl
  rw [opens]
  cases e.scopes.find? (·.opensFrame) <;> rfl

theorem pop_blur (e : Environment) : e.pop.blur = e.blur.pop := by
  obtain ⟨inner, outer⟩ := e
  cases outer <;> rfl

theorem raise_blur (size : Int64) (ss : List Scope) : (raise size ss).map Scope.blur = raise size (ss.map Scope.blur) := by
  induction ss with
  | nil => rfl
  | cons s rest ih =>
    rw [raise, List.map_cons, raise]
    cases opens : s.opensFrame with
    | true =>
      have opens' : s.blur.opensFrame = true := opens
      have water : s.blur.highWater = s.highWater := rfl
      rw [opens', water]
      simp only [if_true, List.map_cons]
      split <;> rfl
    | false =>
      have opens' : s.blur.opensFrame = false := opens
      rw [opens']
      simp only [Bool.false_eq_true, if_false, List.map_cons, ih]

theorem reserve_blur (e : Environment) (count : Int64) :
    e.blur.reserve count = ((e.reserve count).1.blur, (e.reserve count).2) := by
  have raised := raise_blur (e.inner.next + count) ({ e.inner with next := e.inner.next + count } :: e.outer)
  unfold reserve
  dsimp only
  have same : ({ e.blur.inner with next := e.blur.inner.next + count } :: e.blur.outer) =
      ({ e.inner with next := e.inner.next + count } :: e.outer).map Scope.blur := rfl
  have next : e.blur.inner.next = e.inner.next := rfl
  rw [same, next, ← raised]
  cases raise (e.inner.next + count) ({ e.inner with next := e.inner.next + count } :: e.outer) <;> rfl

theorem declareAt_blur (e : Environment) (name : Bytes) (symbol : Symbol) (offset level : Int64) :
    e.blur.declareAt (Text.toLower name) symbol.blur offset level =
      ((e.declareAt name symbol offset level).1.blur, (e.declareAt name symbol offset level).2.blur) := by
  have inserted := e.inner.insert_blur name { symbol with offset, level }
  exact congrArg (fun inner => (Environment.mk inner e.blur.outer, { symbol.blur with offset, level })) inserted.symm

theorem declare_blur (e : Environment) (name : Bytes) (symbol : Symbol) :
    e.blur.declare (Text.toLower name) symbol.blur =
      ((e.declare name symbol).1.blur, (e.declare name symbol).2.blur) := by
  have category : symbol.blur.category = symbol.category := rfl
  rw [declare, declare, category, reserve_blur]
  split
  · exact declareAt_blur _ _ _ _ _
  · exact declareAt_blur _ _ _ _ _

end Environment

/-- A context with its symbols blurred. -/
def Context.blur (c : Context) : Context :=
  { c with environment := c.environment.blur, functions := c.functions.map Symbol.blur }

end LyaLang
