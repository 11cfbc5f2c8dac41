import LyaLang.Proofs.Evaluation

/-! # Addresses of array elements

The code of an indexed location checks each index against the bounds of its dimension and adds the size of the parts
that it skips. Here the address is said in exact integers, from the bounds of the dimensions and the size of an element:
it stays inside the array, and different indexes of the same number lead to parts that have no word in common. The
dimensions are followed from the outermost inwards, as the code does, while sizes are built from the innermost outwards.
-/

namespace LyaLang

/-- The lower and upper bounds of dimensions, from the outermost inwards. -/
abbrev Dimensions := List (Int64 × Int64)

namespace Dimensions

/-- The number of words of an array with elements of a size. -/
def extent (size : Int) : Dimensions → Int
  | [] => size
  | (lower, upper) :: inner => (upper.toInt - lower.toInt + 1) * extent size inner

/-- The number of words before the part of an array under indexes. -/
def displacement (size : Int) : Dimensions → List Int64 → Int
  | (lower, _) :: inner, i :: rest => (i.toInt - lower.toInt) * extent size inner + displacement size inner rest
  | _, _ => 0

/-- Indexes between the bounds of their dimensions. -/
def Within (dims : Dimensions) (is : List Int64) : Prop := ∀ p ∈ dims.zip is, p.1.1 ≤ p.2 ∧ p.2 ≤ p.1.2

instance (dims : Dimensions) (is : List Int64) : Decidable (dims.Within is) := List.decidableBAll _ _

variable {size : Int} {dims : Dimensions} {is js : List Int64}

theorem extent_nonneg (nonneg : 0 ≤ size) (ordered : ∀ d ∈ dims, d.1 ≤ d.2) : 0 ≤ extent size dims := by
  induction dims with
  | nil => exact nonneg
  | cons d inner ih =>
    obtain ⟨first, rest⟩ := List.forall_mem_cons.mp ordered
    have order := Int64.le_iff_toInt_le.mp first
    exact mul_nonneg (by omega) (ih rest)

theorem within_cons {lower upper i : Int64} {inner : Dimensions} {rest : List Int64} :
    Within ((lower, upper) :: inner) (i :: rest) ↔ (lower ≤ i ∧ i ≤ upper) ∧ Within inner rest := List.forall_mem_cons

/-- The part under indexes lies inside the array. -/
theorem displacement_inside (nonneg : 0 ≤ size) (ordered : ∀ d ∈ dims, d.1 ≤ d.2) (within : Within dims is) :
    0 ≤ displacement size dims is ∧
      displacement size dims is + extent size (dims.drop is.length) ≤ extent size dims := by
  induction is generalizing dims with
  | nil => cases dims <;> simp [displacement]
  | cons i rest ih =>
    cases dims with
    | nil => simp [displacement]
    | cons d inner =>
      obtain ⟨⟨low, high⟩, within⟩ := within_cons.mp within
      rw [Int64.le_iff_toInt_le] at low high
      have ordered := (List.forall_mem_cons.mp ordered).2
      have whole := extent_nonneg nonneg ordered
      obtain ⟨low', high'⟩ := ih ordered within
      simp only [displacement, extent, List.length_cons, List.drop_succ_cons]
      constructor
      · nlinarith
      · nlinarith

/-- Parts under different indexes of the same number have no word in common. -/
theorem displacement_apart (nonneg : 0 ≤ size) (ordered : ∀ d ∈ dims, d.1 ≤ d.2) (short : is.length ≤ dims.length)
    (length : is.length = js.length) (within : Within dims is) (within' : Within dims js) (differ : is ≠ js) :
    displacement size dims is + extent size (dims.drop is.length) ≤ displacement size dims js ∨
      displacement size dims js + extent size (dims.drop is.length) ≤ displacement size dims is := by
  induction is generalizing dims js with
  | nil => exact absurd (List.length_eq_zero_iff.mp length.symm).symm differ
  | cons i rest ih =>
    cases js with
    | nil => cases length
    | cons j rest' =>
      cases dims with
      | nil => cases Nat.not_succ_le_zero _ short
      | cons d inner =>
        have ordered := (List.forall_mem_cons.mp ordered).2
        obtain ⟨⟨low, high⟩, inside⟩ := within_cons.mp within
        obtain ⟨⟨low', high'⟩, inside'⟩ := within_cons.mp within'
        have lengths : rest.length = rest'.length := Nat.succ.inj length
        have whole := extent_nonneg nonneg ordered
        obtain ⟨starts, ends⟩ := displacement_inside nonneg ordered inside
        obtain ⟨starts', ends'⟩ := displacement_inside nonneg ordered inside'
        rw [← lengths] at ends'
        simp only [displacement, List.length_cons, List.drop_succ_cons]
        rcases lt_trichotomy i.toInt j.toInt with less | same | more
        · left
          nlinarith
        · obtain rfl := Int64.toInt_inj.mp same
          have differ : rest ≠ rest' := fun same => differ (congrArg _ same)
          have apart := ih ordered (Nat.le_of_succ_le_succ short) lengths inside inside' differ
          omega
        · right
          nlinarith

end Dimensions

/-- A mode is that of arrays with some dimensions and elements of another mode. A name may stand before each dimension. -/
inductive Mode.Spans : Mode → Dimensions → Mode → Prop where
  | nil {elem : Mode} : Spans elem [] elem
  | array {lower upper : Int64} {inner elem : Mode} {dims : Dimensions} (spans : Spans inner dims elem) :
    Spans (.array lower upper inner) ((lower, upper) :: dims) elem
  | named {name : Bytes} {mode elem : Mode} {dims : Dimensions} (spans : Spans mode dims elem) :
    Spans (.named name mode) dims elem

namespace Mode.Spans

variable {mode elem : Mode} {dims : Dimensions}

theorem size_eq (spans : mode.Spans dims elem) : mode.size = Int64.ofInt (dims.extent elem.size.toInt) := by
  induction spans with
  | nil => exact (Int64.ofInt_toInt _).symm
  | array _ ih =>
    rw [Mode.size, Dimensions.extent, ih, Int64.ofInt_mul, Int64.ofInt_add, Int64.ofInt_sub, Int64.ofInt_toInt,
      Int64.ofInt_toInt]
    rfl
  | named _ ih => exact ih

/-- What the outermost dimension says. -/
theorem cons {lower upper : Int64} (spans : mode.Spans ((lower, upper) :: dims) elem) :
    mode.isString = false ∧ mode.lower = lower ∧ mode.upper = upper ∧
      ∃ inner, mode.elem? = some inner ∧ inner.Spans dims elem := by
  generalize same : (lower, upper) :: dims = all at spans
  induction spans with
  | nil => cases same
  | array spans =>
    cases same
    exact ⟨rfl, rfl, rfl, _, rfl, spans⟩
  | named _ ih => exact ih same

end Mode.Spans

open Ast Emit Machine

/-- On a machine, an emission succeeds, and the code that it appends pushes a word from wherever it stands, if a number
of words are free. -/
def Supplies (m : Machine) (x : Emit Unit) (w : Word) (free : Nat) : Prop :=
  ∃ code, Emits x () code ∧ ∀ {image limits}, m.Ready image limits → ∀ {i : Nat} {u : List Word}, image.Holds i code →
    u.length + free ≤ m.room → m.Meets image limits i u (.arrives (i + code.length) (w :: u))

/-- On a machine, an emission succeeds, and the code that it appends ends in a fault. -/
def Stops (m : Machine) (x : Emit Unit) (f : RuntimeFault) (free : Nat) : Prop :=
  ∃ code, Emits x () code ∧ ∀ {image limits}, m.Ready image limits → ∀ {i : Nat} {u : List Word}, image.Holds i code →
    u.length + free ≤ m.room → ∃ j, m.Meets image limits i u (.fails j f)

/-- The code of indexes turns the address of an array into that of a part, or stops at the first index that is outside
its bounds. -/
theorem emitIndexes_emits_address {m : Machine} {free : Nat} {elem : Mode} {xs : List (Expr Note × Int64)}
    (supplies : ∀ x ∈ xs, Supplies m x.1.emitValue (.int x.2) free) {mode : Mode} {dims : Dimensions}
    (spans : mode.Spans dims elem) (short : xs.length ≤ dims.length) :
    ∃ code, Emits (Expr.emitIndexes (some mode) (xs.map Prod.fst)) () code ∧
      (dims.Within (xs.map Prod.snd) → ∀ {image limits}, m.Ready image limits → ∀ {i : Nat} {u : List Word} (base : Int64),
        image.Holds i code → u.length + (max free 2 + 1) ≤ m.room →
        m.Meets image limits i (.int base :: u) (.arrives (i + code.length)
          (.int (Int64.ofInt (base.toInt + dims.displacement elem.size.toInt (xs.map Prod.snd))) :: u))) ∧
      (¬dims.Within (xs.map Prod.snd) → ∃ p ∈ dims.zip (xs.map Prod.snd), (p.2 < p.1.1 ∨ p.1.2 < p.2) ∧
        ∀ {image limits}, m.Ready image limits → ∀ {i : Nat} {u : List Word} (base : Int64), image.Holds i code →
          u.length + (max free 2 + 1) ≤ m.room →
          ∃ j, m.Meets image limits i (.int base :: u) (.fails j (.indexOutOfRange p.2 p.1.1 p.1.2))) := by
  induction xs generalizing mode dims with
  | nil =>
    have start : dims.displacement elem.size.toInt [] = 0 := by cases dims <;> rfl
    refine ⟨[], .pure (), @fun _ image limits ready i u base _ _ => ?_, fun outside => ?_⟩
    · simp only [List.map_nil, start, Int.add_zero, Int64.ofInt_toInt]
      exact .refl
    · exact absurd (by simp [Dimensions.Within]) outside
  | cons x xs ih =>
    obtain ⟨e, v⟩ := x
    obtain ⟨⟨codeE, emitsE, runsE⟩, supplies⟩ := List.forall_mem_cons.mp supplies
    obtain _ | ⟨⟨lower, upper⟩, inner⟩ := dims
    · cases Nat.not_succ_le_zero _ short
    obtain ⟨array, rfl, rfl, part, isElem, spans⟩ := spans.cons
    obtain ⟨codeRest, emitsRest, arrives, stops⟩ := ih supplies spans (Nat.le_of_succ_le_succ short)
    refine ⟨codeE ++ (mode.elementCode ++ codeRest), emitsE.andThen ((emitElement_emits_elem array isElem).bind emitsRest),
      ?_⟩
    -- The index and its check, from wherever the code stands.
    have one {image limits} (ready : m.Ready image limits) {i : Nat} {u : List Word} (base : Int64)
        (holds : image.Holds i (codeE ++ (mode.elementCode ++ codeRest))) (room : u.length + (max free 2 + 1) ≤ m.room) :
        if v < mode.lower || v > mode.upper then
          ∃ j, m.Meets image limits i (.int base :: u) (.fails j (.indexOutOfRange v mode.lower mode.upper))
        else m.Meets image limits i (.int base :: u) (.arrives (i + codeE.length + mode.elementCode.length)
            (.int (base + (v - mode.lower) * part.size) :: u)) ∧
          image.Holds (i + codeE.length + mode.elementCode.length) codeRest := by
      obtain ⟨holdsE, holds⟩ := Image.holds_append.mp holds
      obtain ⟨holdsElement, holdsRest⟩ := Image.holds_append.mp holds
      have first := runsE ready (u := .int base :: u) holdsE (by rw [List.length_cons]; omega)
      have second : Delivers image limits m _ (.int v :: .int base :: u) _ u _ :=
        mode.delivers_element ready holdsElement (by omega)
      have value : (Word.int v).toInt = v := rfl
      unfold Mode.elementAt inBounds at second
      rw [array, isElem, value] at second
      by_cases out : (v < mode.lower || v > mode.upper) = true
      · rw [if_pos out] at second ⊢
        exact ⟨_, first.trans second⟩
      · rw [if_neg out] at second ⊢
        exact ⟨first.trans second, holdsRest⟩
    simp only [List.map_cons, Dimensions.within_cons, List.zip_cons_cons, List.exists_mem_cons_iff]
    by_cases out : (v < mode.lower || v > mode.upper) = true
    · have outside : v < mode.lower ∨ mode.upper < v := by simpa using out
      simp only [if_pos out] at one
      refine ⟨fun within => ?_, fun _ => .inl ⟨outside, one⟩⟩
      rcases outside with less | more
      · exact absurd less (Int64.not_lt.mpr within.1.1)
      · exact absurd more (Int64.not_lt.mpr within.1.2)
    · have within : mode.lower ≤ v ∧ v ≤ mode.upper := by simpa using out
      simp only [if_neg out] at one
      refine ⟨@fun all image limits ready i u base holds room => ?_, fun outside => .inr ?_⟩
      · obtain ⟨front, holdsRest⟩ := one ready base holds room
        have address (d : Int) : Int64.ofInt ((base + (v - mode.lower) * part.size).toInt + d) =
            Int64.ofInt (base.toInt + ((v.toInt - mode.lower.toInt) * Dimensions.extent elem.size.toInt inner + d)) := by
          rw [← Int.add_assoc, Int64.ofInt_add, Int64.ofInt_toInt, Int64.ofInt_add, Int64.ofInt_add, Int64.ofInt_mul,
            Int64.ofInt_sub, Int64.ofInt_toInt, Int64.ofInt_toInt, Int64.ofInt_toInt, ← spans.size_eq]
        rw [Dimensions.displacement, List.length_append, List.length_append, ← address, ← Nat.add_assoc, ← Nat.add_assoc]
        exact front.trans (arrives all.2 ready _ holdsRest room)
      · obtain ⟨p, member, out, stops⟩ := stops fun rest => outside ⟨within, rest⟩
        refine ⟨p, member, out, @fun image limits ready i u base holds room => ?_⟩
        obtain ⟨front, holdsRest⟩ := one ready base holds room
        obtain ⟨j, stops⟩ := stops ready _ holdsRest room
        exact ⟨j, front.trans stops⟩

/-- An array with dimensions that are not empty is addressed inside its bounds and without overlaps. Let `base` be the
address of the array, and let the whole array end below `2 ^ 62`. Under indexes, full or partial, the code of the
location pushes the base and, for each index, its distance from the lower bound times the size of what is left of the
array; it stops exactly if an index is outside its bounds. The words at such an address lie inside the array, and
different indexes of the same number lead to words apart. -/
theorem array_parts_are_addressed_apart {mode elem : Mode} {dims : Dimensions} (spans : mode.Spans dims elem)
    (ordered : ∀ d ∈ dims, d.1 ≤ d.2) (nonneg : 0 ≤ elem.size.toInt) (small : dims.extent elem.size.toInt < 2 ^ 62)
    {x : Expr Note} (isMode : x.note.mode = some mode) {m : Machine} {base : Int64} {free : Nat}
    (fits : base.toInt + dims.extent elem.size.toInt < 2 ^ 62) (located : Supplies m x.emitAddress (.int base) free) :
    mode.size.toInt = dims.extent elem.size.toInt ∧
    (∀ (note : Note) (xs : List (Expr Note × Int64)), xs.length ≤ dims.length →
      (∀ x ∈ xs, Supplies m x.1.emitValue (.int x.2) free) →
      (dims.Within (xs.map Prod.snd) →
        ∃ addr : Int64, addr.toInt = base.toInt + dims.displacement elem.size.toInt (xs.map Prod.snd) ∧
          Supplies m (Expr.emitAddress (.index note x (xs.map Prod.fst))) (.int addr) (max free 2 + 1)) ∧
      (¬dims.Within (xs.map Prod.snd) →
        ∃ p ∈ dims.zip (xs.map Prod.snd), (p.2 < p.1.1 ∨ p.1.2 < p.2) ∧
          Stops m (Expr.emitAddress (.index note x (xs.map Prod.fst))) (.indexOutOfRange p.2 p.1.1 p.1.2)
            (max free 2 + 1))) ∧
    ∀ is, is.length ≤ dims.length → dims.Within is →
      0 ≤ dims.displacement elem.size.toInt is ∧
      dims.displacement elem.size.toInt is + Dimensions.extent elem.size.toInt (dims.drop is.length) ≤
        dims.extent elem.size.toInt ∧
      ∀ js, is.length = js.length → dims.Within js → is ≠ js →
        dims.displacement elem.size.toInt is + Dimensions.extent elem.size.toInt (dims.drop is.length) ≤
          dims.displacement elem.size.toInt js ∨
        dims.displacement elem.size.toInt js + Dimensions.extent elem.size.toInt (dims.drop is.length) ≤
          dims.displacement elem.size.toInt is := by
  have exact' : mode.size.toInt = dims.extent elem.size.toInt := by
    have low := Dimensions.extent_nonneg nonneg ordered
    rw [spans.size_eq, Int64.toInt_ofInt_of_le (by omega) (by omega)]
  refine ⟨exact', fun note xs short supplies => ?_, fun is short within => ?_⟩
  · obtain ⟨codeX, emitsX, runsX⟩ := located
    obtain ⟨code, emits, arrives, stops⟩ := emitIndexes_emits_address supplies spans short
    have emits : Emits (Expr.emitAddress (.index note x (xs.map Prod.fst))) () (codeX ++ code) := by
      rw [Expr.emitAddress, isMode]
      exact emitsX.andThen emits
    refine ⟨fun within => ?_, fun outside => ?_⟩
    · obtain ⟨low, high⟩ := Dimensions.displacement_inside nonneg ordered within
      have part : 0 ≤ Dimensions.extent elem.size.toInt (dims.drop (xs.map Prod.snd).length) :=
        Dimensions.extent_nonneg nonneg fun d member => ordered d (List.mem_of_mem_drop member)
      have above := Int64.le_toInt base
      refine ⟨_, Int64.toInt_ofInt_of_le (by omega) (by omega), _, emits, @fun image limits ready i u holds room => ?_⟩
      obtain ⟨holdsX, holds⟩ := Image.holds_append.mp holds
      rw [List.length_append, ← Nat.add_assoc]
      exact (runsX ready holdsX (by omega)).trans (arrives within ready base holds room)
    · obtain ⟨p, member, out, stops⟩ := stops outside
      refine ⟨p, member, out, _, emits, @fun image limits ready i u holds room => ?_⟩
      obtain ⟨holdsX, holds⟩ := Image.holds_append.mp holds
      obtain ⟨j, stops⟩ := stops ready base holds room
      exact ⟨j, (runsX ready holdsX (by omega)).trans stops⟩
  · obtain ⟨low, high⟩ := Dimensions.displacement_inside nonneg ordered within
    exact ⟨low, high, fun js length within' differ =>
      Dimensions.displacement_apart nonneg ordered short length within within' differ⟩

/-- A variable of a named mode with two rows of three numbers, two words behind the start of its frame. -/
def grid : Expr Note :=
  let symbol : Symbol := { name := "g", category := .var, offset := 2 }
  let mode : Mode := .named "grid" (.array 1 2 (.array (-3) (-1) .int))
  .ident ⟨{ span := default, mode := some mode, symbol := some symbol }, "g"⟩

/-- A machine with the variable on its stack. -/
def gridMachine : Machine := { Machine.create 20 [] with sp := 7 }

/-- The element in the second row and the last column stands five words behind the start; column zero is outside. -/
theorem grid_is_addressed : gridMachine.Sane ∧
    Supplies gridMachine (Expr.emitAddress (.index grid.note grid [.int grid.note 2, .int grid.note (-1)])) (.int 7) 3 ∧
    Stops gridMachine (Expr.emitAddress (.index grid.note grid [.int grid.note 2, .int grid.note 0]))
      (.indexOutOfRange 0 (-3) (-1)) 3 := by
  have spans : (Mode.named "grid" (.array 1 2 (.array (-3) (-1) .int))).Spans [(1, 2), (-3, -1)] .int :=
    .named (.array (.array .nil))
  have located : Supplies gridMachine grid.emitAddress (.int 2) 1 :=
    ⟨[.op2 .ldr 0 2], .one, fun ready _ _ holds room =>
      Symbol.delivers_address ready { name := "g", category := .var, offset := 2 } holds.1 room⟩
  have literal (v : Int64) : Supplies gridMachine (Expr.int grid.note v).emitValue (.int v) 1 :=
    ⟨[.load (.int v)], .one, fun ready _ _ holds room => .load ready _ holds.1 room⟩
  have parts := (array_parts_are_addressed_apart spans (by simp) (by decide +kernel) (by decide +kernel) rfl
    (by decide +kernel) located).2.1 grid.note
  refine ⟨⟨by decide +kernel, by decide +kernel, by decide +kernel⟩, ?_, ?_⟩
  · obtain ⟨addr, same, supplies⟩ := (parts [(.int grid.note 2, 2), (.int grid.note (-1), -1)] le_rfl
      (by simp [literal])).1 (by decide +kernel)
    obtain rfl : addr = 7 := Int64.toInt_inj.mp (same.trans (by decide +kernel))
    exact supplies
  · obtain ⟨p, member, outside, stops⟩ := (parts [(.int grid.note 2, 2), (.int grid.note 0, 0)] le_rfl
      (by simp [literal])).2 (by decide +kernel)
    rcases List.mem_cons.mp member with rfl | member
    · exact absurd outside (by decide)
    · obtain rfl := List.mem_singleton.mp member
      exact stops

end LyaLang
