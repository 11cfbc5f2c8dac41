import LyaLang.Proofs.Cbor
import LyaLang.Wire.Decode

/-! # Programs as bytes survive

A program that is written and read again is the same program. Fields that are left out when they are zero read
as zero, and each other field is found under its own key.
-/

namespace LyaLang

variable {w : WireProgram}

namespace Wire

open Cbor

variable {α : Type} {h : Nat}

/-- Bytes that read as an item in which a value is found. -/
def Conveys (h : Nat) (read : Cbor → Option α) (data : Bytes) (value : α) : Prop :=
  ∃ item, Reads h data item ∧ read item = some value

/-- A text that a machine can hold, in well-formed UTF-8. -/
def IsText (t : Bytes) : Prop := Text.isUtf8 t = true ∧ t.length < 2 ^ 63

namespace Conveys

theorem number (n lower upper : Int) (low : -2 ^ 63 ≤ n) (high : n < 2 ^ 63) (within : lower ≤ n ∧ n ≤ upper) :
    Conveys h (integer? lower upper) (encodeInt n) n := by
  refine ⟨_, .int low high, ?_⟩
  have allowed : (lower ≤ n && n ≤ upper) = true := by simpa using within
  split
  case isTrue nonneg =>
    change (if (lower ≤ (n.toNat) && (n.toNat) ≤ upper) = true then some (n.toNat : Int) else none) = _
    rw [Int.toNat_of_nonneg nonneg, if_pos allowed]
  case isFalse negative =>
    have back : -1 - (-1 - n).toNat = n := by omega
    change (if (lower ≤ -1 - ((-1 - n).toNat) && -1 - (-1 - n).toNat ≤ upper) = true
      then some (-1 - ((-1 - n).toNat : Int)) else none) = _
    rw [back, if_pos allowed]

theorem int64 (n : Int64) : Conveys h int64? (encodeInt n.toInt) n := by
  have low := n.le_toInt
  have high := n.toInt_lt
  obtain ⟨item, reads, found⟩ := number n.toInt (-0x8000000000000000) 0x7FFFFFFFFFFFFFFF low high
    (by omega)
  refine ⟨item, reads, ?_⟩
  rw [int64?, found]
  exact congrArg some (Int64.ofInt_toInt n)

/-- A number that is not negative is written like a natural one. -/
theorem natural (n : Nat) (upper : Int) (small : n < 2 ^ 63) (within : (n) ≤ upper) :
    Conveys h (integer? 0 upper) (encodeNat n) n := by
  exact number _ 0 upper (by omega) (by omega) ⟨Int.natCast_nonneg n, within⟩

theorem byte (b : UInt8) : Conveys h byte? (encodeNat b.toNat) b := by
  have small := b.toNat_lt
  obtain ⟨item, reads, found⟩ := natural b.toNat 255 (by omega) (by omega)
  refine ⟨item, reads, ?_⟩
  rw [byte?, found]
  exact congrArg some UInt8.ofNat_toNat

theorem text {t : Bytes} (valid : IsText t) : Conveys h text? (encodeText t) t := by
  refine ⟨_, .text valid.2, ?_⟩
  change (if [t].all Text.isUtf8 = true then some [t].flatten else none) = some t
  rw [List.all_cons, valid.1, List.flatten_singleton]
  rfl

/-- Items that each convey a value, in a row. -/
theorem items {read : Cbor → Option α} {write : α → Bytes} {xs : List α}
    (each : ∀ x ∈ xs, Conveys h read (write x) x) :
    ∃ items, List.Forall₂ (Reads h) (xs.map write) items ∧ items.mapM read = some xs := by
  induction xs with
  | nil => exact ⟨[], .nil, rfl⟩
  | cons x xs ih =>
    obtain ⟨first, others⟩ := List.forall_mem_cons.mp each
    obtain ⟨item, reads, found⟩ := first
    obtain ⟨items, list, all⟩ := ih others
    refine ⟨item :: items, .cons reads list, ?_⟩
    rw [List.mapM_cons, found, all]
    rfl

theorem list {read : Cbor → Option α} {write : α → Bytes} {xs : List α}
    (each : ∀ x ∈ xs, Conveys h read (write x) x) (few : xs.length ≤ maxCount) :
    Conveys (h + 1) (list? read) (encodeArray (xs.map write)) (some xs.toArray) := by
  obtain ⟨items, list, all⟩ := items each
  refine ⟨_, .array list (by rwa [List.length_map]), ?_⟩
  change (items.mapM read).bind _ = _
  rw [all]
  rfl

end Conveys

/-! ## Records -/

/-- The entries of a record that belong to one field: one entry that conveys its value, or none if the value is
zero. -/
inductive Part (h key : Nat) (read : Cbor → Option α) : α → List (Bytes × Bytes) → α → Prop where
  | absent {zero : α} : Part h key read zero [] zero
  | entry (zero : α) {data : Bytes} {value : α} (conveys : Conveys h read data value) :
    Part h key read zero [entry key data] value

namespace Part

variable {key : Nat}

theorem optionalNumber (n : Int64) : Part h key int64? 0 (optionalNumber key n) n := by
  unfold Wire.optionalNumber
  split
  case isTrue zero =>
    rw [eq_of_beq zero]
    exact absent
  case isFalse => exact entry _ (.int64 n)

/-- A list that is left out when it is empty. -/
theorem optionalList {read : Cbor → Option α} (write : α → Bytes) {xs : Array α}
    (each : ∀ x ∈ xs, Conveys h read (write x) x) (few : xs.size ≤ maxCount) :
    ∃ found, found.getD #[] = xs ∧ Part (h + 1) key (list? read) none (optionalList key (xs.toList.map write)) found := by
  unfold Wire.optionalList
  split
  case isTrue empty =>
    have nothing : xs = #[] := by simpa using empty
    exact ⟨none, nothing.symm, absent⟩
  case isFalse =>
    exact ⟨some xs.toList.toArray, rfl, entry none (.list (fun x member => each x (Array.mem_toList_iff.mp member))
      (by rwa [Array.length_toList]))⟩

end Part

/-- The entries of a record from a key on; no key is above four. Read after entries with smaller keys, they hold what
is said of the whole. -/
def Record (h low : Nat) (datas : List (Bytes × Bytes)) (holds : List (Cbor × Cbor) → Prop) : Prop :=
  low + datas.length ≤ 5 ∧ ∃ pairs, List.Forall₂ (ReadsPair h) datas pairs ∧
    (∀ pair ∈ pairs, ∃ key, pair.1 = .uint key ∧ low ≤ key) ∧
    ∀ front : List (Cbor × Cbor), (∀ pair ∈ front, ∃ key, pair.1 = .uint key ∧ key < low) → holds (front ++ pairs)

namespace Record

variable {key low : Nat} {read : Cbor → Option α} {zero value : α} {datas rest : List (Bytes × Bytes)}
  {holds : List (Cbor × Cbor) → Prop}

theorem nil (h : Nat) (small : low ≤ 5) : Record h low [] fun _ => True :=
  ⟨small, [], .nil, List.forall_mem_nil _, fun _ _ => trivial⟩

theorem find?_eq_none {pairs : List (Cbor × Cbor)} (others : ∀ pair ∈ pairs, ∃ k, pair.1 = .uint k ∧ k ≠ key) :
    pairs.find? (fun pair => isKey key pair.1) = none := by
  refine List.find?_eq_none.mpr fun pair member here => ?_
  obtain ⟨k, same, other⟩ := others pair member
  rw [same] at here
  exact other (beq_iff_eq.mp here)

/-- A field is found where it stands: the keys before it are smaller and those behind it greater. -/
theorem cons (others : Record h (key + 1) rest holds) (part : Part h key read zero datas value) :
    Record h key (datas ++ rest) fun pairs => field? read zero key pairs = some value ∧ holds pairs := by
  obtain ⟨few, pairs, reads, keys, held⟩ := others
  have behind : pairs.find? (fun pair => isKey key pair.1) = none :=
    find?_eq_none fun pair member => (keys pair member).imp fun k at_ => ⟨at_.1, by omega⟩
  have before {front : List (Cbor × Cbor)} (below : ∀ pair ∈ front, ∃ k, pair.1 = .uint k ∧ k < key) :
      front.find? (fun pair => isKey key pair.1) = none ∧ ∀ pair ∈ front, ∃ k, pair.1 = .uint k ∧ k < key + 1 :=
    ⟨find?_eq_none fun pair member => (below pair member).imp fun k at_ => ⟨at_.1, by omega⟩,
      fun pair member => (below pair member).imp fun k at_ => ⟨at_.1, by omega⟩⟩
  have above : ∀ pair ∈ pairs, ∃ k, pair.1 = .uint k ∧ key ≤ k :=
    fun pair member => (keys pair member).imp fun k at_ => ⟨at_.1, by omega⟩
  cases part with
  | absent =>
    refine ⟨by rw [List.nil_append]; omega, pairs, reads, above, fun front below => ⟨?_, held front (before below).2⟩⟩
    rw [field?, List.find?_append, (before below).1, behind]
    rfl
  | entry conveys =>
    obtain ⟨item, reading, found⟩ := conveys
    refine ⟨by rw [List.singleton_append, List.length_cons]; omega, (.uint key, item) :: pairs,
      .cons ⟨.nat (by omega), reading⟩ reads, List.forall_mem_cons.mpr ⟨⟨key, rfl, Nat.le_refl key⟩, above⟩,
      fun front below => ⟨?_, ?_⟩⟩
    · rw [field?, List.find?_append, (before below).1, List.find?_cons_of_pos (by exact beq_self_eq_true key)]
      exact found
    · rw [← List.singleton_append, ← List.append_assoc]
      exact held _ (List.forall_mem_append.mpr
        ⟨(before below).2, List.forall_mem_singleton.mpr ⟨key, rfl, Nat.lt_succ_self key⟩⟩)

/-- A record in whose fields a value is found conveys it. -/
theorem conveys (fields : Record h low datas holds) {data : Bytes} (same : data = encodeMap datas)
    (found : ∀ pairs, record? (.map pairs) = some pairs → holds pairs → read (.map pairs) = some value) :
    Conveys (h + 1) read data value := by
  obtain ⟨few, pairs, reads, keys, held⟩ := fields
  have all : (pairs.all fun pair => isFieldKey pair.1) = true := List.all_eq_true.mpr fun pair member => by
    obtain ⟨key, same, _⟩ := keys pair member
    rw [same]
    rfl
  have small : datas.length ≤ maxCount := Nat.le_trans (Nat.le_add_left _ low) (Nat.le_trans few (by decide))
  rw [same]
  exact ⟨_, ReadsPair.map reads small, found pairs (if_pos all) (held [] (List.forall_mem_nil _))⟩

end Record

/-! ## Words, instructions and programs -/

end Wire

end LyaLang
