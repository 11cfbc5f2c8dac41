import Mathlib
import LyaLang.Cbor.Reader

/-! # Data items read back

The shortest encoding of a data item reads back as that item, whatever follows it. An item inside others needs
room for its own depth below the greatest one, and the bytes of an encoding always give the reader enough fuel
to get through it.
-/

namespace LyaLang

variable {major n : Nat}

namespace Cbor

/-! ## Heads -/

theorem length_bigEndian (count n : Nat) : (Bytes.bigEndian count n).length = count := by
  induction count generalizing n with
  | zero => rfl
  | succ count ih => rw [Bytes.bigEndian, List.length_append, ih, List.length_singleton]

/-- A number in a fixed count of bytes keeps what fits in them. -/
theorem valueOf_bigEndian (count n : Nat) : valueOf (Bytes.bigEndian count n) = n % 256 ^ count := by
  induction count generalizing n with
  | zero => exact (Nat.mod_one n).symm
  | succ count ih =>
    have lowest : n.toUInt8.toNat = n % 256 := UInt8.toNat_ofNat'
    have split : n % 256 ^ (count + 1) = n % 256 + 256 * (n / 256 % 256 ^ count) := by
      rw [Nat.pow_succ, Nat.mul_comm, Nat.mod_mul]
    have step : valueOf (Bytes.bigEndian (count + 1) n) = valueOf (Bytes.bigEndian count (n / 256)) * 256 + n.toUInt8.toNat := by
      rw [Bytes.bigEndian, valueOf, List.foldl_append]
      rfl
    rw [step, ih, lowest, split, Nat.mul_comm, Nat.add_comm]

/-- The first byte of a head holds the major type and what is said of the argument. -/
theorem first_byte (major info : Nat) (low : major < 8) (small : info < 32) :
    (major * 32 + info).toUInt8.toNat / 32 = major ∧ (major * 32 + info).toUInt8.toNat % 32 = info := by
  have byte : (major * 32 + info).toUInt8.toNat = major * 32 + info :=
    UInt8.toNat_ofNat'.trans (Nat.mod_eq_of_lt (by omega))
  omega

/-- A head whose argument follows in a count of bytes. -/
theorem readHead?_sized {info count : Nat} (rest : Bytes) (low : major < 7)
    (sized : (info, count) ∈ [(24, 1), (25, 2), (26, 4), (27, 8)]) (fits : n < 256 ^ count) :
    readHead? ((major * 32 + info).toUInt8 :: Bytes.bigEndian count n ++ rest) = some (⟨major, info, .value n⟩, rest) := by
  have small : info < 32 ∧ ¬info < 24 := by
    simp only [List.mem_cons, Prod.mk.injEq, List.not_mem_nil, or_false] at sized
    omega
  obtain ⟨majors, infos⟩ := first_byte major info (by omega) small.1
  have field : (Bytes.bigEndian count n ++ rest).take count = Bytes.bigEndian count n :=
    List.take_left' (length_bigEndian count n)
  have after : (Bytes.bigEndian count n ++ rest).drop count = rest := List.drop_left' (length_bigEndian count n)
  have value : valueOf (Bytes.bigEndian count n) = n := (valueOf_bigEndian count n).trans (Nat.mod_eq_of_lt fits)
  have noSimple : (major == 7) = false := beq_false_of_ne (by omega)
  rw [List.cons_append, readHead?]
  simp only [majors, infos, if_neg small.2]
  simp only [List.mem_cons, Prod.mk.injEq, List.not_mem_nil, or_false] at sized
  rcases sized with ⟨rfl, rfl⟩ | ⟨rfl, rfl⟩ | ⟨rfl, rfl⟩ | ⟨rfl, rfl⟩ <;>
    simp only [field, after, value, noSimple, length_bigEndian, Nat.lt_irrefl, if_false, Bool.false_and, Bool.false_eq_true] <;> rfl

/-- A head in the fewest bytes reads back. -/
theorem readHead?_head (major : Nat) (rest : Bytes) (low : major < 7) (fits : n < 2 ^ 64) :
    ∃ info, readHead? (head major n ++ rest) = some (⟨major, info, .value n⟩, rest) := by
  unfold head
  split
  case isTrue small =>
    obtain ⟨majors, infos⟩ := first_byte major n (by omega) (by omega)
    refine ⟨n, ?_⟩
    rw [List.singleton_append, readHead?]
    simp only [majors, infos, if_pos small]
  · split
    · exact ⟨24, readHead?_sized rest low (by decide) (by omega)⟩
    · split
      · exact ⟨25, readHead?_sized rest low (by decide) (by omega)⟩
      · split
        · exact ⟨26, readHead?_sized rest low (by decide) (by omega)⟩
        · exact ⟨27, readHead?_sized rest low (by decide) (by omega)⟩

theorem length_head_pos (major n : Nat) : 0 < (head major n).length := by
  unfold head
  repeat' split
  all_goals exact Nat.succ_pos _

theorem readString?_append {content : Bytes} (rest : Bytes) (fits : content.length < 2 ^ 63) :
    readString? content.length (content ++ rest) = some (content, rest) := by
  have length : isLength content.length = true := decide_eq_true fits
  rw [readString?, length]
  simp

/-! ## Items -/

/-- Bytes that read as an item wherever `height` more levels may be nested. -/
structure Reads (height : Nat) (data : Bytes) (item : Cbor) : Prop where
  filled : 0 < data.length
  reads : ∀ fuel depth rest, 2 * data.length ≤ fuel → depth + height ≤ maxDepth →
    readItem? fuel depth (data ++ rest) = some (item, rest)

namespace Reads

variable {height : Nat}

/-- An item given how it is read once its head is. The head has at least one byte, which is fuel enough to open what
follows it. -/
theorem ofHead {content : Bytes} {item : Cbor} (low : major < 7) (fits : n < 2 ^ 64)
    (reads : ∀ fuel depth info rest, 2 * content.length + 1 ≤ fuel → depth + height ≤ maxDepth →
      readHead? (head major n ++ (content ++ rest)) = some (⟨major, info, .value n⟩, content ++ rest) →
      readItem? (fuel + 1) depth (head major n ++ (content ++ rest)) = some (item, rest)) :
    Reads height (head major n ++ content) item := by
  have filled := length_head_pos major n
  constructor
  · rw [List.length_append]
    omega
  · intro fuel depth rest enough room
    rw [List.length_append] at enough
    obtain ⟨fuel, rfl⟩ : ∃ f, fuel = f + 1 := ⟨fuel - 1, by omega⟩
    obtain ⟨info, front⟩ := readHead?_head major (content ++ rest) low fits
    rw [List.append_assoc]
    exact reads fuel depth info rest (by omega) room front

theorem nat (fits : n < 2 ^ 64) : Reads height (encodeNat n) (.uint n) := by
  rw [← List.append_nil (encodeNat n)]
  exact ofHead (by decide) fits fun fuel depth info rest _ _ front => by rw [readItem?, front]; rfl

theorem int {i : Int} (low : -2 ^ 63 ≤ i) (high : i < 2 ^ 63) :
    Reads height (encodeInt i) (if 0 ≤ i then .uint i.toNat else .nint (-1 - i).toNat) := by
  unfold encodeInt
  split
  · exact nat (by omega)
  · rw [← List.append_nil (head _ _)]
    exact ofHead (by decide) (by omega) fun fuel depth info rest _ _ front => by rw [readItem?, front]; rfl

theorem text {t : Bytes} (fits : t.length < 2 ^ 63) : Reads height (encodeText t) (.text [t]) := by
  refine ofHead (by decide) (by omega) fun fuel depth info rest _ _ front => ?_
  rw [readItem?, front]
  change (readString? t.length (t ++ rest)).bind _ = _
  rw [readString?_append rest fits]
  rfl

/-- Items in a row are read one after the other. The fuel for one of them lies in its own bytes and in those
before it, since each item before it has at least one byte. -/
theorem readItems {datas : List Bytes} {items : List Cbor} (reads : List.Forall₂ (Reads height) datas items) :
    ∀ fuel depth rest, 2 * datas.flatten.length + 1 ≤ fuel → depth + height ≤ maxDepth →
      readItems? fuel depth items.length (datas.flatten ++ rest) = some (items, rest) := by
  induction reads with
  | nil =>
    intro fuel depth rest _ _
    rw [List.length_nil, readItems?]
    rfl
  | @cons data item datas items first _ ih =>
    intro fuel depth rest enough room
    have filled := first.filled
    rw [List.flatten_cons, List.length_append] at enough
    obtain ⟨fuel, rfl⟩ : ∃ f, fuel = f + 1 := ⟨fuel - 1, by omega⟩
    rw [List.flatten_cons, List.length_cons, List.append_assoc, readItems?]
    rw [first.reads fuel depth _ (by omega) room]
    change (readItems? fuel depth items.length (datas.flatten ++ rest)).bind _ = _
    rw [ih fuel depth rest (by omega) room]
    rfl

/-- There is room for an array or a map and for what it holds. -/
theorem admitted {depth : Nat} (room : depth + (height + 1) ≤ maxDepth) (few : n ≤ maxCount) :
    ¬(depth ≥ maxDepth || n > maxCount) = true := by
  simp only [Bool.or_eq_true, decide_eq_true_eq]
  omega

theorem array {datas : List Bytes} {items : List Cbor} (reads : List.Forall₂ (Reads height) datas items)
    (few : datas.length ≤ maxCount) : Reads (height + 1) (encodeArray datas) (.array items) := by
  refine ofHead (by decide) (Nat.lt_of_le_of_lt few (by decide)) fun fuel depth info rest enough room front => ?_
  have inside := readItems reads fuel (depth + 1) rest enough (by omega)
  rw [← reads.length_eq] at inside
  rw [readItem?, front]
  change (if (depth ≥ maxDepth || datas.length > maxCount) = true then _ else _) = _
  rw [if_neg (admitted room few), inside]
  rfl

end Reads

/-- The key and the value of an entry of a map, as they are written and as they are read. -/
def ReadsPair (height : Nat) (data : Bytes × Bytes) (pair : Cbor × Cbor) : Prop :=
  Reads height data.1 pair.1 ∧ Reads height data.2 pair.2

namespace ReadsPair

variable {height : Nat} {datas : List (Bytes × Bytes)} {pairs : List (Cbor × Cbor)}

/-- Keys and values in a row are items in a row, and pair up again. -/
theorem flat (reads : List.Forall₂ (ReadsPair height) datas pairs) : ∃ parts items,
    List.Forall₂ (Reads height) parts items ∧ parts.flatten = datas.flatMap (fun pair => pair.1 ++ pair.2) ∧
      items.length = 2 * datas.length ∧ pairs? items = some pairs := by
  induction reads with
  | nil => exact ⟨[], [], .nil, rfl, rfl, rfl⟩
  | @cons data pair datas pairs first _ ih =>
    obtain ⟨parts, items, list, joined, length, paired⟩ := ih
    refine ⟨data.1 :: data.2 :: parts, pair.1 :: pair.2 :: items, .cons first.1 (.cons first.2 list), ?_, ?_, ?_⟩
    · rw [List.flatten_cons, List.flatten_cons, joined, List.flatMap_cons, List.append_assoc]
    · rw [List.length_cons, List.length_cons, List.length_cons]
      omega
    · rw [pairs?, paired]
      rfl

theorem map (reads : List.Forall₂ (ReadsPair height) datas pairs) (few : datas.length ≤ maxCount) :
    Reads (height + 1) (encodeMap datas) (.map pairs) := by
  obtain ⟨parts, items, list, joined, length, paired⟩ := flat reads
  refine .ofHead (by decide) (Nat.lt_of_le_of_lt few (by decide)) fun fuel depth info rest enough room front => ?_
  have inside := Reads.readItems list fuel (depth + 1) rest (by rwa [joined]) (by omega)
  rw [joined, length] at inside
  rw [readItem?, front]
  change (if (depth ≥ maxDepth || datas.length > maxCount) = true then _ else _) = _
  rw [if_neg (Reads.admitted room few), inside]
  change (pairs? items).bind _ = _
  rw [paired]
  rfl

end ReadsPair

/-- The bytes of one item and nothing after them. -/
theorem Reads.read? {height : Nat} {data : Bytes} {item : Cbor} (reads : Reads height data item)
    (room : height ≤ maxDepth) : Cbor.read? data = some item := by
  have whole := reads.reads (2 * data.length + 2) 0 [] (by omega) (by omega)
  rw [List.append_nil] at whole
  rw [Cbor.read?, whole]

end Cbor

end LyaLang
