import LyaLang.Proofs.Folding
import LyaLang.Proofs.Lexer
import LyaLang.Proofs.Machine.Local

/-! # Stored texts

A text is stored as a block of its length and its characters, cut to a capacity that counts characters. What is read
back from the block is the front of the text that was kept, until a word of the block changes.
-/

namespace LyaLang

variable {count : Nat}

namespace Text

/-- The first characters of a text. -/
def front (count : Nat) (text : Bytes) : Bytes := rawText ((glyphs text).take count)

/-- The number of characters of a text that a capacity keeps; a negative one keeps all. -/
def keptCount (text : Bytes) (capacity : Int64) : Nat :=
  if 0 ≤ capacity then min capacity.toNatClampNeg (length text) else length text

variable {text : Bytes} {capacity : Int64}

theorem keptCount_le : keptCount text capacity ≤ text.length := by
  have few : length text ≤ text.length := length_glyphsAfter 0 text
  unfold keptCount
  split <;> omega

theorem take_keptCount : (chars text).take (keptCount text capacity) =
    if capacity ≥ 0 then (chars text).take capacity.toNatClampNeg else chars text := by
  have length : length text = (chars text).length := (List.length_map _).symm
  rw [keptCount, length]
  split
  · rw [← List.take_take, List.take_length]
  · exact List.take_length

theorem length_take_keptCount : ((chars text).take (keptCount text capacity)).length = keptCount text capacity := by
  have length : (chars text).length = length text := List.length_map _
  rw [List.length_take, keptCount]
  split <;> omega

theorem chars_front (count : Nat) : chars (front count text) = (chars text).take count := by
  obtain ⟨_, _, same, _⟩ := glyphs_split (List.take_append_drop count (glyphs text)).symm
  rw [chars, front, same, List.map_take, chars]

/-- The front of a well-formed text is the encoding of its first characters. -/
theorem front_eq_encode (utf8 : isUtf8 text = true) (count : Nat) : front count text = encode ((chars text).take count) := by
  rw [front, glyphs_of_isUtf8 utf8, ← List.map_take, rawText, List.flatMap_map]
  rfl

end Text

theorem Word.toChar_ofChar (c : Char) : (Word.ofChar c).toChar = c := by
  have code := Word.number_ofChar c
  have small : c.toNat < 0x110000 := by
    have := c.valid
    change c.toNat < _ ∨ _ < c.toNat ∧ c.toNat < _ at this
    omega
  have same : (Word.ofChar c).toInt.toInt32.toInt = c.toNat := by
    change (Word.ofChar c).number.toInt32.toInt = _
    rw [Int64.toInt_toInt32, code]
    exact Int.bmod_eq_of_le (by omega) (by omega)
  rw [Word.toChar, same, Text.charOfInt, if_pos (Int.natCast_nonneg _)]
  rw [Int.toNat_natCast, if_pos (show c.toNat.isValidChar from c.valid), Char.ofNat_toNat]

open Text

variable {text : Bytes} {addr capacity : Int64}

theorem storedWords_eq : storedWords text capacity =
    .int (Int64.ofNat (keptCount text capacity)) :: ((chars text).take (keptCount text capacity)).map Word.ofChar := by
  unfold storedWords
  rw [← take_keptCount]
  dsimp only
  rw [length_take_keptCount]

theorem length_storedWords : (storedWords text capacity).length = keptCount text capacity + 1 := by
  rw [storedWords_eq, List.length_cons, List.length_map, length_take_keptCount]

/-- What is kept of a text is kept whole. -/
theorem storedWords_front : storedWords (front (keptCount text capacity) text) capacity = storedWords text capacity := by
  unfold storedWords
  rw [chars_front, take_keptCount]
  split
  · rw [List.take_take, Nat.min_self]
  · rfl

namespace Machine

variable {m m' n : Machine}

/-- Two machines have the same words in a block of as many. -/
def SameWords (m n : Machine) (addr : Int64) (count : Nat) : Prop :=
  n.memory.size = m.memory.size ∧
    ∀ j, addr.toNatClampNeg ≤ j → j < addr.toNatClampNeg + count → n.memory[j]? = m.memory[j]?

theorem words_eq_take (inside : m.Encloses addr count) (fits : m.memory.size < 2 ^ 63) :
    m.words addr (Int64.ofNat count) = (m.memory.toList.drop addr.toNatClampNeg).take count := by
  rw [words, Array.toList_extract, (inside.toNatClampNeg_add fits).2, List.extract_eq_take_drop, Nat.add_sub_cancel_left]

theorem SameWords.words_eq (same : m.SameWords n addr count) (inside : m.Encloses addr count)
    (fits : m.memory.size < 2 ^ 63) : n.words addr (Int64.ofNat count) = m.words addr (Int64.ofNat count) := by
  obtain ⟨size, words⟩ := same
  have inside' : n.Encloses addr count := ⟨inside.1, size ▸ inside.2⟩
  rw [words_eq_take inside fits, words_eq_take inside' (size ▸ fits)]
  refine List.ext_getElem? fun j => ?_
  simp only [List.getElem?_take, List.getElem?_drop, Array.getElem?_toList]
  split
  · exact words _ (by omega) (by omega)
  · rfl

/-- The words of a block are the first one and those of the block behind it. -/
theorem words_succ (inside : m.Encloses addr (count + 1)) (fits : m.memory.size < 2 ^ 63) :
    m.Encloses (addr + 1) count ∧
      m.words addr (Int64.ofNat (count + 1)) = m.word addr :: m.words (addr + 1) (Int64.ofNat count) := by
  have first : m.Encloses addr 1 := ⟨inside.1, by have := inside.2; omega⟩
  obtain ⟨sum, next⟩ : (addr + 1).toInt = _ ∧ (addr + 1).toNatClampNeg = _ := first.toNatClampNeg_add fits
  have behind : m.Encloses (addr + 1) count := by
    refine ⟨?_, by have := inside.2; omega⟩
    rw [Int64.le_iff_toInt_le, sum]
    exact Int.natCast_nonneg _
  have here : addr.toNatClampNeg < m.memory.toList.length := by
    rw [Array.length_toList]
    have := first.2
    omega
  refine ⟨behind, ?_⟩
  rw [words_eq_take inside fits, words_eq_take behind fits, next, List.drop_eq_getElem_cons here, word,
    if_neg (Int64.not_lt.mpr inside.1), Array.getD_eq_getD_getElem?, Array.getElem?_eq_getElem here]
  rfl

/-- A word that refers to an address reads as a text. -/
def HoldsText (m : Machine) (addr : Int64) (text : Bytes) : Prop :=
  ∀ image (w : Word), w.kind ≠ .text → w.number = addr → Exec.string image w m = .ok text m

/-- A block of a length and characters reads as their text. -/
theorem holdsText_of_words (fits : m.memory.size < 2 ^ 63) {cs : List Char} (inside : m.Encloses addr (cs.length + 1))
    (block : m.words addr (Int64.ofNat (cs.length + 1)) = .int (Int64.ofNat cs.length) :: cs.map Word.ofChar) :
    m.HoldsText addr (encode cs) := by
  rintro image w number rfl
  obtain ⟨behind, split⟩ := words_succ inside fits
  obtain ⟨length, characters⟩ := List.cons.inj (split.symm.trans block)
  have count : (m.word w.number).toInt = Int64.ofNat cs.length := by
    rw [length]
    rfl
  obtain ⟨passes, ends⟩ := behind.passes fits
  have within : w.number < m.size := by
    rw [Int64.lt_iff_toInt_lt, toInt_size fits, Int64.toInt_eq_toNatClampNeg inside.1]
    have := inside.2
    omega
  have kind : (w.kind == .text) = false := beq_eq_false_iff_ne.mpr number
  have same : (Word.toChar ∘ Word.ofChar) = id := funext Word.toChar_ofChar
  rw [Exec.string_eq fits, readText, kind, if_neg Bool.false_ne_true, if_neg (Int64.not_lt.mpr inside.1), if_pos within, count,
    if_pos passes, if_neg ends, characters, List.map_map, same, List.map_id]

/-- A text that was stored lies inside memory. -/
theorem stored_inside (fits : m.memory.size < 2 ^ 63) (short : text.length < 2 ^ 63)
    (stored : Exec.writeString addr text capacity m = .ok () m') :
    m.Encloses addr (storedWords text capacity).length ∧ m' = m.putAll addr (storedWords text capacity) := by
  have few : keptCount text capacity ≤ text.length := keptCount_le
  rw [Exec.writeString_eq] at stored
  split at stored
  · rename_i passes
    split at stored
    · cases stored
    · rename_i ends
      cases stored
      refine ⟨?_, rfl⟩
      obtain ⟨low, nonneg, high⟩ := passes
      have less : (storedWords text capacity).length < 2 ^ 63 := by
        by_contra long
        have same : (storedWords text capacity).length = 2 ^ 63 := by
          rw [length_storedWords] at long ⊢
          omega
        rw [same] at nonneg
        revert nonneg
        decide
      have counted := Int64.toInt_ofNat_of_lt less
      have start := Int64.toInt_eq_toNatClampNeg low
      rw [add_lt_self_iff nonneg] at ends
      rw [Int64.le_iff_toInt_le, toInt_size fits, toInt_add_of_fits (by omega) (by omega)] at high
      exact ⟨low, by omega⟩
  · cases stored

/-- Words stored twice are stored once. -/
theorem putAll_putAll {ws : List Word} (inside : m.Encloses addr ws.length) :
    (m.putAll addr ws).putAll addr ws = m.putAll addr ws := by
  have inside' : addr.toNatClampNeg + ws.length ≤ (Exec.overwrite addr.toNatClampNeg ws m.memory).size := by
    rw [Exec.size_overwrite]
    exact inside.2
  have start : min addr.toNatClampNeg m.memory.size = addr.toNatClampNeg := by
    have := inside.2
    omega
  have same : Exec.overwrite addr.toNatClampNeg ws (Exec.overwrite addr.toNatClampNeg ws m.memory) =
      Exec.overwrite addr.toNatClampNeg ws m.memory := by
    apply Array.toList_inj.mp
    rw [toList_overwrite inside', toList_overwrite inside.2]
    simp [List.drop_append, start]
  exact congrArg (fun memory => { m with memory }) same

theorem getElem?_putAll {ws : List Word} (inside : m.Encloses addr ws.length) {j : Nat}
    (outside : j < addr.toNatClampNeg ∨ addr.toNatClampNeg + ws.length ≤ j) :
    (m.putAll addr ws).memory[j]? = m.memory[j]? := by
  have start : min addr.toNatClampNeg m.memory.size = addr.toNatClampNeg := by
    have := inside.2
    omega
  rw [← Array.getElem?_toList, ← Array.getElem?_toList, putAll, toList_overwrite inside.2]
  rcases outside with before | behind
  · rw [List.getElem?_append_left (by simp [start, before]), List.getElem?_take_of_lt before]
  · rw [List.getElem?_append_right (by simp; omega), List.getElem?_append_right (by simp; omega), List.getElem?_drop]
    congr 1
    simp [start]
    omega

/-- What storing a text comes to: the block reads as the front of the text that the capacity keeps, on every machine with
the same words there; no other word and nothing else changes; and storing what was read changes nothing. -/
structure KeepsText (m : Machine) (addr : Int64) (text : Bytes) (capacity : Int64) (m' : Machine) : Prop where
  read : ∀ n, m'.SameWords n addr (keptCount text capacity + 1) → n.HoldsText addr (front (keptCount text capacity) text)
  frame : m' = { m with memory := m'.memory } ∧ m'.memory.size = m.memory.size ∧
    ∀ j, j < addr.toNatClampNeg ∨ addr.toNatClampNeg + keptCount text capacity < j → m'.memory[j]? = m.memory[j]?
  again : Exec.writeString addr (front (keptCount text capacity) text) capacity m' = .ok () m'

theorem keepsText (fits : m.memory.size < 2 ^ 63) (utf8 : isUtf8 text = true) (short : text.length < 2 ^ 63)
    (stored : Exec.writeString addr text capacity m = .ok () m') : m.KeepsText addr text capacity m' := by
  obtain ⟨inside, rfl⟩ := stored_inside fits short stored
  have size : (m.putAll addr (storedWords text capacity)).memory.size = m.memory.size := Exec.size_overwrite _ _ _
  have inside' : (m.putAll addr (storedWords text capacity)).Encloses addr (storedWords text capacity).length :=
    ⟨inside.1, size ▸ inside.2⟩
  refine ⟨fun n same => ?_, ⟨rfl, size, fun j outside => ?_⟩, ?_⟩
  · rw [← length_storedWords] at same
    have block := (same.words_eq inside' (size ▸ fits)).trans (words_putAll inside fits)
    rw [length_storedWords, storedWords_eq] at block
    have enclosed : n.Encloses addr (keptCount text capacity + 1) := by
      rw [← length_storedWords]
      exact ⟨inside.1, same.1 ▸ inside'.2⟩
    rw [front_eq_encode utf8]
    refine holdsText_of_words (same.1 ▸ size ▸ fits) ?_ ?_
    · rw [length_take_keptCount]
      exact enclosed
    · rw [length_take_keptCount]
      exact block
  · refine getElem?_putAll inside ?_
    rw [length_storedWords]
    omega
  · rw [writeString_of_encloses (size ▸ fits) (storedWords_front ▸ inside'), storedWords_front, putAll_putAll inside]

end Machine

namespace Exec

/-- The instructions that store a text: its address, the text, the capacity, and the machine before it is stored. -/
inductive Stores (image : Image) (i : Instruction) (m : Machine) : Int64 → Bytes → Int64 → Machine → Prop where
  | constant {s : Bytes} {w : Word} {m₀ : Machine} (isOp : i.op = .sts) (pooled : image.text? i.a = some s)
    (address : pop m = .ok w m₀) : Stores image i m w.toInt s i.b m₀
  | copy {ref w : Word} {s : Bytes} {m₁ m₂ m₀ : Machine} (isOp : i.op = .scp) (reference : pop m = .ok ref m₁)
    (address : pop m₁ = .ok w m₂) (read : string image ref m₂ = .ok s m₀) : Stores image i m w.toInt s i.a m₀
  | input {w : Word} {s : Bytes} {m₁ m₀ : Machine} (isOp : i.op = .rds) (address : pop m = .ok w m₁)
    (line : readLine m₁ = .ok s m₀) : Stores image i m w.toInt s i.a m₀

theorem stores_of_step {image : Image} {i : Instruction} {pc : Int64} {m m' : Machine} {next : Option Int64}
    (stores : i.op = .sts ∨ i.op = .scp ∨ i.op = .rds) (ran : step image pc i m = .ok next m') :
    ∃ addr s capacity m₀, Stores image i m addr s capacity m₀ ∧ writeString addr s capacity m₀ = .ok () m' := by
  have plain : plain image i m = .ok () m' := by
    rcases stores with isOp | isOp | isOp <;> simp only [step, isOp] at ran <;>
      obtain ⟨_, _, ran, ends⟩ := bind_eq_ok.mp ran <;> cases ends <;> exact ran
  rcases stores with isOp | isOp | isOp <;> simp only [Exec.plain, isOp] at plain
  · obtain ⟨s, _, found, rest⟩ := bind_eq_ok.mp plain
    rw [pooled_eq] at found
    split at found
    · cases found
      obtain ⟨w, m₀, address, writes⟩ := bind_eq_ok.mp rest
      exact ⟨_, _, _, m₀, .constant isOp ‹_› address, writes⟩
    · cases found
  · obtain ⟨ref, m₁, reference, plain⟩ := bind_eq_ok.mp plain
    obtain ⟨w, m₂, address, plain⟩ := bind_eq_ok.mp plain
    obtain ⟨s, m₀, read, plain⟩ := bind_eq_ok.mp plain
    exact ⟨_, _, _, m₀, .copy isOp reference address read, plain⟩
  · obtain ⟨w, m₁, address, plain⟩ := bind_eq_ok.mp plain
    obtain ⟨s, m₀, line, plain⟩ := bind_eq_ok.mp plain
    exact ⟨_, _, _, m₀, .input isOp address line, plain⟩

end Exec

/-- A text that is stored is read back, cut to the capacity, until a word of its block changes: whenever storing succeeds,
and in particular after each instruction that stores a text. -/
theorem stored_text_is_read_back {m : Machine} (fits : m.memory.size < 2 ^ 63) :
    (∀ addr text capacity m', isUtf8 text = true → text.length < 2 ^ 63 →
      Exec.writeString addr text capacity m = .ok () m' → m.KeepsText addr text capacity m') ∧
    ∀ image pc (i : Instruction) next m', i.op = .sts ∨ i.op = .scp ∨ i.op = .rds →
      Exec.step image pc i m = .ok next m' → ∃ addr text capacity m₀, Exec.Stores image i m addr text capacity m₀ ∧
        (isUtf8 text = true → text.length < 2 ^ 63 → m₀.KeepsText addr text capacity m') := by
  refine ⟨fun addr text capacity m' utf8 short stored => Machine.keepsText fits utf8 short stored,
    fun image pc i next m' stores ran => ?_⟩
  obtain ⟨addr, text, capacity, m₀, stored, writes⟩ := Exec.stores_of_step stores ran
  have kept := (Exec.Local.step image pc i).keeps m
  have locally : Exec.Local (fun _ => True) (Exec.writeString addr text capacity) := .writeString addr text capacity
  have kept' := locally.keeps m₀
  rw [ran] at kept
  rw [writes] at kept'
  have size : m₀.memory.size = m.memory.size := kept'.size.symm.trans kept.size
  exact ⟨addr, text, capacity, m₀, stored, fun utf8 short => Machine.keepsText (size ▸ fits) utf8 short writes⟩

/-- A text with a character of each size, cut behind the third. -/
theorem cut_text_is_read_back : ∃ m', Exec.writeString 1 "aé€𝄞" 3 (Machine.create 6 []) = .ok () m' ∧
    Exec.string ⟨#[], [], #[]⟩ (.int 1) m' = .ok "aé€" m' ∧ m'.memory[5]? = some ({} : Word) := by
  have writes : ∃ m', Exec.writeString 1 "aé€𝄞" 3 (Machine.create 6 []) = .ok () m' := ⟨_, rfl⟩
  obtain ⟨m', stored⟩ := writes
  obtain ⟨reads, ⟨_, _, frame⟩, _⟩ :=
    (stored_text_is_read_back (by decide)).1 1 "aé€𝄞" 3 m' (by decide) (by decide) stored
  exact ⟨m', stored, reads m' ⟨rfl, fun _ _ _ => rfl⟩ _ _ (by decide) rfl, frame 5 (by decide)⟩

end LyaLang
