import LyaLang.Proofs.Binding
import LyaLang.Proofs.Storage

/-! # Code that stays in its frames

What the instructions of a compiled text refer to is there: a word that an instruction addresses belongs to one of
the frames around it, and a string is in the pool. Sizes are computed in words that wrap around, so this needs a
text whose declarations do not ask for too much.
-/

namespace LyaLang

open Ast

variable {x : Instruction} {fs : List Frame} {f : Frame}

/-! ## The pool -/

/-- A pool without repetitions keeps none, and has no more than the strings put into it. -/
theorem withTexts_spec (texts : List Bytes) (strings : Array Bytes) (distinct : strings.toList.Nodup) :
    (texts.foldl withText strings).toList.Nodup ∧ ∀ s ∈ texts.foldl withText strings, s ∈ strings ∨ s ∈ texts := by
  induction texts generalizing strings with
  | nil => exact ⟨distinct, fun s member => .inl member⟩
  | cons t rest ih =>
    have added : (withText strings t).toList.Nodup ∧ ∀ s ∈ withText strings t, s ∈ strings ∨ s = t := by
      unfold withText
      split
      · exact ⟨distinct, fun s member => .inl member⟩
      · rename_i absent
        have new : t ∉ strings := by
          intro member
          have none := Array.findIdx?_eq_none_iff.mp (Option.not_isSome_iff_eq_none.mp absent) t member
          simp at none
        refine ⟨?_, fun s member => (Array.mem_push.mp member)⟩
        rw [Array.toList_push]
        refine List.Nodup.append distinct (List.nodup_singleton t) (List.disjoint_singleton.mpr fun member => ?_)
        exact new (Array.mem_toList_iff.mp member)
    obtain ⟨nodup, among⟩ := ih _ added.1
    refine ⟨nodup, fun s member => ?_⟩
    rcases among s member with earlier | later
    · exact (added.2 s earlier).imp_right fun same => List.mem_cons.mpr (.inl same)
    · exact .inr (List.mem_cons_of_mem _ later)

/-- The strings that nodes stand for, with the end of a printed line. -/
def writtenStrings (nodes : List (Node Note)) : List Bytes :=
  "\n" :: nodes.filterMap fun n => if n.isTextual then n.note.constant.map (·.text) else none

theorem Written.mem {nodes : List (Node Note)} {s : Bytes} (written : Written nodes s) : s ∈ writtenStrings nodes := by
  rcases written with rfl | ⟨n, member, isTextual, constant⟩
  · exact List.mem_cons_self
  · refine List.mem_cons_of_mem _ (List.mem_filterMap.mpr ⟨n, member, ?_⟩)
    rw [if_pos isTextual, constant]
    rfl

/-- What stands for a string weighs two. -/
theorem two_mul_writtenStrings_le (nodes : List (Node Note)) : 2 * (writtenStrings nodes).length ≤ weigh nodes + 2 := by
  rw [writtenStrings, List.length_cons]
  induction nodes with
  | nil => exact Nat.le_refl 2
  | cons n rest ih =>
    rw [List.filterMap_cons, weigh_cons]
    by_cases isTextual : n.isTextual = true
    · have two : n.weight = 2 := by
        unfold Node.isTextual at isTextual
        split at isTextual <;> first | rfl | cases isTextual
      rw [if_pos isTextual]
      cases n.note.constant with
      | none => simp only [Option.map_none]; omega
      | some k => simp only [Option.map_some, List.length_cons]; omega
    · rw [if_neg isTextual]
      dsimp only
      omega

section

variable {source : Bytes} {p : Program Note} {code : Code}

/-- The strings of a compiled text are all different, and fewer than the machine numbers. -/
theorem Compiled.strings (compiled : Compiled source p code) (short : source.length < 2 ^ 63) :
    code.strings.toList.Nodup ∧ code.strings.size ≤ 2 ^ 63 := by
  obtain ⟨distinct, among⟩ := withTexts_spec (p.code.filterMap Draft.text) #[] List.nodup_nil
  have same : code.strings = (p.code.filterMap Draft.text).foldl withText #[] := compiled.renders.strings
  rw [← same] at distinct among
  have written : code.strings.toList ⊆ writtenStrings p.nodes := by
    intro s member
    rcases among s (Array.mem_toList_iff.mp member) with none | isText
    · cases (Array.not_mem_empty s none)
    · obtain ⟨d, isDraft, isText⟩ := List.mem_filterMap.mp isText
      obtain ⟨fs, occurs⟩ := compiled.occurs isDraft
      cases occurs with
      | ordinary ordinary =>
        have none := (Bool.and_eq_true_iff.mp ordinary).2
        rw [isText] at none
        cases none
      | string _ _ written =>
        obtain rfl := Option.some.inj isText
        exact written.mem
      | _ => cases isText
  have few := (List.subperm_of_subset distinct written).length_le
  have weight := compiled.weigh_le
  have bound := two_mul_writtenStrings_le p.nodes
  rw [Array.length_toList] at few
  exact ⟨distinct, by omega⟩

/-- The operand of an operation on a string is an index of the pool. -/
theorem Compiled.pool (compiled : Compiled source p code) (short : source.length < 2 ^ 63) (member : x ∈ code.instructions) (isPooled : x.op.usesPool = true) : 0 ≤ x.a.toInt ∧ x.a.toInt < code.strings.size := by
  obtain ⟨_, few⟩ := compiled.strings short
  rw [← Array.mem_toList_iff, compiled.renders.instructions] at member
  obtain ⟨d, isDraft, rfl⟩ := List.mem_map.mp member
  obtain ⟨fs, occurs⟩ := compiled.occurs isDraft
  cases occurs with
  | ordinary ordinary =>
    rw [Draft.Occurs.op_resolve] at isPooled
    have other := Draft.op_isOrdinary ordinary
    cases op : d.instruction.op <;> rw [op] at isPooled other <;> first | cases isPooled; done | cases other
  | @access op _ _ isAccess => cases op <;> first | cases isAccess; done | cases isPooled
  | @string op s b _ _ _ =>
    obtain ⟨i, placed⟩ := Option.isSome_iff_exists.mp (compiled.renders.texts _ isDraft s rfl)
    obtain ⟨inside, _⟩ := Array.getElem?_eq_some_iff.mp (getElem?_of_placeOf? placed)
    have index : (Draft.resolve code.pool (.pooled op s b)).a = Int64.ofNat i := by
      change code.pool s = _
      rw [Code.pool, placed]
      rfl
    rw [index, Int64.toInt_ofNat_of_lt (by omega)]
    omega
  | _ => cases isPooled

/-! ## Frames -/

/-- The frames of a program: its own, and those of its procedures. -/
def Ast.Program.allFrames (p : Program Note) : List Frame := p.mainFrame :: p.nodes.filterMap Node.frame?

theorem Compiled.fine_sized (compiled : Compiled source p code) : View.initial.Fine Symbol.Sized ∧
    AllPlaced Symbol.Sized p.nodes := by
  have fine : View.initial.Fine Symbol.Sized := by
    refine ⟨fun s member => ⟨View.good_initial s member, fun isMode m mode => ?_⟩, fun f isFunction => by cases isFunction⟩
    have plain : ∀ s ∈ predefinedSymbols, s.category = .mode →
        s.mode ∈ [some Mode.int, some .bool, some .char, some .string, some .void] := by decide +kernel
    have known := plain s member isMode
    rw [mode] at known
    simp only [List.mem_cons, Option.some.injEq, List.not_mem_nil, or_false] at known
    rcases known with rfl | rfl | rfl | rfl | rfl <;> trivial
  exact ⟨fine, compiled.sound.placed (inherited_sized _) fine⟩

/-- Whatever a frame gives out lies inside it, unless the program asks for too many words. -/
theorem Compiled.inside (compiled : Compiled source p code) (short : source.length < 2 ^ 63) (small : p.storage < 2 ^ 62) :
    ∀ f ∈ p.allFrames, ∀ a ∈ f.areas, a.Inside f.words := by
  have words := four_mul_wordsOf_le p.nodes
  have weight := compiled.weigh_le
  have few : wordsOf p.nodes < 2 ^ 63 := by
    unfold Program.storage at small
    omega
  obtain ⟨fine, placed⟩ := compiled.fine_sized
  refine List.forall_mem_cons.mpr ⟨?_, fun f member => ?_⟩
  · obtain ⟨words, W, isFrame, _, sound⟩ := compiled.sound
    have room : View.initial.Room (wordsOf (Stmt.listNodes p.stmts)) := by
      have := wordsOf_le_of_sublist (List.sublist_cons_self (.program p) (Stmt.listNodes p.stmts))
      exact ⟨by decide, by change (0) + _ < _; rw [Program.nodes] at few; omega⟩
    have takes := sound.takes fine room
    rw [Program.mainFrame, isFrame]
    exact takes.inside
  · obtain ⟨n, isNode, isFrame⟩ := List.mem_filterMap.mp member
    unfold Node.frame? at isFrame
    split at isFrame
    · rename_i note name params spec body
      obtain rfl := Option.some.inj isFrame
      obtain ⟨_, V, _, fineV, serial, q, words, W, W', rfl, _, _, header, hasWords, _, params', sound⟩ := placed _ isNode
      have within : ∀ q ∈ params, q.nodes ⊆ (Stmt.proc note name params spec body).nodes := by
        intro q member n inside
        have inside : n ∈ params.flatMap FormalParam.nodes := subset_flatMap member inside
        simp [Stmt.nodes, inside]
      have fineW := (HeaderSound.fine (inherited_sized _) (List.Subset.refl _) within fineV header params').2
      have next : W.next = 0 := by rw [params'.eq_except]; rfl
      have inner := wordsOf_le_of_sublist (((List.sublist_append_right _ _).cons _).cons _ |>.trans (p.nested.sublist isNode))
      have takes := sound.takes fineW ⟨by rw [next]; decide, by rw [next]; change 0 + _ < _; omega⟩
      rw [procedureFrame, hasWords]
      exact takes.inside
    · cases isFrame

/-- The frame of a procedure has few parameters. -/
theorem Compiled.params_lt (compiled : Compiled source p code) (short : source.length < 2 ^ 63) :
    ∀ f ∈ p.allFrames, f.params + 3 < 2 ^ 63 := by
  have weight := compiled.weigh_le
  refine List.forall_mem_cons.mpr ⟨by change 0 + 3 < _; decide, fun f member => ?_⟩
  obtain ⟨n, isNode, isFrame⟩ := List.mem_filterMap.mp member
  unfold Node.frame? at isFrame
  split at isFrame
  · obtain rfl := Option.some.inj isFrame
    have count := Stmt.two_mul_count_le.trans (Within.weigh_le (p.nested.sublist isNode))
    change FormalParam.count _ + 3 < _
    omega
  · cases isFrame

/-- The frames around the instructions of a program, from its own to that of the innermost procedure. -/
def Ast.Program.frames (p : Program Note) : List (List Frame) := p.framedCode.map Prod.fst

/-- Around an instruction is the frame of the program, then frames of procedures. -/
theorem Compiled.around (compiled : Compiled source p code) (short : source.length < 2 ^ 63) (member : fs ∈ p.frames) : fs.head? = some p.mainFrame ∧ fs.length < 2 ^ 63 ∧ ∀ f ∈ fs, f ∈ p.allFrames := by
  obtain ⟨x, isFramed, rfl⟩ := List.mem_map.mp member
  obtain ⟨inner, same, among⟩ := Program.inner_of_mem isFramed
  have among : inner.Sublist (p.nodes.filterMap Node.frame?) := among.trans ((List.sublist_cons_self _ _).filterMap _)
  have few := three_mul_frames_le p.nodes
  have weight := compiled.weigh_le
  have length := among.length_le
  rw [same]
  exact ⟨rfl, by simp only [List.length_append, List.length_singleton]; omega,
    fun f member => (List.cons_sublist_cons.mpr among).subset member⟩

/-- A word of a frame that instructions address: a variable or a hidden word that lies inside the frame with all of
its words, or an argument. -/
inductive Frame.Offers (f : Frame) (offset : Int) : Prop
  | area {a : Area} (member : a ∈ f.areas) (start : a.offset.toInt = offset) (inside : a.Inside f.words)
  | argument (low : -(f.params + 2 : Int) ≤ offset) (high : offset ≤ -3)

/-- Inside frames an instruction addresses a word of one of them. A store also addresses the result of the innermost
procedure, below its arguments. -/
def Instruction.StaysIn (fs : List Frame) (x : Instruction) : Prop :=
  ∃ (level : Nat) (f : Frame), fs[level]? = some f ∧ x.a.toInt = level ∧ (f.Offers x.b.toInt ∨
    x.op = .stv ∧ 0 < level ∧ level + 1 = fs.length ∧ x.b.toInt = -(f.params + 3 : Int))

/-- A small number of words added to the parameters of a frame. -/
theorem Frame.toInt_params_add (few : f.params + 3 < 2 ^ 63) {n : Int64} (low : 0 ≤ n.toInt) (high : n.toInt ≤ 3) :
    (Int64.ofNat f.params + n).toInt = f.params + n.toInt := by
  have params : (Int64.ofNat f.params).toInt = f.params := Int64.toInt_ofNat_of_lt (by omega)
  rw [toInt_add_of_fits (by omega) (by omega), params]

/-- The arguments of a frame are the words from below the linkage down. -/
theorem Frame.toInt_argument (few : f.params + 3 < 2 ^ 63) {position : Nat} (below : position < f.params) :
    (Int64.ofNat position - (Int64.ofNat f.params + 2)).toInt = position - (f.params + 2) := by
  have sum : (Int64.ofNat f.params + 2).toInt = f.params + 2 := f.toInt_params_add few (by decide) (by decide)
  have index : (Int64.ofNat position).toInt = position := Int64.toInt_ofNat_of_lt (by omega)
  rw [toInt_sub_of_fits (by omega) (by omega), sum, index]

theorem Frame.toInt_result (few : f.params + 3 < 2 ^ 63) :
    (-(Int64.ofNat f.params + 3)).toInt = -(f.params + 3) := by
  have sum : (Int64.ofNat f.params + 3).toInt = f.params + 3 := f.toInt_params_add few (by decide) (by decide)
  rw [Int64.toInt_neg, sum, Int.bmod_eq_of_le (by omega) (by omega)]

/-- A word that a frame holds is one that it offers, when its areas lie inside it. -/
theorem Frame.Holds.offers {offset : Int64} (holds : f.Holds offset) (few : f.params + 3 < 2 ^ 63)
    (inside : ∀ a ∈ f.areas, a.Inside f.words) : f.Offers offset.toInt := by
  cases holds with
  | area member => exact .area member rfl (inside _ member)
  | argument below =>
    rw [f.toInt_argument few below]
    exact .argument (by omega) (by omega)

/-- Words that frames reach stay in them, when frames and their parameters are few. -/
theorem Reaches.staysIn {op : Opcode} {level offset : Int64} (reaches : Reaches fs op level offset)
    (length : fs.length < 2 ^ 63) (few : ∀ f ∈ fs, f.params + 3 < 2 ^ 63)
    (inside : ∀ f ∈ fs, ∀ a ∈ f.areas, a.Inside f.words) : Instruction.StaysIn fs { op, a := level, b := offset } := by
  cases reaches with
  | held held =>
    obtain ⟨k, f, found, rfl, holds⟩ := held
    have member := List.mem_of_getElem? found
    obtain ⟨below, _⟩ := List.getElem?_eq_some_iff.mp found
    exact ⟨k, f, found, Int64.toInt_ofNat_of_lt (by omega), .inl (holds.offers (few f member) (inside f member))⟩
  | @result outer f nested innermost =>
    subst innermost
    rw [List.length_append] at length
    have few := few f (List.mem_append_right _ List.mem_cons_self)
    exact ⟨outer.length, f, List.getElem?_concat_length, Int64.toInt_ofNat_of_lt (by omega),
      .inr ⟨rfl, List.length_pos_iff.mpr nested, by rw [List.length_append, List.length_singleton], f.toInt_result few⟩⟩

namespace Draft.Occurs

variable {defined : Int64 → Prop} {nodes : List (Node Note)} {fs : List Frame} {d : Draft} (pool : Bytes → Int64)

theorem staysIn (occurs : d.Occurs defined nodes fs) (length : fs.length < 2 ^ 63) (few : ∀ f ∈ fs, f.params + 3 < 2 ^ 63)
    (inside : ∀ f ∈ fs, ∀ a ∈ f.areas, a.Inside f.words) (isAccess : (d.resolve pool).op.isAccess = true) :
    (d.resolve pool).StaysIn fs := by
  cases occurs with
  | ordinary ordinary =>
    rw [op_resolve] at isAccess
    have other := Draft.op_isOrdinary ordinary
    cases op : d.instruction.op <;> rw [op] at isAccess other <;> first | cases isAccess; done | cases other
  | access _ reaches => exact reaches.staysIn length few inside
  | @string op _ _ isPooled => cases op <;> first | cases isPooled; done | cases isAccess
  | _ => cases isAccess

/-- A procedure is entered and left at the level of the innermost frame, and removes the arguments of the frame. -/
theorem framing (occurs : d.Occurs defined nodes fs) (length : fs.length < 2 ^ 63)
    (few : ∀ f ∈ fs, f.params + 3 < 2 ^ 63) (isFraming : (d.resolve pool).op = .enf ∨ (d.resolve pool).op = .ret) :
    (d.resolve pool).a.toInt + 1 = fs.length ∧
      ((d.resolve pool).op = .ret → ∃ f, fs.getLast? = some f ∧ (d.resolve pool).b.toInt = f.params) := by
  cases occurs with
  | ordinary ordinary =>
    have other := Draft.op_isOrdinary ordinary
    rw [op_resolve] at isFraming
    rcases isFraming with isOp | isOp <;> rw [isOp] at other <;> cases other
  | access isAccess => rcases isFraming with rfl | rfl <;> cases isAccess
  | string isPooled => rcases isFraming with rfl | rfl <;> cases isPooled
  | @enter outer f innermost =>
    rw [innermost, List.length_append] at length ⊢
    have level : (Int64.ofNat outer.length).toInt = outer.length := Int64.toInt_ofNat_of_lt (by omega)
    exact ⟨congrArg (· + 1) level, fun leaves => by cases leaves⟩
  | @leave outer f innermost _ =>
    have few := few f (innermost ▸ List.mem_append_right _ List.mem_cons_self)
    rw [innermost, List.length_append] at length
    rw [innermost, List.length_append]
    have level : (Int64.ofNat outer.length).toInt = outer.length := Int64.toInt_ofNat_of_lt (by omega)
    exact ⟨congrArg (· + 1) level, fun _ => ⟨f, List.getLast?_concat, Int64.toInt_ofNat_of_lt (by omega)⟩⟩
  | _ => rcases isFraming with isOp | isOp <;> cases isOp

end Draft.Occurs

/-- Code that refers only to what is there. -/
structure Code.Confined (code : Code) (p : Program Note) : Prop where
  /-- Every instruction stands inside frames, of which the first is that of the program. -/
  framed : p.frames.length = code.instructions.size ∧ ∀ fs ∈ p.frames, fs.head? = some p.mainFrame
  /-- A procedure is entered and left at the level of its frame, and removes as many arguments as the frame has. -/
  entered : ∀ (i : Nat) (fs : List Frame) (x : Instruction), p.frames[i]? = some fs → code.instructions[i]? = some x →
    x.op = .enf ∨ x.op = .ret → x.a.toInt + 1 = fs.length ∧
      (x.op = .ret → ∃ f, fs.getLast? = some f ∧ x.b.toInt = f.params)
  /-- Accesses stay inside the frames, and off the words that link them. -/
  accessed : ∀ (i : Nat) (fs : List Frame) (x : Instruction), p.frames[i]? = some fs → code.instructions[i]? = some x →
    x.op.isAccess = true → x.StaysIn fs ∧ x.b.toInt ≠ -1 ∧ x.b.toInt ≠ -2 ∧
      (x.a = 0 → 0 ≤ x.b.toInt ∧ x.b.toInt < p.mainFrame.words.toInt)
  /-- Strings are in the pool. -/
  pooled : ∀ x ∈ code.instructions, x.op.usesPool = true → 0 ≤ x.a.toInt ∧ x.a.toInt < code.strings.size
  /-- No string is in the pool twice. -/
  distinct : code.strings.toList.Nodup

/-- An instruction that stays in frames leaves the linkage alone, and on the first level the words of the frame are
all there is. -/
theorem Instruction.StaysIn.apart {main : Frame} (stays : x.StaysIn fs)
    (outermost : fs.head? = some main) (none : main.params = 0) : x.b.toInt ≠ -1 ∧ x.b.toInt ≠ -2 ∧
      (x.a = 0 → 0 ≤ x.b.toInt ∧ x.b.toInt < main.words.toInt) := by
  obtain ⟨level, f, found, isLevel, word⟩ := stays
  have isMain : x.a = 0 → level = 0 ∧ f = main := by
    intro first
    have zero : (0 : Int64).toInt = 0 := by decide
    rw [first] at isLevel
    obtain rfl : level = 0 := by omega
    rw [← List.head?_eq_getElem?, outermost] at found
    exact ⟨rfl, (Option.some.inj found).symm⟩
  rcases word with offers | ⟨_, nested, _, result⟩
  · cases offers with
    | area member start inside =>
      obtain ⟨low, some, high⟩ := inside
      exact ⟨by omega, by omega, fun first => by obtain ⟨_, rfl⟩ := isMain first; omega⟩
    | argument low high =>
      exact ⟨by omega, by omega, fun first => by obtain ⟨_, rfl⟩ := isMain first; omega⟩
  · exact ⟨by omega, by omega, fun first => by obtain ⟨_, rfl⟩ := isMain first; omega⟩

/-- The draft behind an instruction and the frames around it. -/
theorem Compiled.framed (compiled : Compiled source p code) {i : Nat} (isFrames : p.frames[i]? = some fs) (isInstruction : code.instructions[i]? = some x) :
    ∃ d, (fs, d) ∈ p.framedCode ∧ x = d.resolve code.pool := by
  rw [Program.frames, List.getElem?_map] at isFrames
  obtain ⟨⟨_, d⟩, found, rfl⟩ := Option.map_eq_some_iff.mp isFrames
  rw [← Array.getElem?_toList, compiled.renders.instructions, ← p.map_framedCode, List.getElem?_map, List.getElem?_map,
    found] at isInstruction
  exact ⟨d, List.mem_of_getElem? found, (Option.some.inj isInstruction).symm⟩

/-- Every access of an accepted program stays inside the frames around it and off their linkage, and every string
that it uses is in its pool once, unless its declarations ask for too many words. -/
theorem accepted_program_is_confined (short : source.length < 2 ^ 63) {made : Compilation}
    (compiled : compile source = .ok made) (linked : made.result = .ok code) (small : made.tree.storage < 2 ^ 62) :
    code.Confined made.tree := by
  obtain ⟨_, known, _⟩ := compiled_of_ok compiled linked
  constructor
  · rw [Program.frames, List.length_map, ← Array.length_toList, known.renders.instructions, List.length_map,
      ← Program.map_framedCode, List.length_map]
    exact ⟨rfl, fun fs member => (known.around short member).1⟩
  · intro i fs x isFrames isInstruction
    obtain ⟨d, isFramed, rfl⟩ := known.framed isFrames isInstruction
    obtain ⟨_, length, among⟩ := known.around short (List.mem_of_getElem? isFrames)
    exact (known.framed_occurs _ isFramed).framing _ length fun f member => known.params_lt short f (among f member)
  · intro i fs x isFrames isInstruction isAccess
    obtain ⟨d, isFramed, rfl⟩ := known.framed isFrames isInstruction
    obtain ⟨outermost, length, among⟩ := known.around short (List.mem_of_getElem? isFrames)
    have stays := (known.framed_occurs _ isFramed).staysIn _ length
      (fun f member => known.params_lt short f (among f member))
      (fun f member => known.inside short small f (among f member)) isAccess
    exact ⟨stays, stays.apart outermost rfl⟩
  · exact fun x => known.pool short
  · exact (known.strings short).1

/-- A procedure inside a procedure, with arguments, a result, an array, a loop and a block, is confined. -/
theorem nested_procedures_are_confined : ∃ (made : Compilation) (code : Code),
    compile "f: proc(n int, r int loc) returns(int); dcl a array[1:9] int; g: proc(k int); do for i = 1 by n to k; a[i] = r; od; end; g(n); return a[n]; end; dcl x int; if true then dcl y int = f(3, x); print(y, \"!\"); fi;" =
      .ok made ∧ made.result = .ok code ∧ code.Confined made.tree := by
  obtain ⟨made, code, compiled, linked, small⟩ := @exists_accepted
    "f: proc(n int, r int loc) returns(int); dcl a array[1:9] int; g: proc(k int); do for i = 1 by n to k; a[i] = r; od; end; g(n); return a[n]; end; dcl x int; if true then dcl y int = f(3, x); print(y, \"!\"); fi;"
    (fun made _ => made.tree.storage < 2 ^ 62) (by decide +kernel)
  refine ⟨made, code, compiled, linked, ?_⟩
  exact accepted_program_is_confined (by decide +kernel) compiled linked (of_decide_eq_true small)

/-! ## Sizes -/

/-- The sizes of a program are as exact as words allow. -/
structure Ast.Program.SizesFit (p : Program Note) : Prop where
  /-- The size of a mode is its exact size wrapped around, so it is exact if it fits, and only then. -/
  modes : ∀ e, .modeExpr e ∈ p.nodes → ∃ m, e.note.mode = some m ∧ m.size = Int64.ofInt m.exactSize ∧
    (m.size.toInt = m.exactSize ↔ m.exactSize < 2 ^ 63) ∧ (m.size ≠ 0 → 1 ≤ m.exactSize)
  /-- What is declared has a size. -/
  declared : ∀ note decls, .stmt (.declare note decls) ∈ p.nodes → ∀ d ∈ decls,
    ∃ m, d.mode.note.mode = some m ∧ m.size ≠ 0 ∧ 1 ≤ m.exactSize
  /-- All variables lie inside their frames, if they do not ask for too many words. -/
  inside : p.storage < 2 ^ 62 → ∀ f ∈ p.allFrames, ∀ a ∈ f.areas, a.Inside f.words

/-- The sizes of a valid program are exact unless they do not fit in a word. -/
theorem sizes_are_exact_unless_they_wrap (short : source.length < 2 ^ 63) (valid : Valid source p) : p.SizesFit := by
  obtain ⟨code, _, compiled, _⟩ := valid.compile
  obtain ⟨_, placed⟩ := compiled.fine_sized
  refine ⟨fun e member => ?_, fun note decls member d inside => ?_, compiled.inside short⟩
  · obtain ⟨symbols, fine, typed⟩ := placed _ member
    obtain ⟨m, isMode, _⟩ := typed.hasMode fun s visible => (fine s visible).1
    have sized := typed.sized fine m isMode
    have nonneg := sized.exactSize_nonneg
    exact ⟨m, isMode, m.size_eq, m.toInt_size_eq_iff.trans ⟨And.right, fun high => ⟨by omega, high⟩⟩,
      sized.one_le_exactSize⟩
  · obtain ⟨frame, V, V', fine, sound⟩ := placed _ member
    obtain ⟨W, W', fineW, m, typed, isMode, some, _⟩ := (EachSound.walk fine sound fun _ _ _ _ fine sound =>
      (Declaration.Sound.placed (inherited_sized _) (List.Subset.refl _) fine sound).1).2 d inside
    exact ⟨m, isMode, some, (typed.sized fineW.symbols m isMode).one_le_exactSize some⟩

/-- The sizes of an array of strings and of blocks that follow one another are exact. -/
theorem array_of_strings_has_exact_size : ∃ (source : Bytes) (p : Program Note), Valid source p ∧ p.SizesFit ∧
    p.mainFrame = ⟨0, 37, [⟨0, 35⟩, ⟨35, 1⟩, ⟨35, 2⟩]⟩ := by
  obtain ⟨made, code, compiled, linked, frame⟩ := @exists_accepted
    "dcl a array[1:7] chars[4]; if true then dcl x int; else dcl s chars[1]; fi;"
    (fun made _ => made.tree.mainFrame == ⟨0, 37, [⟨0, 35⟩, ⟨35, 1⟩, ⟨35, 2⟩]⟩) (by decide +kernel)
  obtain ⟨valid, _⟩ := compiled_of_ok compiled linked
  exact ⟨_, _, valid, sizes_are_exact_unless_they_wrap (by decide +kernel) valid, beq_iff_eq.mp frame⟩

/-- A string that is too long for its size to fit in a word is accepted, and does not lie inside its frame. -/
theorem long_string_has_no_exact_size : ∃ (made : Compilation) (code : Code),
    compile "dcl s chars[9223372036854775807];" = .ok made ∧ made.result = .ok code ∧
      Mode.exactSize (.chars 9223372036854775807) = 2 ^ 63 ∧ Mode.size (.chars 9223372036854775807) = -9223372036854775808 ∧
      made.tree.mainFrame = ⟨0, 0, [⟨0, -9223372036854775808⟩]⟩ := by
  obtain ⟨made, code, compiled, linked, frame⟩ := @exists_accepted "dcl s chars[9223372036854775807];"
    (fun made _ => made.tree.mainFrame == ⟨0, 0, [⟨0, -9223372036854775808⟩]⟩) (by decide +kernel)
  exact ⟨made, code, compiled, linked, by decide, by decide, beq_iff_eq.mp frame⟩

end

end LyaLang
