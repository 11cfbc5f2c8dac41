import LyaLang.Proofs.Check.Words

/-! # The operand stack of compiled programs

Every position of a compiled program has a height, the number of operand words above the frame there. An
instruction finds the words it takes, control that goes on or jumps finds the height that the instruction
leaves, and a frame is opened and closed with nothing above it. Values and addresses add one word, and
statements leave the height as it was.
-/

namespace LyaLang

open Ast

variable {h h' x y : Int} {hs : List Int} {d : Draft} {ds : List Draft} {before after : Option Opcode} {k : Piece}

/-! ## Instructions at heights -/

/-- Whether an operation opens or closes a frame where it stands: the words of a frame are taken at the start of
the program or of a procedure, and given back before it ends. -/
def Opcode.movesFrame (before : Option Opcode) (op : Opcode) (after : Option Opcode) : Bool :=
  match op with
  | .enf | .ret | .stp => true
  | .alc => before == none || before == some .enf
  | .dlc => after == some .ret || after == some .stp
  | _ => false

/-- An instruction between its neighbours stands at a height and leaves another. -/
structure Instruction.Leveled (labels arity : Int64 → Int) (before : Option Opcode) (i : Instruction)
    (after : Option Opcode) (x y : Int) : Prop where
  framed : i.op.movesFrame before after = true → x = 0 ∧ (i.op ≠ .ret → i.op ≠ .stp → y = 0)
  enough : i.op.movesFrame before after = false → i.pops arity ≤ x
  next : i.op.movesFrame before after = false → i.op ≠ .jmp → y = x + i.effect arity
  label : i.op = .lbl → labels i.a = x
  jump : i.op = .jmp ∨ i.op = .jof → labels i.a = x + i.effect arity

/-- Drafts behind an operation stand at heights, with one more height after the last. -/
def Leveled (labels arity : Int64 → Int) : Option Opcode → List Draft → List Int → Prop
  | _, [], _ => True
  | before, d :: rest, x :: y :: hs =>
    d.instruction.Leveled labels arity before (rest.head?.map (·.instruction.op)) x y ∧
      Leveled labels arity (some d.instruction.op) rest (y :: hs)
  | _, _ :: _, _ => False

variable {labels arity : Int64 → Int}

/-- The heights of a stretch of code start with the one it is reached at. -/
theorem Rises.head_eq {ss : List Segment} (rises : Rises labels arity h ss hs h')
    (more : List Int) : ∃ later, hs ++ h' :: more = h :: later := by
  induction rises generalizing more with
  | nil h => exact ⟨more, rfl⟩
  | part _ _ ih ih' =>
    obtain ⟨later, same⟩ := ih' more
    obtain ⟨first, isFirst⟩ := ih later
    rw [List.append_assoc, same]
    exact ⟨first, isFirst⟩
  | _ => exact ⟨_, rfl⟩

theorem ne_of_flat {op flow : Opcode} (flat : op.isFlow = false) (isFlow : flow.isFlow = true) : op ≠ flow := by
  rintro rfl
  cases flat.symm.trans isFlow

/-- What follows an instruction inside a stretch of code neither leaves a procedure nor the program. -/
theorem Rises.follows {ss : List Segment} {back : List Draft} (rises : Rises labels arity h ss hs h')
    (behind : ∀ d ∈ back.head?, d.instruction.op ≠ .ret ∧ d.instruction.op ≠ .stp) :
    ∀ d ∈ (codeOf ss ++ back).head?, d.instruction.op ≠ .ret ∧ d.instruction.op ≠ .stp := by
  induction rises generalizing back with
  | nil => exact behind
  | part _ _ ih ih' =>
    rw [codeOf_part, ← Piece.codeOf_segments, List.append_assoc]
    exact ih (ih' behind)
  | plain flat _ _ =>
    rintro d ⟨⟩
    exact ⟨ne_of_flat flat rfl, ne_of_flat flat rfl⟩
  | _ =>
    rintro d ⟨⟩
    exact ⟨nofun, nofun⟩

/-- Inside a stretch of code, frames are not moved by instructions that stand alone. -/
theorem Opcode.movesFrame_eq_false {op before : Opcode} (flat : op ≠ .enf ∧ op ≠ .ret ∧ op ≠ .stp) (other : before ≠ .enf)
    {rest : List Draft} (follows : ∀ d ∈ rest.head?, d.instruction.op ≠ .ret ∧ d.instruction.op ≠ .stp) :
    op.movesFrame (some before) (rest.head?.map (·.instruction.op)) = false := by
  unfold Opcode.movesFrame
  cases op with
  | enf => exact (flat.1 rfl).elim
  | ret => exact (flat.2.1 rfl).elim
  | stp => exact (flat.2.2 rfl).elim
  | alc => simp [other]
  | dlc =>
    cases first : rest.head? with
    | none => rfl
    | some d => simp [follows d first]
  | _ => rfl

/-- One more instruction in front of leveled code. -/
theorem Leveled.cons {rest : List Draft} {later : List Int}
    (same : hs = y :: later)
    (here : d.instruction.Leveled labels arity before (rest.head?.map (·.instruction.op)) x y)
    (tail : Leveled labels arity (some d.instruction.op) rest hs) : Leveled labels arity before (d :: rest) (x :: hs) := by
  subst same
  exact ⟨here, tail⟩

/-- An instruction that moves no frame is leveled by its operands and its effect. -/
theorem Instruction.Leveled.of_still {i : Instruction} (still : i.op.movesFrame before after = false) (enough : i.pops arity ≤ x)
    (next : i.op ≠ .jmp → y = x + i.effect arity) (label : i.op = .lbl → labels i.a = x)
    (jump : i.op = .jmp ∨ i.op = .jof → labels i.a = x + i.effect arity) : i.Leveled labels arity before after x y where
  framed moves := by cases still.symm.trans moves
  enough _ := enough
  next _ := next
  label := label
  jump := jump

/-- An instruction that moves a frame is leveled with nothing above the frame. -/
theorem Instruction.Leveled.of_moves {i : Instruction} (moves : i.op.movesFrame before after = true) (next : i.op ≠ .ret → i.op ≠ .stp → y = 0) :
    i.Leveled labels arity before after 0 y where
  framed _ := ⟨rfl, next⟩
  enough still := by cases moves.symm.trans still
  next still := by cases moves.symm.trans still
  label isLabel := by
    rw [isLabel] at moves
    cases moves
  jump jumps := by
    rcases jumps with jumps | jumps <;>
    · rw [jumps] at moves
      cases moves

/-- A stretch of code is leveled in front of code that is. -/
theorem Rises.leveled {ss : List Segment} {back : List Draft} {more : List Int} {before : Opcode}
    (rises : Rises labels arity h ss hs h') (other : before ≠ .enf)
    (behind : ∀ d ∈ back.head?, d.instruction.op ≠ .ret ∧ d.instruction.op ≠ .stp)
    (rest : ∀ before, before ≠ .enf → Leveled labels arity (some before) back (h' :: more)) :
    Leveled labels arity (some before) (codeOf ss ++ back) (hs ++ h' :: more) := by
  induction rises generalizing before back more with
  | nil => exact rest before other
  | plain flat enough next ih =>
    obtain ⟨later, same⟩ := next.head_eq more
    have alone := ne_of_flat flat (rfl : Opcode.enf.isFlow = true)
    have still := Opcode.movesFrame_eq_false ⟨alone, ne_of_flat flat rfl, ne_of_flat flat rfl⟩ other (next.follows behind)
    refine .cons same (.of_still still enough (fun _ => rfl) (fun isLabel => (ne_of_flat flat rfl isLabel).elim) ?_)
      (ih alone behind rest)
    exact fun jumps => (jumps.elim (ne_of_flat flat rfl) (ne_of_flat flat rfl)).elim
  | label nonneg agrees next ih =>
    obtain ⟨later, same⟩ := next.head_eq more
    refine .cons same (.of_still rfl nonneg (fun _ => (Int.add_zero _).symm) (fun _ => agrees) ?_) (ih nofun behind rest)
    rintro (jumps | jumps) <;> cases jumps
  | branch enough agrees next ih =>
    obtain ⟨later, same⟩ := next.head_eq more
    exact .cons same (.of_still rfl enough (fun _ => rfl) nofun (fun _ => agrees)) (ih nofun behind rest)
  | jump nonneg agrees next ih =>
    obtain ⟨later, same⟩ := next.head_eq more
    refine .cons same (.of_still rfl nonneg (fun other => (other rfl).elim) nofun fun _ => ?_) (ih nofun behind rest)
    exact agrees.trans (Int.add_zero _).symm
  | enter next ih =>
    obtain ⟨later, same⟩ := next.head_eq more
    exact .cons rfl (.of_moves rfl fun _ _ => rfl) (.cons same (.of_moves rfl fun _ _ => rfl) (ih nofun behind rest))
  | leave next ih =>
    obtain ⟨later, same⟩ := next.head_eq more
    exact .cons rfl (.of_moves rfl fun _ _ => rfl)
      (.cons same (.of_moves rfl fun other => (other rfl).elim) (ih nofun behind rest))
  | part _ next ih ih' =>
    obtain ⟨later, same⟩ := next.head_eq more
    rw [codeOf_part, ← Piece.codeOf_segments, List.append_assoc, List.append_assoc, same]
    exact ih other (next.follows behind) fun before other => same ▸ ih' other behind rest

/-- The instruction at a position of leveled code. -/
theorem Leveled.at (leveled : Leveled labels arity before ds hs)
    {i : Nat} (found : ds[i]? = some d) :
    d.instruction.Leveled labels arity (if i = 0 then before else ds[i - 1]?.map (·.instruction.op))
      (ds[i + 1]?.map (·.instruction.op)) (hs.getD i 0) (hs.getD (i + 1) 0) := by
  induction ds generalizing before hs i with
  | nil => cases found
  | cons e rest ih =>
    cases hs with
    | nil => exact leveled.elim
    | cons x hs =>
      cases hs with
      | nil => exact leveled.elim
      | cons y hs =>
        obtain ⟨here, tail⟩ := leveled
        cases i with
        | zero =>
          obtain rfl := Option.some.inj found
          rw [List.head?_eq_getElem?] at here
          exact here
        | succ i =>
          have there := ih tail found
          cases i with
          | zero => exact there
          | succ i => exact there

/-! ## Positions of pieces -/

section

variable {p : Program Note} {hs : List Int}

variable {i : Nat}

/-- A piece has its code at its position. -/
theorem Emitted.code_eq (emitted : Emitted p i k) :
    ∃ front back, p.code = front ++ (k.code ++ back) ∧ front.length = i := by
  induction emitted with
  | @stmt front s back split =>
    have parts : Stmt.listCode (front ++ s :: back) = Stmt.listCode front ++ (s.code ++ Stmt.listCode back) := by
      rw [← codeOf_bodySegments, bodySegments, List.map_append, List.map_cons, codeOf_append, codeOf_part, ← bodySegments,
        ← bodySegments, codeOf_bodySegments, codeOf_bodySegments]
      rfl
    refine ⟨.op1 .alc (p.note.frame.getD 0) :: Stmt.listCode front,
      Stmt.listCode back ++ [.op1 .dlc (p.note.frame.getD 0), .op .stp], ?_, rfl⟩
    rw [Program.code, split, parts]
    simp [Piece.code]
  | @part i k k' front back outer split ih =>
    obtain ⟨before, after, same, length⟩ := ih
    refine ⟨before ++ codeOf front, codeOf back ++ after, ?_, by rw [List.length_append, length]⟩
    rw [same, ← Piece.codeOf_segments, split]
    simp

/-- The heights of a program whose statements have heights. -/
def programHeights (hs : List Int) : List Int := 0 :: (hs ++ [0, 0, 0])

/-- A piece stands at a height and leaves the height that it rises to. -/
theorem Emitted.rises (emitted : Emitted p i k)
    (rises : Rises labels arity 0 (bodySegments p.stmts) hs 0) :
    ∃ j before inner after, programHeights hs = before ++ (inner ++ (j + k.rise) :: after) ∧ before.length = i ∧
      Rises labels arity j k.segments inner (j + k.rise) := by
  induction emitted with
  | @stmt front s back split =>
    rw [split, bodySegments, List.map_append] at rises
    obtain ⟨j, before, inner, after, same, length, here, next⟩ := rises.at_part
    obtain ⟨later, isLater⟩ := next.head_eq [0, 0]
    refine ⟨j, 0 :: before, inner, later, ?_, ?_, here⟩
    · rw [programHeights, same, ← isLater]
      simp
    · rw [List.length_cons, length, ← bodySegments, codeOf_bodySegments]
  | @part i k k' front back outer split ih =>
    obtain ⟨j, before, inner, after, same, length, here⟩ := ih
    rw [split] at here
    obtain ⟨j', before', inner', after', isInner, length', there, next⟩ := here.at_part
    obtain ⟨later, isLater⟩ := next.head_eq after
    refine ⟨j', before ++ before', inner', later, ?_, by rw [List.length_append, length, length'], there⟩
    rw [same, isInner, ← isLater]
    simp

/-- The heights in front of a piece and behind it. -/
theorem Emitted.height_eq (emitted : Emitted p i k)
    (rises : Rises labels arity 0 (bodySegments p.stmts) hs 0) :
    (programHeights hs).getD (i + k.code.length) 0 = (programHeights hs).getD i 0 + k.rise := by
  obtain ⟨j, before, inner, after, same, rfl, here⟩ := emitted.rises rises
  obtain ⟨later, isLater⟩ := here.head_eq after
  have length : inner.length = k.code.length := by rw [here.length_eq, Piece.codeOf_segments]
  have first : (before ++ (inner ++ (j + k.rise) :: after)).getD before.length 0 = j := by
    rw [isLater]
    simp
  have last : (before ++ (inner ++ (j + k.rise) :: after)).getD (before.length + k.code.length) 0 = j + k.rise := by
    simp [← length]
  rw [same, first, last]

/-- A program is leveled if its statements rise. -/
theorem Rises.leveled_program (rises : Rises labels arity 0 (bodySegments p.stmts) hs 0) :
    Leveled labels arity none p.code (programHeights hs) := by
  have ends : ∀ before : Opcode, before ≠ .enf → Leveled labels arity (some before)
      [.op1 .dlc (p.note.frame.getD 0), .op .stp] (0 :: [0, 0]) :=
    fun _ _ => ⟨.of_moves rfl fun _ _ => rfl, .of_moves rfl fun _ other => (other rfl).elim, trivial⟩
  have leaves : ∀ d ∈ [Draft.op1 .dlc (p.note.frame.getD 0), .op .stp].head?,
      d.instruction.op ≠ .ret ∧ d.instruction.op ≠ .stp := by
    intro d isFirst
    obtain rfl := Option.some.inj isFirst
    exact ⟨nofun, nofun⟩
  obtain ⟨later, same⟩ := rises.head_eq [0, 0]
  have rest : Leveled labels arity (some .alc) _ _ := rises.leveled nofun leaves ends
  rw [codeOf_bodySegments] at rest
  exact .cons same (.of_moves rfl fun _ _ => rfl) rest

end

/-! ## Compiled programs -/

/-- The operation at a position. -/
def Code.opAt? (c : Code) (i : Nat) : Option Opcode := c.instructions[i]?.map (·.op)

/-- Whether an instruction at a position opens or closes a frame. -/
def Code.movesFrame (c : Code) (i : Nat) (x : Instruction) : Bool :=
  x.op.movesFrame (if i = 0 then none else c.opAt? (i - 1)) (c.opAt? (i + 1))

/-- Heights of the operand stack above the frame, one for each position of a program. -/
structure Code.Balanced (c : Code) (table : LabelTable) (arity : Int64 → Int) (height : Nat → Int) : Prop where
  /-- An instruction finds the words it takes. -/
  enough : ∀ i x, c.instructions[i]? = some x → c.movesFrame i x = false → x.pops arity ≤ height i
  /-- Control that goes on finds the height that the instruction leaves. -/
  next : ∀ i x, c.instructions[i]? = some x → c.movesFrame i x = false → x.op ≠ .jmp →
    height (i + 1) = height i + x.effect arity
  /-- Control that jumps finds it at the label. -/
  jump : ∀ i x, c.instructions[i]? = some x → x.op = .jmp ∨ x.op = .jof →
    ∃ k, table.get? x.a = some k ∧ height k = height i + x.effect arity
  /-- A frame is opened and closed with nothing above it. -/
  framed : ∀ i x, c.instructions[i]? = some x → c.movesFrame i x = true →
    height i = 0 ∧ (x.op ≠ .ret → x.op ≠ .stp → height (i + 1) = 0)

/-- A program has the code of a draft at a position. -/
def Code.Holds (c : Code) (i : Nat) (drafts : List Draft) : Prop :=
  (c.instructions.toList.drop i).take drafts.length = drafts.map (·.resolve c.pool)

/-- Heights for the code of a tree. -/
structure Ast.Program.Balanced (p : Program Note) (c : Code) (table : LabelTable) (height : Nat → Int) : Prop where
  /-- A call counts for as many words as the procedure has arguments. -/
  calls : ∀ note name params spec body, .stmt (.proc note name params spec body) ∈ p.nodes →
    p.arity note.firstLabel = FormalParam.count params
  code : c.Balanced table p.arity height
  /-- A value or an address adds a word, and a statement leaves the height as it was. -/
  pieces : ∀ i k, Emitted p i k → c.Holds i k.code ∧ height (i + k.code.length) = height i + k.rise
  /-- The program gives back the words that it took for its frame. -/
  frame : ∃ words, c.instructions[0]? = some { op := .alc, a := words } ∧
    c.instructions[c.instructions.size - 2]? = some { op := .dlc, a := words } ∧
    c.opAt? (c.instructions.size - 1) = some .stp
  /-- A procedure gives back the words that it took for its frame. -/
  frames : ∀ i note name params spec body q, Emitted p i (.stmt (.proc note name params spec body)) →
    note.symbol.bind (·.proc) = some q → ∃ words last, last = i + (Stmt.proc note name params spec body).code.length - 3 ∧
      c.instructions[i + 3]? = some { op := .alc, a := words } ∧
      c.instructions[last]? = some { op := .dlc, a := words } ∧ c.opAt? (last + 1) = some .ret

namespace Compiled

variable {source : Bytes} {p : Program Note} {code : Code}

/-- The instruction at a position is that of the draft there. -/
theorem getElem? (compiled : Compiled source p code) (i : Nat) :
    code.instructions[i]? = p.code[i]?.map (·.resolve code.pool) := by
  rw [← Array.getElem?_toList, compiled.renders.instructions, List.getElem?_map]

theorem opAt? (compiled : Compiled source p code) (i : Nat) :
    code.opAt? i = p.code[i]?.map (·.instruction.op) := by
  rw [Code.opAt?, compiled.getElem?, Option.map_map]
  congr 1
  funext d
  exact Draft.Occurs.op_resolve d code.pool

/-- A piece stands in the program where it is emitted. -/
theorem holds (compiled : Compiled source p code) {i : Nat} (emitted : Emitted p i k) : code.Holds i k.code := by
  obtain ⟨front, back, same, rfl⟩ := emitted.code_eq
  rw [Code.Holds, compiled.renders.instructions, same]
  simp

/-- The place of a string in the pool changes no stack effect. -/
theorem leveled_resolve {defined : Int64 → Prop} {nodes : List (Node Note)} {fs : List Frame} (occurs : d.Occurs defined nodes fs)
    (pool : Bytes → Int64) (leveled : d.instruction.Leveled labels arity before after x y) :
    (d.resolve pool).Leveled labels arity before after x y := by
  unfold Draft.resolve
  cases isText : d.text with
  | none => exact leveled
  | some s =>
    have pooled : d.instruction.op.usesPool = true := by
      cases occurs with
      | ordinary ordinary =>
        have none := (Bool.and_eq_true_iff.mp ordinary).2
        rw [isText] at none
        cases none
      | string isPooled => exact isPooled
      | _ => cases isText
    obtain ⟨⟨op, a, b, k⟩, text⟩ := d
    have pops : ∀ a', Instruction.pops arity ⟨op, a', b, k⟩ = Instruction.pops arity ⟨op, a, b, k⟩ := by
      intro a'
      cases op <;> first | rfl | cases pooled
    have pushes : ∀ a', Instruction.pushes ⟨op, a', b, k⟩ = Instruction.pushes ⟨op, a, b, k⟩ := by
      intro a'
      cases op <;> first | rfl | cases pooled
    refine ⟨leveled.framed, ?_, ?_, ?_, ?_⟩
    · rw [pops]
      exact leveled.enough
    · rw [Instruction.effect, pops, pushes]
      exact leveled.next
    · rintro rfl
      cases pooled
    · rintro (rfl | rfl) <;> cases pooled

/-- Heights of the operand stack: they follow control, and the pieces of the program rise as they should. -/
theorem exists_heights (compiled : Compiled source p code) (checked : code.checkLabels = .ok ()) (words : AllWords p.arity p.nodes) :
    ∃ labels hs, Rises labels p.arity 0 (bodySegments p.stmts) hs 0 := by
  obtain ⟨frame, W, _, _, sound⟩ := compiled.sound
  have rising : Rising p.arity [] 0 (bodySegments p.stmts) 0 := by
    refine sound.rising View.good_initial words.tail [] ?_
    intro f q isFunction
    cases isFunction
  refine rising.exists_labels ?_
  have distinct := (Code.checkLabels_eq_ok_iff.mp checked).1
  rw [compiled.definitions_eq, Program.code, definedLabels_cons, definedLabels_append] at distinct
  rw [codeOf_bodySegments]
  exact (List.nodup_append.mp (List.nodup_append.mp distinct).2.1).1

theorem balanced (compiled : Compiled source p code) {table : LabelTable} (resolved : code.labels = .ok table)
    (defined : ∀ i ∈ code.instructions, i.op.isJump = true → i.a ∈ code.definitions)
    (leveled : Leveled labels arity none p.code hs) :
    code.Balanced table arity (fun i => hs.getD i 0) := by
  have here : ∀ (i : Nat) (x : Instruction), code.instructions[i]? = some x →
      x.Leveled labels arity (if i = 0 then none else code.opAt? (i - 1)) (code.opAt? (i + 1)) (hs.getD i 0)
        (hs.getD (i + 1) 0) := by
    intro i x found
    rw [compiled.getElem?] at found
    obtain ⟨d, isDraft, rfl⟩ := Option.map_eq_some_iff.mp found
    rw [compiled.opAt?, compiled.opAt?]
    obtain ⟨fs, occurs⟩ := compiled.occurs (List.mem_of_getElem? isDraft)
    exact leveled_resolve occurs code.pool (leveled.at isDraft)
  refine ⟨fun i x found => (here i x found).enough, fun i x found => (here i x found).next, ?_,
    fun i x found => (here i x found).framed⟩
  intro i x found jumps
  have isJump : x.op.isJump = true := by
    rcases jumps with jumps | jumps <;> rw [jumps] <;> rfl
  obtain ⟨l, isLabel, same⟩ := List.mem_filterMap.mp (defined x (Array.mem_of_getElem? found) isJump)
  obtain ⟨k, atLabel⟩ := List.mem_iff_getElem?.mp isLabel
  rw [Array.getElem?_toList] at atLabel
  obtain ⟨isLbl, target⟩ := Instruction.label?_eq_some_iff.mp same
  refine ⟨k, (Code.get?_labels_iff resolved).mpr ⟨l, atLabel, isLbl, target⟩, ?_⟩
  rw [← (here i x found).jump jumps, ← target]
  exact ((here k l atLabel).label isLbl).symm

/-- The frame of the program. -/
theorem frame (compiled : Compiled source p code) :
    ∃ words, code.instructions[0]? = some { op := .alc, a := words } ∧
      code.instructions[code.instructions.size - 2]? = some { op := .dlc, a := words } ∧
      code.opAt? (code.instructions.size - 1) = some .stp := by
  have size : code.instructions.size = (Stmt.listCode p.stmts).length + 3 := by
    rw [← Array.length_toList, compiled.renders.instructions, Program.code]
    simp
  refine ⟨p.note.frame.getD 0, ?_, ?_, ?_⟩
  · rw [compiled.getElem?]
    rfl
  · rw [compiled.getElem?, size, Program.code]
    simp [Draft.resolve, Draft.op1]
  · rw [compiled.opAt?, size, Program.code]
    simp [Draft.op]

/-- The frame of a procedure. -/
theorem frames (compiled : Compiled source p code) {i : Nat} {note : Note} {name : Ident Note}
    {params : List (FormalParam Note)} {spec : Option (ResultSpec Note)} {body : List (Stmt Note)} {q : Procedure}
    (emitted : Emitted p i (.stmt (.proc note name params spec body))) (isProc : note.symbol.bind (·.proc) = some q) :
    ∃ words last, last = i + (Stmt.proc note name params spec body).code.length - 3 ∧
      code.instructions[i + 3]? = some { op := .alc, a := words } ∧
      code.instructions[last]? = some { op := .dlc, a := words } ∧ code.opAt? (last + 1) = some .ret := by
  obtain ⟨front, back, same, rfl⟩ := emitted.code_eq
  rw [Piece.code, Stmt.code, isProc] at same
  have length : (Stmt.proc note name params spec body).code.length = (Stmt.listCode body).length + 8 := by
    rw [Stmt.code, isProc]
    simp
  have last : front.length + (Stmt.proc note name params spec body).code.length - 3 =
      front.length + ((Stmt.listCode body).length + 5) := by
    omega
  refine ⟨note.frame.getD 0, _, rfl, ?_, ?_, ?_⟩
  · rw [compiled.getElem?, same]
    simp [Draft.resolve, Draft.op1]
  · rw [compiled.getElem?, last, same]
    simp [Draft.resolve, Draft.op1]
  · rw [compiled.opAt?, last, same]
    simp [Draft.op2, Nat.add_assoc]

end Compiled

/-- The code of every accepted program has heights for its operand stack, unless the program names `void` or
passes or returns an array by value. -/
theorem accepted_program_is_balanced {source : Bytes} (short : source.length < 2 ^ 63) {made : Compilation} {code : Code}
    (compiled : compile source = .ok made) (linked : made.result = .ok code)
    (unnamed : ∀ n ∈ made.tree.nodes, n.isVoid = false) (scalar : ∀ n ∈ made.tree.nodes, n.transfersArray = false) :
    ∃ table height, code.labels = .ok table ∧ made.tree.Balanced code table height := by
  obtain ⟨_, known, checked⟩ := compiled_of_ok compiled linked
  obtain ⟨distinct, defined⟩ := Code.checkLabels_eq_ok_iff.mp checked
  have resolved := code.labels_spec.1 distinct
  have words := known.allWords short unnamed (known.transfersWords scalar)
  obtain ⟨labels, hs, rises⟩ := known.exists_heights checked words
  refine ⟨_, fun i => (programHeights hs).getD i 0, resolved, ?_⟩
  exact {
    calls := fun _ _ _ _ _ member => known.arity_eq short member
    code := known.balanced resolved defined rises.leveled_program
    pieces := fun i k emitted => ⟨known.holds emitted, emitted.height_eq rises⟩
    frame := known.frame
    frames := fun _ _ _ _ _ _ _ emitted isProc => known.frames emitted isProc }

/-- Heights exist for a program with a recursive procedure, an array, a loop and a conditional expression. -/
theorem recursion_is_balanced : ∃ (made : Compilation) (code : Code),
    compile "f: proc(n int) returns(int); return if n < 2 then 1 else n * f(n - 1) fi; end; dcl a array[1:3] int, i int; do for i = 1 to 3; a[i] = f(i); od; print(a);" =
      .ok made ∧ made.result = .ok code ∧
      ∃ table height, code.labels = .ok table ∧ made.tree.Balanced code table height := by
  obtain ⟨made, code, compiled, linked, fit⟩ := @exists_accepted
    "f: proc(n int) returns(int); return if n < 2 then 1 else n * f(n - 1) fi; end; dcl a array[1:3] int, i int; do for i = 1 to 3; a[i] = f(i); od; print(a);"
    (fun made _ => made.tree.nodes.all fun n => !n.isVoid && !n.transfersArray) (by decide +kernel)
  have each : ∀ n ∈ made.tree.nodes, n.isVoid = false ∧ n.transfersArray = false := by
    intro n member
    simpa using List.all_eq_true.mp fit n member
  refine ⟨made, code, compiled, linked, ?_⟩
  exact accepted_program_is_balanced (by decide +kernel) compiled linked (fun n member => (each n member).1)
    fun n member => (each n member).2

end LyaLang
