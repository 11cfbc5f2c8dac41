import LyaLang.Proofs.Emit.Code
import LyaLang.Proofs.Tree.Nodes

/-! # Frames

The words of a frame are given out to variables and aliases, to the counters of loops and to the words in which a
loop keeps its bound and its step; blocks that follow one another share words. The arguments of a procedure lie
below its frame, with the word for its result. Every instruction of a program stands inside the frames of the
procedures around it.
-/

namespace LyaLang

open Ast

/-- Words of a frame that are given out together. -/
structure Area where
  offset : Int64
  size : Int64
deriving DecidableEq

/-- The frame of a procedure: the number of arguments below it, its words, and what they are given out to. -/
structure Frame where
  params : Nat
  words : Int64
  areas : List Area
deriving DecidableEq

/-- The words of a symbol. -/
def Symbol.area (s : Symbol) : Area := ⟨s.offset, s.size⟩

/-- The words in which a loop keeps its bound and its step. -/
def LoopSlots.areas (w : LoopSlots) : List Area := ⟨w.stop, 1⟩ :: if 0 ≤ w.step then [⟨w.step, 1⟩] else []

variable {fs : List Frame} {x : List Frame × Draft}

namespace Ast

/-- The words of declared names. -/
def areasOf (names : List (Ident Note)) : List Area := names.filterMap (·.note.symbol.map Symbol.area)

/-- The words of a counted loop. -/
def ForControl.areas (f : ForControl Note) : List Area :=
  (if f.note.declaresCounter then areasOf [f.counter] else []) ++ (f.note.slots.map LoopSlots.areas).getD []

mutual

/-- The words that a statement takes in the frame it stands in. -/
def Stmt.areas : Stmt Note → List Area
  | declare _ decls => decls.flatMap fun d => areasOf d.names
  | branch _ arms otherwise => Stmt.armAreas arms ++ Stmt.elseAreas otherwise
  | loop _ control _ body => (control.map ForControl.areas).getD [] ++ Stmt.listAreas body
  | _ => []

/-- The words that statements take. -/
def Stmt.listAreas : List (Stmt Note) → List Area
  | [] => []
  | s :: rest => s.areas ++ Stmt.listAreas rest

/-- The words that an optional body takes. -/
def Stmt.elseAreas : Option (List (Stmt Note)) → List Area
  | none => []
  | some body => Stmt.listAreas body

/-- The words that the arms of an `if` chain take. -/
def Stmt.armAreas : List (CondBranch Note) → List Area
  | [] => []
  | .mk _ _ body :: rest => Stmt.listAreas body ++ Stmt.armAreas rest

end

/-- Drafts that stand inside frames, the outermost first. -/
def framed (fs : List Frame) (drafts : List Draft) : List (List Frame × Draft) := drafts.map (fs, ·)

@[simp] theorem map_framed (fs : List Frame) (drafts : List Draft) : (framed fs drafts).map Prod.snd = drafts := by
  rw [framed, List.map_map]
  exact List.map_id _

/-- The frame of a procedure with a body. -/
def procedureFrame (note : Note) (params : List (FormalParam Note)) (body : List (Stmt Note)) : Frame :=
  ⟨FormalParam.count params, note.frame.getD 0, Stmt.listAreas body⟩

mutual

/-- The code of a statement inside frames. -/
def Stmt.framedCode (fs : List Frame) : Stmt Note → List (List Frame × Draft)
  | proc note _ params _ body =>
    match note.symbol.bind (·.proc) with
    | none => []
    | some p =>
      let inner := fs ++ [procedureFrame note params body]
      (fs, .op1 .jmp (note.firstLabel + 2)) :: (framed inner [.op1 .lbl note.firstLabel, .op1 .enf p.level,
        .op1 .alc (note.frame.getD 0)] ++ (Stmt.listFramedCode inner body ++ (framed inner
          [.op1 .lbl (note.firstLabel + 1), .op1 .dlc (note.frame.getD 0), .op2 .ret p.level p.arity.number] ++
            [(fs, .op1 .lbl (note.firstLabel + 2))])))
  | branch note branches otherwise =>
    Stmt.armsFramedCode fs (note.firstLabel + Int64.ofNat branches.length) note.firstLabel branches ++
      (Stmt.elseFramedCode fs otherwise ++ [(fs, .op1 .lbl (note.firstLabel + Int64.ofNat branches.length))])
  | loop note control whilst body =>
    framed fs (controlCode note.firstLabel control) ++ (framed fs (whilstCode (note.firstLabel + 2) whilst) ++
      (Stmt.listFramedCode fs body ++ framed fs [.op1 .jmp note.firstLabel, .op1 .lbl (note.firstLabel + 2)]))
  | s => framed fs s.code

/-- The code of statements in order. -/
def Stmt.listFramedCode (fs : List Frame) : List (Stmt Note) → List (List Frame × Draft)
  | [] => []
  | s :: rest => s.framedCode fs ++ Stmt.listFramedCode fs rest

/-- The code of an optional body. -/
def Stmt.elseFramedCode (fs : List Frame) : Option (List (Stmt Note)) → List (List Frame × Draft)
  | none => []
  | some body => Stmt.listFramedCode fs body

/-- The code of the arms of an `if` chain. -/
def Stmt.armsFramedCode (fs : List Frame) (exit : Int64) : Int64 → List (CondBranch Note) → List (List Frame × Draft)
  | _, [] => []
  | label, .mk _ test body :: rest =>
    framed fs test.valueCode ++ ((fs, .op1 .jof label) :: (Stmt.listFramedCode fs body ++ ((fs, .op1 .jmp exit) ::
      (fs, .op1 .lbl label) :: Stmt.armsFramedCode fs exit (label + 1) rest)))

end

/-- The frame of a program. -/
def Program.mainFrame (p : Program Note) : Frame := ⟨0, p.note.frame.getD 0, Stmt.listAreas p.stmts⟩

/-- The code of a program, each instruction inside its frames. -/
def Program.framedCode (p : Program Note) : List (List Frame × Draft) :=
  ([p.mainFrame], .op1 .alc (p.note.frame.getD 0)) :: (Stmt.listFramedCode [p.mainFrame] p.stmts ++
    framed [p.mainFrame] [.op1 .dlc (p.note.frame.getD 0), .op .stp])

mutual

theorem Stmt.map_framedCode : ∀ (fs : List Frame) (s : Stmt Note), (s.framedCode fs).map Prod.snd = s.code
  | fs, .proc note name params spec body => by
    rw [Stmt.framedCode, Stmt.code]
    cases note.symbol.bind (·.proc) with
    | none => rfl
    | some p => simp [Stmt.map_listFramedCode]
  | fs, .branch note arms otherwise => by
    simp [Stmt.framedCode, Stmt.code, Stmt.map_armsFramedCode, Stmt.map_elseFramedCode]
  | fs, .loop note control whilst body => by simp [Stmt.framedCode, Stmt.code, Stmt.map_listFramedCode]
  | fs, .declare _ _ | fs, .synonym _ _ | fs, .modes _ _ | fs, .assign _ _ _ _ | fs, .call _ _ _ _ | fs, .ret _ _
  | fs, .result _ _ => map_framed fs _

theorem Stmt.map_listFramedCode :
    ∀ (fs : List Frame) (ss : List (Stmt Note)), (Stmt.listFramedCode fs ss).map Prod.snd = Stmt.listCode ss
  | _, [] => rfl
  | fs, s :: rest => by
    rw [Stmt.listFramedCode, Stmt.listCode, List.map_append, Stmt.map_framedCode, Stmt.map_listFramedCode]

theorem Stmt.map_elseFramedCode : ∀ (fs : List Frame) (body : Option (List (Stmt Note))),
    (Stmt.elseFramedCode fs body).map Prod.snd = Stmt.elseCode body
  | _, none => rfl
  | fs, some body => Stmt.map_listFramedCode fs body

theorem Stmt.map_armsFramedCode : ∀ (fs : List Frame) (exit label : Int64) (arms : List (CondBranch Note)),
    (Stmt.armsFramedCode fs exit label arms).map Prod.snd = Stmt.armsCode exit label arms
  | _, _, _, [] => rfl
  | fs, exit, label, .mk _ test body :: rest => by
    simp [Stmt.armsFramedCode, Stmt.armsCode, Stmt.map_listFramedCode, Stmt.map_armsFramedCode]

end

/-- The frame of a node that is a procedure. -/
def Node.frame? : Node Note → Option Frame
  | stmt (.proc note _ params _ body) => some (procedureFrame note params body)
  | _ => none

/-- An instruction inside frames stands inside some of the procedures among nodes as well. -/
def Inner (fs : List Frame) (nodes : List (Node Note)) (x : List Frame × Draft) : Prop :=
  ∃ inner, x.1 = fs ++ inner ∧ inner.Sublist (nodes.filterMap Node.frame?)

theorem Inner.here (fs : List Frame) (nodes : List (Node Note)) (d : Draft) : Inner fs nodes (fs, d) :=
  ⟨[], (List.append_nil _).symm, List.nil_sublist _⟩

theorem Inner.mono {nodes more : List (Node Note)} (inner : Inner fs nodes x)
    (within : nodes.Sublist more) : Inner fs more x := by
  obtain ⟨inner, same, among⟩ := inner
  exact ⟨inner, same, among.trans (within.filterMap _)⟩

theorem Inner.of_framed {nodes : List (Node Note)} {drafts : List Draft} (member : x ∈ framed fs drafts) : Inner fs nodes x := by
  obtain ⟨d, _, rfl⟩ := List.mem_map.mp member
  exact .here fs nodes d

mutual

/-- The frames around the code of a statement, the given ones apart, are those of procedures in the statement. -/
theorem Stmt.inner_of_mem : ∀ {fs : List Frame} {s : Stmt Note} {x : List Frame × Draft}, x ∈ s.framedCode fs →
    Inner fs s.nodes x
  | fs, .proc note name params spec body, x, member => by
    rw [Stmt.framedCode] at member
    cases found : note.symbol.bind (·.proc) with
    | none =>
      rw [found] at member
      cases member
    | some p =>
      have enter {nodes : List (Node Note)} (within : nodes.Sublist (.ident name :: (params.flatMap FormalParam.nodes ++
          (spec.map ResultSpec.nodes).getD [] ++ Stmt.listNodes body)))
          (inner : Inner (fs ++ [procedureFrame note params body]) nodes x) :
          Inner fs (Stmt.proc note name params spec body).nodes x := by
        obtain ⟨inner, same, among⟩ := inner
        exact ⟨procedureFrame note params body :: inner, by rw [same, List.append_assoc]; rfl,
          (among.trans (within.filterMap _)).cons_cons _⟩
      rw [found] at member
      simp only [List.mem_cons, List.mem_append, List.not_mem_nil, or_false] at member
      rcases member with rfl | member | member | member | rfl
      · exact .here fs _ _
      · exact enter (List.nil_sublist _) (.of_framed member)
      · exact enter ((List.sublist_append_right _ _).cons _) (Stmt.inner_of_mem_list member)
      · exact enter (List.nil_sublist _) (.of_framed member)
      · exact .here fs _ _
  | fs, .branch note arms otherwise, x, member => by
    rw [Stmt.nodes_branch]
    simp only [Stmt.framedCode, List.mem_append, List.mem_singleton] at member
    rcases member with member | member | rfl
    · exact (Stmt.inner_of_mem_arms member).mono ((List.sublist_append_left _ _).cons _)
    · exact (Stmt.inner_of_mem_else member).mono ((List.sublist_append_right _ _).cons _)
    · exact .here fs _ _
  | fs, .loop note control whilst body, x, member => by
    simp only [Stmt.framedCode, List.mem_append] at member
    rcases member with member | member | member | member
    · exact .of_framed member
    · exact .of_framed member
    · exact (Stmt.inner_of_mem_list member).mono ((List.sublist_append_right _ _).cons _)
    · exact .of_framed member
  | fs, .declare _ _, x, member | fs, .synonym _ _, x, member | fs, .modes _ _, x, member | fs, .assign _ _ _ _, x, member
  | fs, .call _ _ _ _, x, member | fs, .ret _ _, x, member | fs, .result _ _, x, member => .of_framed member

theorem Stmt.inner_of_mem_list : ∀ {fs : List Frame} {ss : List (Stmt Note)} {x : List Frame × Draft},
    x ∈ Stmt.listFramedCode fs ss → Inner fs (Stmt.listNodes ss) x
  | fs, s :: rest, x, member => by
    rcases List.mem_append.mp member with member | member
    · exact (Stmt.inner_of_mem member).mono (List.sublist_append_left _ _)
    · exact (Stmt.inner_of_mem_list member).mono (List.sublist_append_right _ _)

theorem Stmt.inner_of_mem_else : ∀ {fs : List Frame} {body : Option (List (Stmt Note))} {x : List Frame × Draft},
    x ∈ Stmt.elseFramedCode fs body → Inner fs (Stmt.elseNodes body) x
  | _, some _, _, member => Stmt.inner_of_mem_list member

theorem Stmt.inner_of_mem_arms : ∀ {fs : List Frame} {exit label : Int64} {arms : List (CondBranch Note)}
    {x : List Frame × Draft}, x ∈ Stmt.armsFramedCode fs exit label arms → Inner fs (Stmt.armNodes arms) x
  | fs, exit, label, .mk note test body :: rest, x, member => by
    simp only [Stmt.armsFramedCode, List.mem_append, List.mem_cons] at member
    rcases member with member | rfl | member | rfl | rfl | member
    · exact .of_framed member
    · exact .here fs _ _
    · exact (Stmt.inner_of_mem_list member).mono
        (((List.sublist_append_right _ _).trans (List.sublist_append_left _ _)).cons _)
    · exact .here fs _ _
    · exact .here fs _ _
    · exact (Stmt.inner_of_mem_arms member).mono ((List.sublist_append_right _ _).cons _)

end

theorem Program.inner_of_mem {p : Program Note} (member : x ∈ p.framedCode) :
    Inner [p.mainFrame] (Stmt.listNodes p.stmts) x := by
  rcases List.mem_cons.mp member with rfl | member
  · exact .here _ _ _
  · rcases List.mem_append.mp member with member | member
    · exact Stmt.inner_of_mem_list member
    · exact .of_framed member

/-- Procedures weigh three each. -/
theorem three_mul_frames_le (nodes : List (Node Note)) : 3 * (nodes.filterMap Node.frame?).length ≤ weigh nodes := by
  induction nodes with
  | nil => exact Nat.le_refl 0
  | cons n rest ih =>
    rw [List.filterMap_cons, weigh_cons]
    cases isFrame : n.frame? with
    | none => exact ih.trans (Nat.le_add_left _ _)
    | some f =>
      have three : n.weight = 3 := by
        unfold Node.frame? at isFrame
        split at isFrame
        · rfl
        · cases isFrame
      rw [List.length_cons]
      omega

/-- The code inside frames is the code. -/
theorem Program.map_framedCode (p : Program Note) : p.framedCode.map Prod.snd = p.code := by
  simp [Program.framedCode, Program.code, Stmt.map_listFramedCode]

end Ast

/-! ## What frames hold -/

/-- A frame holds the words that it gives out, and below it the arguments of its procedure. -/
inductive Frame.Holds (f : Frame) : Int64 → Prop
  | area {a : Area} (member : a ∈ f.areas) : Holds f a.offset
  | argument {position : Nat} (few : position < f.params) :
    Holds f (Int64.ofNat position - (Int64.ofNat f.params + 2))

/-- The frame at a level holds the word at an offset. -/
def Held (fs : List Frame) (level offset : Int64) : Prop :=
  ∃ k f, fs[k]? = some f ∧ level = Int64.ofNat k ∧ f.Holds offset

/-- What an instruction inside frames can address: a word that a frame holds; a store, also the result of the
procedure itself. -/
inductive Reaches (fs : List Frame) : Opcode → Int64 → Int64 → Prop
  | held {op : Opcode} {level offset : Int64} (held : Held fs level offset) : Reaches fs op level offset
  | result {outer : List Frame} {f : Frame} (inside : outer ≠ []) (innermost : fs = outer ++ [f]) :
    Reaches fs .stv (Int64.ofNat outer.length) (-(Int64.ofNat f.params + 3))

theorem Held.inside {level offset : Int64} (held : Held fs level offset) (f : Frame) :
    Held (fs ++ [f]) level offset := by
  obtain ⟨k, g, found, isLevel, holds⟩ := held
  exact ⟨k, g, List.getElem?_append_left (List.getElem?_eq_some_iff.mp found).1 ▸ found, isLevel, holds⟩

/-- The innermost frame holds its words at its own level. -/
theorem Frame.Holds.held {f : Frame} {offset : Int64} (holds : f.Holds offset) (outer : List Frame) :
    Held (outer ++ [f]) (Int64.ofNat outer.length) offset :=
  ⟨outer.length, f, List.getElem?_concat_length, rfl, holds⟩

end LyaLang
