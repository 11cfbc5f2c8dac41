import LyaLang.Proofs.Emit.Occurs
import LyaLang.Proofs.Emit.Pieces
import LyaLang.Proofs.Machine.Effect

/-! # Heights of the operand stack

A height counts the operand words above the frame. Segments rise from one height to another if heights can be
given to their positions such that each instruction finds the words it takes, the heights around it differ by
its effect, and every jump finds at its label the height it leaves with. Values and addresses inside raise the
height by one, and statements leave it as it is.

Heights at labels are given by one function for the whole program. Whether segments rise is settled piece by
piece: a piece says which heights it gives to the labels it defines and which it needs elsewhere.
-/

namespace LyaLang

variable {front back ss : List Segment}

variable {h h' : Int} {hs : List Int}

/-- Whether an operation marks, leaves or enters a stretch of code. -/
def Opcode.isFlow : Opcode → Bool
  | lbl | jmp | jof | enf | ret | stp => true
  | _ => false

/-- What a piece adds to the height. -/
def Piece.rise : Piece → Int
  | value _ | address _ => 1
  | stmt _ => 0

/-- Segments rise from one height to another with the given heights in front of their instructions, where
labels have heights and procedures an arity. -/
inductive Rises (labels arity : Int64 → Int) : Int → List Segment → List Int → Int → Prop
  | nil (h : Int) : Rises labels arity h [] [] h
  | plain {d : Draft} {rest : List Segment} {h h' : Int} {hs : List Int} (flat : d.instruction.op.isFlow = false)
    (enough : d.instruction.pops arity ≤ h) (next : Rises labels arity (h + d.instruction.effect arity) rest hs h') :
    Rises labels arity h (.draft d :: rest) (h :: hs) h'
  | label {l : Int64} {rest : List Segment} {h h' : Int} {hs : List Int} (nonneg : 0 ≤ h) (agrees : labels l = h)
    (next : Rises labels arity h rest hs h') : Rises labels arity h (.draft (.op1 .lbl l) :: rest) (h :: hs) h'
  | branch {l : Int64} {rest : List Segment} {h h' : Int} {hs : List Int} (enough : 1 ≤ h) (agrees : labels l = h - 1)
    (next : Rises labels arity (h - 1) rest hs h') : Rises labels arity h (.draft (.op1 .jof l) :: rest) (h :: hs) h'
  | jump {l : Int64} {rest : List Segment} {h k h' : Int} {hs : List Int} (nonneg : 0 ≤ h) (agrees : labels l = h)
    (next : Rises labels arity k rest hs h') : Rises labels arity h (.draft (.op1 .jmp l) :: rest) (h :: hs) h'
  /-- A frame is opened with nothing above it. -/
  | enter {level words : Int64} {rest : List Segment} {h' : Int} {hs : List Int} (next : Rises labels arity 0 rest hs h') :
    Rises labels arity 0 (.draft (.op1 .enf level) :: .draft (.op1 .alc words) :: rest) (0 :: 0 :: hs) h'
  /-- A frame is closed with nothing above it. -/
  | leave {words level count : Int64} {rest : List Segment} {k h' : Int} {hs : List Int}
    (next : Rises labels arity k rest hs h') :
    Rises labels arity 0 (.draft (.op1 .dlc words) :: .draft (.op2 .ret level count) :: rest) (0 :: 0 :: hs) h'
  | part {k : Piece} {rest : List Segment} {h h' : Int} {hs hs' : List Int}
    (inner : Rises labels arity h k.segments hs (h + k.rise)) (next : Rises labels arity (h + k.rise) rest hs' h') :
    Rises labels arity h (.part k :: rest) (hs ++ hs') h'

namespace Rises

variable {labels arity : Int64 → Int}

theorem append {k : Int} {hs' : List Int} (first : Rises labels arity h front hs k)
    (second : Rises labels arity k back hs' h') : Rises labels arity h (front ++ back) (hs ++ hs') h' := by
  induction first with
  | nil => exact second
  | plain flat enough _ ih => exact .plain flat enough (ih second)
  | label nonneg agrees _ ih => exact .label nonneg agrees (ih second)
  | branch enough agrees _ ih => exact .branch enough agrees (ih second)
  | jump nonneg agrees _ ih => exact .jump nonneg agrees (ih second)
  | enter _ ih => exact .enter (ih second)
  | leave _ ih => exact .leave (ih second)
  | part inner _ _ ih =>
    rw [List.append_assoc]
    exact .part inner (ih second)

theorem length_eq (rises : Rises labels arity h ss hs h') :
    hs.length = (codeOf ss).length := by
  induction rises with
  | nil => rfl
  | part _ _ ih ih' =>
    rw [List.length_append, ih, ih', Piece.codeOf_segments, codeOf_part, List.length_append]
  | _ =>
    rename_i ih
    simp [ih]

/-- The heights of segments are those of their code. -/
theorem flatten (rises : Rises labels arity h ss hs h') :
    Rises labels arity h (asSegments (codeOf ss)) hs h' := by
  induction rises with
  | nil => exact .nil _
  | plain flat enough _ ih => exact .plain flat enough ih
  | label nonneg agrees _ ih => exact .label nonneg agrees ih
  | branch enough agrees _ ih => exact .branch enough agrees ih
  | jump nonneg agrees _ ih => exact .jump nonneg agrees ih
  | enter _ ih => exact .enter ih
  | leave _ ih => exact .leave ih
  | part _ _ ih ih' =>
    rw [Piece.codeOf_segments] at ih
    rw [codeOf_part, asSegments, List.map_append]
    exact ih.append ih'

/-- The heights around a piece that stands among segments. -/
theorem at_part {k : Piece} (rises : Rises labels arity h (front ++ .part k :: back) hs h') :
    ∃ j before inner after, hs = before ++ (inner ++ after) ∧ before.length = (codeOf front).length ∧
      Rises labels arity j k.segments inner (j + k.rise) ∧ Rises labels arity (j + k.rise) back after h' := by
  generalize whole : front ++ .part k :: back = ss at rises
  induction rises generalizing front with
  | nil => simp at whole
  | part inner next _ ih =>
    cases front with
    | nil =>
      cases whole
      exact ⟨_, [], _, _, rfl, rfl, inner, next⟩
    | cons s front =>
      obtain ⟨rfl, tail⟩ := List.cons.inj whole
      obtain ⟨j, before, at', after, rfl, length, inner', next'⟩ := ih tail
      refine ⟨j, _ ++ before, at', after, (List.append_assoc _ _ _).symm, ?_, inner', next'⟩
      rw [List.length_append, length, inner.length_eq, Piece.codeOf_segments, codeOf_part, List.length_append]
  | enter _ ih | leave _ ih =>
    -- The two drafts of a frame stand together, so the piece comes after both.
    cases front with
    | nil => cases whole
    | cons s front =>
      obtain ⟨rfl, tail⟩ := List.cons.inj whole
      cases front with
      | nil => cases tail
      | cons s front =>
        obtain ⟨rfl, tail'⟩ := List.cons.inj tail
        obtain ⟨j, before, at', after, rfl, length, inner, next⟩ := ih tail'
        exact ⟨j, _ :: _ :: before, at', after, rfl, by simp [length], inner, next⟩
  | _ =>
    rename_i ih
    cases front with
    | nil => cases whole
    | cons s front =>
      obtain ⟨rfl, tail⟩ := List.cons.inj whole
      obtain ⟨j, before, at', after, rfl, length, inner, next⟩ := ih tail
      exact ⟨j, _ :: before, at', after, rfl, by simp [length], inner, next⟩

end Rises

/-! ## Rising piece by piece -/

/-- The number that a table gives to a label, zero at labels it does not have. -/
def numberAt (table : List (Int64 × Int)) (l : Int64) : Int := (table.lookup l).getD 0

theorem numberAt_of_mem {table : List (Int64 × Int)} (distinct : (table.map Prod.fst).Nodup) {l : Int64} {n : Int}
    (member : (l, n) ∈ table) : numberAt table l = n := by
  induction table with
  | nil => cases member
  | cons y rest ih =>
    obtain ⟨l', n'⟩ := y
    obtain ⟨absent, distinct'⟩ := List.nodup_cons.mp distinct
    rcases List.mem_cons.mp member with same | inRest
    · cases same
      simp [numberAt]
    · have other : (l == l') = false := by
        rw [beq_eq_false_iff_ne]
        intro same
        exact absent (List.mem_map.mpr ⟨(l, n), inRest, same⟩)
      rw [numberAt, List.lookup_cons, other]
      exact ih distinct' inRest

/-- Labels have the given heights. -/
def Fits (labels : Int64 → Int) (heights : List (Int64 × Int)) : Prop := ∀ x ∈ heights, labels x.1 = x.2

/-- Segments rise from one height to another, given heights of labels elsewhere and giving heights to the labels
that they define: any heights of all labels that agree with both will do. -/
structure RisesGiving (arity : Int64 → Int) (needs gives : List (Int64 × Int)) (h : Int) (ss : List Segment) (h' : Int) :
    Prop where
  keys : gives.map Prod.fst = definedLabels (codeOf ss)
  rises : ∀ labels, Fits labels gives → Fits labels needs → ∃ hs, Rises labels arity h ss hs h'

namespace RisesGiving

variable {arity : Int64 → Int} {needs gives gives' : List (Int64 × Int)} {h k h' : Int} {front back : List Segment}

theorem append (first : RisesGiving arity needs gives h front k) (second : RisesGiving arity needs gives' k back h') :
    RisesGiving arity needs (gives ++ gives') h (front ++ back) h' where
  keys := by rw [List.map_append, first.keys, second.keys, codeOf_append, definedLabels_append]
  rises := by
    intro labels fits needed
    obtain ⟨fits, fits'⟩ := List.forall_mem_append.mp fits
    obtain ⟨hs, rises⟩ := first.rises labels fits needed
    obtain ⟨hs', rises'⟩ := second.rises labels fits' needed
    exact ⟨hs ++ hs', rises.append rises'⟩

/-- A label gives the height at which it stands. -/
theorem label {l : Int64} (nonneg : 0 ≤ h) (second : RisesGiving arity needs gives h back h') :
    RisesGiving arity needs ((l, h) :: gives) h (.draft (.op1 .lbl l) :: back) h' where
  keys := by rw [List.map_cons, second.keys, codeOf_draft, definedLabels_label]
  rises := by
    intro labels fits needed
    obtain ⟨here, fits⟩ := List.forall_mem_cons.mp fits
    obtain ⟨hs, rises⟩ := second.rises labels fits needed
    exact ⟨h :: hs, .label nonneg here rises⟩

/-- What segments give to themselves they need from nowhere else. -/
theorem close (own : List (Int64 × Int)) (rising : RisesGiving arity (own ++ needs) gives h front h')
    (given : own ⊆ gives) : RisesGiving arity needs gives h front h' where
  keys := rising.keys
  rises := by
    intro labels fits needed
    exact rising.rises labels fits (List.forall_mem_append.mpr ⟨fun x member => fits x (given member), needed⟩)

end RisesGiving

/-- Segments rise from one height to another, given heights of labels elsewhere, with some heights for the labels
that they define. -/
def Rising (arity : Int64 → Int) (needs : List (Int64 × Int)) (h : Int) (ss : List Segment) (h' : Int) : Prop :=
  ∃ gives, RisesGiving arity needs gives h ss h'

namespace Rising

variable {arity : Int64 → Int} {needs : List (Int64 × Int)} {h k h' : Int} {l : Int64}

/-- Segments that define no label. -/
theorem of_rises (none : definedLabels (codeOf ss) = [])
    (rises : ∀ labels, Fits labels needs → ∃ hs, Rises labels arity h ss hs h') : Rising arity needs h ss h' :=
  ⟨[], none.symm, fun labels _ needed => rises labels needed⟩

theorem nil (h : Int) : Rising arity needs h [] h := of_rises rfl fun _ _ => ⟨[], .nil h⟩

theorem append (first : Rising arity needs h front k)
    (second : Rising arity needs k back h') : Rising arity needs h (front ++ back) h' := by
  obtain ⟨gives, first⟩ := first
  obtain ⟨gives', second⟩ := second
  exact ⟨gives ++ gives', first.append second⟩

theorem plain {d : Draft} (flat : d.instruction.op.isFlow = false) (enough : d.instruction.pops arity ≤ h)
    (same : h + d.instruction.effect arity = h') : Rising arity needs h [.draft d] h' := by
  subst same
  refine of_rises ?_ fun labels _ => ⟨_, .plain flat enough (.nil _)⟩
  have unlabeled : d.label? = none := by
    rw [Draft.label?, if_neg]
    intro isLabel
    rw [beq_iff_eq] at isLabel
    rw [isLabel] at flat
    cases flat
  rw [codeOf_draft, definedLabels_cons, unlabeled]
  rfl

theorem jump (nonneg : 0 ≤ h) (known : (l, h) ∈ needs) (k : Int) : Rising arity needs h [.draft (.op1 .jmp l)] k :=
  of_rises rfl fun _ needed => ⟨_, .jump nonneg (needed _ known) (.nil k)⟩

theorem branch (enough : 1 ≤ h) (known : (l, h - 1) ∈ needs) :
    Rising arity needs h [.draft (.op1 .jof l)] (h - 1) :=
  of_rises rfl fun _ needed => ⟨_, .branch enough (needed _ known) (.nil _)⟩

theorem enter {level words : Int64} :
    Rising arity needs 0 [.draft (.op1 .enf level), .draft (.op1 .alc words)] 0 :=
  of_rises rfl fun _ _ => ⟨_, .enter (.nil 0)⟩

theorem leave {words level count : Int64} (k : Int) :
    Rising arity needs 0 [.draft (.op1 .dlc words), .draft (.op2 .ret level count)] k :=
  of_rises rfl fun _ _ => ⟨_, .leave (.nil k)⟩

theorem part {k : Piece} (inner : Rising arity needs h k.segments (h + k.rise)) :
    Rising arity needs h [.part k] (h + k.rise) := by
  obtain ⟨gives, keys, rises⟩ := inner
  refine ⟨gives, ?_, ?_⟩
  · rw [keys, Piece.codeOf_segments, codeOf_part, codeOf_nil, List.append_nil]
  · intro labels fits needed
    obtain ⟨hs, rises⟩ := rises labels fits needed
    exact ⟨hs ++ [], .part rises (.nil _)⟩

/-- A label between segments gives its height to both sides, whose jumps to it need no other. -/
theorem join (nonneg : 0 ≤ k) (first : Rising arity ((l, k) :: needs) h front k)
    (second : Rising arity ((l, k) :: needs) k back h') :
    Rising arity needs h (front ++ .draft (.op1 .lbl l) :: back) h' := by
  obtain ⟨gives, first⟩ := first
  obtain ⟨gives', second⟩ := second
  refine ⟨_, RisesGiving.close [(l, k)] (first.append (second.label nonneg)) ?_⟩
  simp

/-- Two labels between segments, each known on all sides. -/
theorem joinTwo {middle : List Segment} {l' : Int64} {k' : Int} (nonneg : 0 ≤ k) (nonneg' : 0 ≤ k')
    (first : Rising arity ((l, k) :: (l', k') :: needs) h front k)
    (second : Rising arity ((l, k) :: (l', k') :: needs) k middle k')
    (third : Rising arity ((l, k) :: (l', k') :: needs) k' back h') :
    Rising arity needs h (front ++ .draft (.op1 .lbl l) :: (middle ++ .draft (.op1 .lbl l') :: back)) h' := by
  obtain ⟨gives, first⟩ := first
  obtain ⟨gives', second⟩ := second
  obtain ⟨gives'', third⟩ := third
  refine ⟨_, RisesGiving.close [(l, k), (l', k')] (first.append ((second.append (third.label nonneg')).label nonneg)) ?_⟩
  simp

/-- Distinct labels can have the heights that segments give them. -/
theorem exists_labels (rising : Rising arity [] h ss h')
    (distinct : (definedLabels (codeOf ss)).Nodup) : ∃ labels hs, Rises labels arity h ss hs h' := by
  obtain ⟨gives, keys, rises⟩ := rising
  rw [← keys] at distinct
  exact ⟨numberAt gives, rises _ (fun _ member => numberAt_of_mem distinct member) (List.forall_mem_nil _)⟩

end Rising

end LyaLang
