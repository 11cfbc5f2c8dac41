import LyaLang.Proofs.Check.Placed
import LyaLang.Proofs.Compile
import LyaLang.Proofs.Mode.Size
import LyaLang.Proofs.Number

/-! # Storage

The words that a program asks for, counted without a bound. If they are not too many, every variable and every word
that a loop keeps lies inside its frame, and code addresses nothing else: it stays off the words that a call saves.
-/

namespace LyaLang

open Ast

/-! ## Sized modes -/

/-- A mode that a name stands for is sized. -/
def Symbol.Sized (s : Symbol) : Prop := s.category = .mode → ∀ m, s.mode = some m → m.Sized

namespace Ast

variable {symbols : List Symbol}

/-- A checked mode is sized. -/
theorem ModeExpr.Typed.sized (fine : ∀ s ∈ symbols, s.Good ∧ s.Sized) :
    ∀ {e : ModeExpr Note}, e.Typed symbols → ∀ m, e.note.mode = some m → m.Sized
  | .name _, ⟨symbol, found, _, category, mode⟩, m, isMode =>
    (fine symbol (findSymbol_some found).1).2 category m (mode.symm.trans isMode)
  | .range _ _ _ _, ⟨_, _, _, _, _, _, _, mode⟩, m, isMode => by
    obtain rfl := Option.mem_unique mode isMode
    trivial
  | .ref _ elem, ⟨_, mode⟩, m, isMode => by
    obtain ⟨_, _, rfl⟩ := Option.map_eq_some_iff.mp (mode.symm.trans isMode)
    trivial
  | .chars _ _, ⟨_, _, positive, mode⟩, m, isMode => by
    obtain rfl := Option.mem_unique mode isMode
    exact positive
  | .array _ _ elem, ⟨typed, _, _, ranges, isElem, _, mode⟩, m, isMode => by
    obtain rfl := Option.mem_unique mode isMode
    exact (typed.sized fine _ isElem).arrayOf (ModeExpr.TypedIndexes.ranges (fun s member => (fine s member).1) ranges)

end Ast

/-- Declarations pass on that modes are sized. -/
theorem inherited_sized (nodes : List (Node Note)) : Inherited Symbol.Sized nodes where
  ofVariable := by
    intro V W d m serial id _ _ _ _ isMode
    cases loc : d.loc <;> simp [View.place, variableSymbol, loc] at isMode
  ofSynonym serial id _ _ _ _ _ isMode := by cases isMode
  ofMode serial id _ fine typed mode _ m isMode := by
    obtain rfl := Option.some.inj isMode
    exact (typed.sized fine.symbols _ mode : Mode.Sized _)
  ofCounter serial id isMode := by cases isMode
  ofParam := by
    intro V q m count level position serial id _ _ _ _ isMode
    cases loc : q.loc <;> simp [paramSymbol, loc] at isMode
  ofProcedure serial _ _ _ isMode := by cases isMode

/-! ## Words that are asked for -/

namespace Ast

/-- The words that the names of a declaration ask for: one for an alias, and the size of the mode for a variable. -/
def Declaration.storage (d : Declaration Note) : Nat :=
  d.names.length * if d.loc then 1 else ((d.mode.note.mode.map Mode.exactSize).getD 0).toNat

/-- The words that are declared in a node. -/
def Node.storage : Node Note → Nat
  | declaration d => d.storage
  | _ => 0

/-- The words that a program declares. -/
def Program.storage (p : Program Note) : Nat := (p.nodes.map Node.storage).sum

/-- The words that a node asks for, those of loops included. -/
def Node.words : Node Note → Nat
  | declaration d => d.storage
  | stmt (.loop _ (some c) _ _) => c.wordCount
  | _ => 0

/-- The words that nodes ask for. -/
def wordsOf (nodes : List (Node Note)) : Nat := (nodes.map Node.words).sum

@[simp] theorem wordsOf_cons (node : Node Note) (rest : List (Node Note)) :
    wordsOf (node :: rest) = node.words + wordsOf rest := rfl

@[simp] theorem wordsOf_append (front rest : List (Node Note)) :
    wordsOf (front ++ rest) = wordsOf front + wordsOf rest := by
  simp [wordsOf]

theorem wordsOf_le_of_sublist {some nodes : List (Node Note)} (within : some.Sublist nodes) : wordsOf some ≤ wordsOf nodes :=
  (within.map Node.words).sum_le_sum fun _ _ => Nat.zero_le _

/-- Loops ask for few words. -/
theorem four_mul_wordsOf_le (nodes : List (Node Note)) :
    4 * wordsOf nodes ≤ 4 * (nodes.map Node.storage).sum + weigh nodes := by
  induction nodes with
  | nil => exact Nat.le_refl 0
  | cons node rest ih =>
    have here : 4 * node.words ≤ 4 * node.storage + node.weight := by
      unfold Node.words
      split
      · exact Nat.le_add_right _ _
      · exact Nat.le_add_left _ _
      · exact Nat.zero_le _
    simp only [wordsOf_cons, List.map_cons, List.sum_cons, weigh_cons]
    omega

end Ast

/-- Words that lie inside a frame. -/
structure Area.Inside (a : Area) (words : Int64) : Prop where
  low : 0 ≤ a.offset.toInt
  some : 1 ≤ a.size.toInt
  high : a.offset.toInt + a.size.toInt ≤ words.toInt

/-- A view from which words can be given out. -/
structure View.Room (V : View) (count : Nat) : Prop where
  low : 0 ≤ V.next.toInt
  high : V.next.toInt + count < 2 ^ 63

/-- Words are given out between two views: they lie inside the frame, and the second view is not beyond them. -/
structure View.Takes (frame : Int64) (V : View) (areas : List Area) (count : Nat) (V' : View) : Prop where
  inside : ∀ a ∈ areas, a.Inside frame
  low : 0 ≤ V'.next.toInt
  high : V'.next.toInt ≤ V.next.toInt + count

variable {frame : Int64} {V W V' : View} {areas more : List Area} {count rest : Nat}

theorem View.Room.mono {less : Nat} (room : V.Room count) (few : less ≤ count) : V.Room less :=
  ⟨room.low, by have := room.high; omega⟩

namespace View.Takes

theorem nothing (room : V.Room count) (same : V'.next = V.next) : V.Takes frame [] count V' :=
  ⟨nofun, by rw [same]; exact room.low, by rw [same]; omega⟩

/-- There is room for what follows. -/
theorem room (takes : V.Takes frame areas count V') (enough : V.Room (count + rest)) : V'.Room rest :=
  ⟨takes.low, by have := takes.high; have := enough.high; omega⟩

theorem trans (first : V.Takes frame areas count W) (second : W.Takes frame more rest V') :
    V.Takes frame (areas ++ more) (count + rest) V' where
  inside := List.forall_mem_append.mpr ⟨first.inside, second.inside⟩
  low := second.low
  high := by have := first.high; have := second.high; omega

theorem mono {less : List Area} {most : Nat} (takes : V.Takes frame areas count V') (subset : less ⊆ areas)
    (few : count ≤ most) : V.Takes frame less most V' :=
  ⟨fun a member => takes.inside a (subset member), takes.low, by have := takes.high; omega⟩

/-- One area is given out. -/
theorem one {n : Int64} (room : V.Room count) (some : 1 ≤ n.toInt) (few : n.toInt ≤ count)
    (fits : V.next + n ≤ frame) (next : V'.next = V.next + n) : V.Takes frame [⟨V.next, n⟩] n.toInt.toNat V' := by
  obtain ⟨low, high⟩ := room
  have exact : (V.next + n).toInt = V.next.toInt + n.toInt := toInt_add_of_fits (by omega) (by omega)
  rw [Int64.le_iff_toInt_le, exact] at fits
  exact ⟨List.forall_mem_singleton.mpr ⟨low, some, fits⟩, by rw [next]; omega, by rw [next]; omega⟩

end View.Takes

namespace Ast

theorem NamesSound.next_eq {make : Ident Note → Symbol} (free : ∀ id, (make id).category.hasStorage = false)
    {names : List (Ident Note)} (sound : NamesSound frame make V names V') : V'.next = V.next := by
  refine (sound.walk (I := fun W => W.next = V.next) rfl fun id _ W serial same _ _ => ?_).1
  rw [View.declare, free, ← same]
  rfl

theorem EachSound.next_eq {γ : Type} {sound : View → γ → View → Prop} {xs : List γ}
    (each : ∀ {V x V'}, sound V x V' → V'.next = V.next) (holds : EachSound sound V xs V') : V'.next = V.next :=
  (holds.walk (I := fun W => W.next = V.next) rfl fun _ _ _ _ same sound => (each sound).trans same).1

/-- Names with storage take the words of their symbols, one after the other. -/
theorem NamesSound.takes {make : Ident Note → Symbol} (stored : ∀ id, (make id).category.hasStorage = true) {n : Int64}
    (sizes : ∀ id, (make id).size = n) (some : 1 ≤ n.toInt) {names : List (Ident Note)}
    (room : V.Room (names.length * n.toInt.toNat)) (sound : NamesSound frame make V names V') :
    V.Takes frame (areasOf names) (names.length * n.toInt.toNat) V' := by
  induction names generalizing V with
  | nil =>
    cases sound
    exact .nothing room rfl
  | cons id names ih =>
    obtain ⟨serial, isSymbol, _, fits, sound⟩ := sound
    have sum : (id :: names).length * n.toInt.toNat = n.toInt.toNat + names.length * n.toInt.toNat := by
      rw [List.length_cons, Nat.succ_mul, Nat.add_comm]
    rw [sum] at room ⊢
    have first : V.Takes frame [⟨V.next, n⟩] n.toInt.toNat (V.declare { make id with serial }) := by
      refine .one room some (by omega) (sizes id ▸ fits (stored id)) ?_
      rw [← sizes id]
      exact if_pos (stored id)
    have area : areasOf (id :: names) = [⟨V.next, n⟩] ++ areasOf names := by
      rw [areasOf, List.filterMap_cons, isSymbol, ← sizes id]
      simp only [Option.map_some, Symbol.area, View.place, if_pos (stored id)]
      rfl
    rw [area]
    exact first.trans (ih (first.room room) sound)

theorem Declaration.Sound.takes {d : Declaration Note} (fine : V.Fine Symbol.Sized) (sound : d.Sound frame V V')
    (room : V.Room d.storage) : V.Takes frame (areasOf d.names) d.storage V' := by
  obtain ⟨m, typed, isMode, some, _, names⟩ := sound
  have stored : ∀ id, (variableSymbol d.loc m id).category.hasStorage = true := by
    intro id
    cases loc : d.loc <;> simp [variableSymbol] <;> rfl
  unfold Declaration.storage at room ⊢
  cases loc : d.loc with
  | true =>
    rw [loc] at names stored room
    exact names.takes stored (fun _ => rfl) (by decide) room
  | false =>
    rw [loc] at names stored room
    simp only [isMode, Option.map_some, Option.getD_some, Bool.false_eq_true, if_false] at room ⊢
    have one := (typed.sized fine.symbols m isMode).one_le_exactSize some
    cases isNames : d.names with
    | nil =>
      rw [isNames] at names
      cases names
      exact .nothing ⟨room.low, by have := room.high; rw [isNames] at this; exact this⟩ rfl
    | cons id rest =>
      have high := room.high
      rw [isNames, List.length_cons, Nat.succ_mul] at high
      have exact : m.size.toInt = m.exactSize := m.toInt_size_eq_iff.mpr ⟨by omega, by have := room.low; omega⟩
      rw [← exact] at one room ⊢
      rw [← isNames]
      exact names.takes stored (fun _ => rfl) one room

theorem ForControl.Sound.takes {c : ForControl Note} (sound : c.Sound frame V V') (room : V.Room c.wordCount) :
    V.Takes frame c.areas c.wordCount V' := by
  obtain ⟨symbol, W, _, isCounter, counter, fits, slots⟩ := sound.counter
  have one : (1 : Int64).toInt = 1 := by decide
  have words : c.wordCount = 1 + if c.step.isSome then 2 else 1 := by
    unfold ForControl.wordCount
    split <;> rfl
  rw [words] at room ⊢
  have counts : V.Takes frame (if c.note.declaresCounter then areasOf [c.counter] else []) 1 W := by
    rcases counter with ⟨_, _, _, declares, rfl⟩ | ⟨serial, _, rfl, free, declares, rfl⟩
    · rw [declares]
      exact .nothing (room.mono (by omega)) rfl
    · rw [if_pos declares, areasOf, List.filterMap_cons, isCounter]
      exact .one (n := 1) room (by omega) (by omega) free rfl
  have room := counts.room room
  have keeps : W.Takes frame ((c.note.slots.map LoopSlots.areas).getD []) (if c.step.isSome then 2 else 1) V' := by
    have first : W.Takes frame [⟨W.next, 1⟩] 1 (W.reserve 1) :=
      .one room (by omega) (by split <;> omega) fits rfl
    split at slots
    · rename_i kept
      obtain ⟨fits, isSlots, rfl⟩ := slots
      have step : c.step.isSome = true := by
        unfold ForControl.keepsStep at kept
        cases isStep : c.step with
        | none => rw [isStep] at kept; cases kept
        | some _ => rfl
      rw [step] at room ⊢
      have second : (W.reserve 1).Takes frame [⟨W.next + 1, 1⟩] 1 ((W.reserve 1).reserve 1) :=
        .one (first.room room : View.Room _ 1) (by omega) (by omega) fits rfl
      rw [isSlots]
      refine (first.trans second).mono (List.cons_subset_cons _ ?_) (Nat.le_refl _)
      split
      · exact List.Subset.refl _
      · exact List.nil_subset _
    · obtain ⟨isSlots, rfl⟩ := slots
      rw [isSlots]
      exact first.mono (List.Subset.refl _) (by split <;> omega)
  exact counts.trans keeps

theorem declarations_take {decls : List (Declaration Note)} (fine : V.Fine Symbol.Sized)
    (sound : EachSound (Declaration.Sound frame) V decls V') (room : V.Room (wordsOf (decls.flatMap Declaration.nodes))) :
    V.Takes frame (decls.flatMap fun d => areasOf d.names) (wordsOf (decls.flatMap Declaration.nodes)) V' := by
  induction decls generalizing V with
  | nil =>
    cases sound
    exact .nothing room rfl
  | cons d rest ih =>
    obtain ⟨W, first, sound⟩ := sound
    simp only [List.flatMap_cons, wordsOf_append] at room ⊢
    have few : d.storage ≤ wordsOf d.nodes := Nat.le_add_right _ _
    have takes := (first.takes fine (room.mono (by omega))).mono (List.Subset.refl _) few
    exact takes.trans (ih (first.placed (inherited_sized _) (List.Subset.refl _) fine).1 sound (takes.room room))

mutual

/-- A statement takes the words of its variables and loops. -/
theorem Stmt.Sound.takes {frame : Int64} : ∀ {s : Stmt Note} {V V' : View}, V.Fine Symbol.Sized → s.Sound frame V V' →
    V.Room (wordsOf s.nodes) → V.Takes frame s.areas (wordsOf s.nodes) V'
  | .declare note decls, V, V', fine, sound, room =>
    (declarations_take fine sound (room.mono (Nat.le_add_left _ _))).mono (List.Subset.refl _) (Nat.le_add_left _ _)
  | .synonym note defs, V, V', _, sound, room =>
    .nothing room (EachSound.next_eq (fun ⟨_, _, _, _, _, names⟩ => names.next_eq fun _ => rfl) sound)
  | .modes note defs, V, V', _, sound, room =>
    .nothing room (EachSound.next_eq (fun ⟨_, _, _, names⟩ => names.next_eq fun _ => rfl) sound)
  | .proc note name params spec body, V, V', _, sound, room => by
    obtain ⟨_, _, _, _, _, rfl, _⟩ := sound
    exact .nothing room rfl
  | .branch note arms otherwise, V, V', fine, sound, room => by
    obtain ⟨rfl, soundArms, soundElse⟩ := sound
    rw [Stmt.nodes_branch, wordsOf_cons, wordsOf_append] at room ⊢
    refine ⟨List.forall_mem_append.mpr ⟨?_, ?_⟩, room.low, by omega⟩
    · exact Stmt.SoundArms.takes fine soundArms (room.mono (by omega))
    · exact Stmt.SoundElse.takes fine soundElse (room.mono (by omega))
  | .loop note control whilst body, V, V', fine, sound, room => by
    obtain ⟨rfl, W, W', counted, _, sound⟩ := sound
    have sum : wordsOf (Stmt.loop note control whilst body).nodes = Node.words (.stmt (.loop note control whilst body)) +
        wordsOf ((control.map ForControl.nodes).getD [] ++ optionalNodes whilst) + wordsOf (Stmt.listNodes body) := by
      rw [Stmt.nodes, wordsOf_cons, wordsOf_append, Nat.add_assoc]
    rw [sum] at room ⊢
    have started : V'.Takes frame ((control.map ForControl.areas).getD []) (Node.words (.stmt (.loop note control whilst body))) W ∧
        W.Fine Symbol.Sized := by
      cases control with
      | none =>
        cases counted
        exact ⟨.nothing (room.mono (by omega)) rfl, fine⟩
      | some c => exact ⟨counted.takes (room.mono (by simp only [Node.words]; omega)), (counted.placed (inherited_sized []) fine).1⟩
    obtain ⟨first, fineW⟩ := started
    have body := Stmt.SoundList.takes fineW sound (first.room (room.mono (by omega)))
    exact ⟨(first.trans body).inside, room.low, by omega⟩
  | .assign _ _ _ _, V, V', _, ⟨same, _⟩, room | .call _ _ _ _, V, V', _, ⟨same, _⟩, room
  | .ret _ _, V, V', _, ⟨same, _⟩, room | .result _ _, V, V', _, ⟨same, _⟩, room => .nothing room (by rw [same])

theorem Stmt.SoundList.takes {frame : Int64} : ∀ {ss : List (Stmt Note)} {V V' : View}, V.Fine Symbol.Sized →
    Stmt.SoundList frame V ss V' → V.Room (wordsOf (Stmt.listNodes ss)) →
    V.Takes frame (Stmt.listAreas ss) (wordsOf (Stmt.listNodes ss)) V'
  | [], V, V', _, sound, room => by
    cases sound
    exact .nothing room rfl
  | s :: rest, V, V', fine, ⟨W, first, sound⟩, room => by
    rw [Stmt.listNodes, wordsOf_append] at room ⊢
    have takes := Stmt.Sound.takes fine first (room.mono (by omega))
    exact takes.trans (Stmt.SoundList.takes (first.placed (inherited_sized _) fine).1 sound (takes.room room))

theorem Stmt.SoundElse.takes {frame : Int64} : ∀ {body : Option (List (Stmt Note))} {V : View}, V.Fine Symbol.Sized →
    Stmt.SoundElse frame V body → V.Room (wordsOf (Stmt.elseNodes body)) → ∀ a ∈ Stmt.elseAreas body, a.Inside frame
  | none, _, _, _, _ => nofun
  | some _, _, fine, ⟨_, sound⟩, room => (Stmt.SoundList.takes fine sound room).inside

theorem Stmt.SoundArms.takes {frame : Int64} : ∀ {arms : List (CondBranch Note)} {V : View}, V.Fine Symbol.Sized →
    Stmt.SoundArms frame V arms → V.Room (wordsOf (Stmt.armNodes arms)) → ∀ a ∈ Stmt.armAreas arms, a.Inside frame
  | [], _, _, _, _ => nofun
  | .mk note test body :: rest, V, fine, ⟨_, ⟨W, sound⟩, soundRest⟩, room => by
    simp only [Stmt.armNodes, wordsOf_cons, wordsOf_append] at room
    exact List.forall_mem_append.mpr ⟨(Stmt.SoundList.takes fine sound (room.mono (by omega))).inside,
      Stmt.SoundArms.takes fine soundRest (room.mono (by omega))⟩

end

end Ast

end LyaLang
