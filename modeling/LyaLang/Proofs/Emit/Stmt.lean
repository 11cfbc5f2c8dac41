import LyaLang.Proofs.Check.Sound
import LyaLang.Proofs.Emit.Expr

/-! # Emitting statements

Emitting a sound statement with its labels never fails, and appends the code of the statement.
-/

namespace LyaLang.Ast

open Emit

variable {symbols : List Symbol}

variable {value : Expr Note} {m : Mode} {frame : Int64} {V V' : View}

theorem emitString_emits (m : Mode) (o : Option BinaryOp) (emits : Emits value.emitValue () value.valueCode) : Emits (emitString m o value) () (stringCode m o value) := by
  unfold emitString stringCode
  cases o with
  | some o => exact .step (emits.andThen (.step .one))
  | none =>
    cases value.note.constant with
    | none => exact emits.andThen .one
    | some c =>
      dsimp only
      split
      · exact pooled_emits c.text (fun a => { op := .sts, a, b := m.capacity }) rfl fun _ => rfl
      · exact emits.andThen .one

theorem emitAssignSymbol_emits {symbol : Symbol} (isMode : symbol.mode = some m) (o : Option BinaryOp)
    (emits : Emits value.emitValue () value.valueCode)
    (addressed : m.isArray = true → Emits value.emitAddress () value.addressCode) :
    Emits (emitAssignSymbol symbol o value) () (assignSymbolCode symbol o value) := by
  unfold emitAssignSymbol assignSymbolCode
  rw [isMode]
  dsimp only
  split
  · exact .step (emitString_emits m o emits)
  · split
    case isTrue array => exact .step ((addressed array).andThen .one)
    case isFalse =>
      cases o with
      | none => exact emits.andThen .one
      | some o => exact .step (emits.andThen (.step .one))

theorem emitAssignLocation_emits {target : Expr Note} (isMode : target.note.mode = some m)
    (o : Option BinaryOp) (located : Emits target.emitAddress () target.addressCode)
    (emits : Emits value.emitValue () value.valueCode)
    (addressed : m.isArray = true → Emits value.emitAddress () value.addressCode) :
    Emits (emitAssignLocation target o value) () (assignLocationCode target o value) := by
  unfold emitAssignLocation assignLocationCode
  rw [isMode]
  dsimp only
  refine located.andThen ?_
  split
  · exact emitString_emits m o emits
  · split
    case isTrue array => exact (addressed array).andThen .one
    case isFalse =>
      cases o with
      | none => exact emits.andThen .one
      | some o => exact .step (.step (emits.andThen (.step .one)))

theorem emitAssign_emits (good : ∀ s ∈ symbols, s.Good) {target : Expr Note} {o : Option BinaryOp}
    (sound : AssignSound symbols target o value) (labeled : Labeled (target.map Note.origin).nodes)
    (labeled' : Labeled (value.map Note.origin).nodes) :
    Emits (emitAssign target o value) () (assignCode target o value) := by
  have emits := sound.assigned.1.emits good labeled'
  obtain ⟨m, isMode, _⟩ := sound.typed.hasMode good
  have addressed : m.isArray = true → Emits value.emitAddress () value.addressCode := by
    intro array
    obtain ⟨_, _, location, _⟩ := sound.array (by rw [Expr.type, type_of_mode isMode]; exact array)
    exact sound.assigned.1.emitsAddress good location labeled'
  cases target with
  | ident id =>
    obtain ⟨symbol, _, isSymbol, _, same, _⟩ := sound.typed
    rw [emitAssign, assignCode, isSymbol]
    exact emitAssignSymbol_emits (same.symm.trans isMode) o emits addressed
  | _ =>
    exact emitAssignLocation_emits isMode o (sound.typed.emitsAddress good sound.location labeled) emits addressed

theorem initials_emit (good : ∀ s ∈ symbols, s.Good) {loc : Bool} {init : Expr Note}
    (sound : InitialSound symbols loc m (some init)) (labeled : Labeled (init.map Note.origin).nodes)
    {names : List (Ident Note)} (named : NamesSound frame (variableSymbol loc m) V names V') :
    Emits (names.forM (emitInitial loc init)) () (names.flatMap (initialCode loc init)) := by
  obtain ⟨typed, _, location⟩ := sound
  induction names generalizing V with
  | nil => exact .pure ()
  | cons id rest ih =>
    obtain ⟨serial, isSymbol, _, _, named⟩ := named
    refine Emits.andThen ?_ (ih named)
    unfold emitInitial initialCode
    rw [isSymbol]
    cases loc with
    | true => exact (typed.emitsAddress good (location (.inl rfl)).1 labeled).andThen .one
    | false =>
      have isMode : (V.place { variableSymbol false m id with serial }).mode = some m := rfl
      refine emitAssignSymbol_emits isMode none (typed.emits good labeled) fun array => ?_
      exact typed.emitsAddress good (location (.inr array)).1 labeled

theorem Declaration.Sound.emits (good : V.Good) {d : Declaration Note}
    (sound : d.Sound frame V V') (labeled : Labeled (d.map Note.origin).nodes) : Emits d.emit () d.code := by
  obtain ⟨m, _, _, _, initial, named⟩ := sound
  unfold Declaration.emit Declaration.code
  cases isInit : d.init with
  | none => exact .pure ()
  | some init =>
    rw [isInit] at initial
    exact initials_emit good initial (labeled.tail.right.optional isInit) named

theorem emitResult_emits (good : V.Good) {action : String} {note : Note} {value : Option (Expr Note)}
    (sound : ResultSound V note value) (labeled : Labeled (optionalNodes (value.map (Expr.map Note.origin)))) :
    Emits (emitResult action note value) () (resultCode note value) := by
  obtain ⟨f, p, _, isSymbol, isProc, values⟩ := sound
  unfold emitResult resultCode
  rw [isSymbol]
  cases value with
  | none =>
    simp only [Option.bind_some, isProc]
    exact .pure ()
  | some e =>
    obtain ⟨⟨typed, _⟩, _, location⟩ := values e rfl
    simp only [Option.bind_some, isProc]
    refine (required_emits rfl).bind ?_
    cases loc : p.resultLoc with
    | true => exact (typed.emitsAddress good (location loc).1 labeled).andThen .one
    | false => exact (typed.emits good labeled).andThen .one

theorem ForControl.Sound.emits (good : V.Good) {f : ForControl Note}
    (sound : f.Sound frame V V') (labeled : Labeled (f.map Note.origin).nodes) (start test stop : Int64) :
    Emits (f.emit start test stop) () (f.code start test stop) := by
  obtain ⟨counter, W, isCounter, _⟩ := sound.counter
  have clauses := labeled.tail.tail
  have stepEmits : ∀ e, f.step = some e → Emits e.emitValue () e.valueCode := fun e isStep =>
    (sound.step e isStep).1.emits good (clauses.left.right.optional isStep)
  unfold ForControl.emit ForControl.code ForControl.stepDraft
  rw [isCounter]
  generalize f.note.slots.getD ⟨0, 0, 0⟩ = slots
  have test' : Emits
      (do op (if f.down then .sub else .add)
          storeScalar counter
          op1 .lbl test
          loadScalar counter
          op2 .ldv slots.level slots.stop
          op (if f.down then .gre else .leq)
          op1 .jof stop) ()
      [.op (if f.down then .sub else .add), counter.storeDraft, .op1 .lbl test, counter.loadDraft,
        .op2 .ldv slots.level slots.stop, .op (if f.down then .gre else .leq), .op1 .jof stop] :=
    .step (.step (.step (.step (.step (.step .one)))))
  refine (sound.start.1.emits good clauses.left.left).andThen ((required_emits rfl).bind (.step
    ((sound.stop.1.emits good clauses.right).andThen (.step ?_))))
  by_cases kept : slots.step ≥ 0
  · simp only [kept, if_true]
    cases isStep : f.step with
    | none => exact (Emits.pure ()).andThen (.step (.step (.step (.step (.step test')))))
    | some e =>
      refine Emits.draft_eq ?_ (List.append_assoc _ _ _).symm
      exact (stepEmits e isStep).andThen (.step (.step (.step (.step (.step test')))))
  · simp only [kept, if_false]
    cases isStep : f.step with
    | none => exact .step (.step (.step (.step test')))
    | some e => exact .step (.step (.step ((constant_emits _).andThen test')))

theorem declarations_emit (good : V.Good) {ds : List (Declaration Note)}
    (sound : EachSound (Declaration.Sound frame) V ds V')
    (labeled : Labeled ((ds.map (Declaration.map Note.origin)).flatMap Declaration.nodes)) :
    Emits (ds.forM Declaration.emit) () (ds.flatMap Declaration.code) := by
  induction ds generalizing V with
  | nil => exact .pure ()
  | cons d rest ih =>
    obtain ⟨W, first, sound⟩ := sound
    exact (first.emits good labeled.left).andThen (ih (first.good good) sound labeled.right)

mutual

/-- Emitting a sound statement appends its code. -/
theorem Stmt.Sound.emits {frame : Int64} : ∀ {s : Stmt Note} {V V' : View}, V.Good → s.Sound frame V V' →
    Labeled (s.map Note.origin).nodes → Emits s.emit () s.code
  | .declare _ _, _, _, good, sound, labeled => .atLine (declarations_emit good sound labeled.tail)
  | .synonym _ _, _, _, _, _, _ | .modes _ _, _, _, _, _, _ => .line
  | .proc note name params spec body, V, V', good, sound, labeled => by
    obtain ⟨⟨first, own⟩, labeled⟩ := labeled_cons.mp labeled
    obtain ⟨serial, p, words, W, W', rfl, isSymbol, _, header, isFrame, _, paramsSound, sound⟩ := sound
    have goodBody : W.Good := paramsSound.good ((good.declare (header.goodSymbol name) serial).enter _)
    rw [Stmt.emit, Stmt.code, isSymbol]
    refine .atLine ((required_emits rfl).bind ((firstLabel_emits own).bind (.step (.step (.step (.step ?_))))))
    exact (sound.emits goodBody labeled.tail.right).andThen (.atLine (.step (.step (.step .one))))
  | .assign _ _ _ _, _, _, good, sound, labeled =>
    .atLine (emitAssign_emits good sound.2 labeled.tail.left labeled.tail.right)
  | .branch note arms otherwise, V, V', good, sound, labeled => by
    have nodes := Stmt.nodes_branch (note.origin) (Stmt.mapArms Note.origin arms) (Stmt.mapElse Note.origin otherwise)
    obtain ⟨⟨first, own⟩, labeled⟩ := labeled_cons.mp (nodes ▸ labeled)
    have emitsElse := sound.2.2.emits good labeled.right
    rw [Stmt.emit]
    refine .atLine ((firstLabel_emits (if_neg (Nat.succ_ne_zero _) ▸ own)).bind ?_)
    refine (sound.2.1.emits good labeled.left _ _).andThen ?_
    cases otherwise with
    | none => exact emitsElse.andThen .one
    | some body => exact emitsElse.andThen .one
  | .loop note control whilst body, V, V', good, sound, labeled => by
    obtain ⟨⟨first, own⟩, labeled⟩ := labeled_cons.mp labeled
    obtain ⟨_, W, W', controlled, tested, sound⟩ := sound
    have goodBody : W.Good := View.Good.inLoop good controlled
    refine .atLine ((firstLabel_emits own).bind ?_)
    have tested' : Emits
        (match whilst with
          | none => do
            Stmt.emitList body
            atLine note.line
            op1 .jmp note.firstLabel
            op1 .lbl (note.firstLabel + 2)
          | some e => do
            e.emitValue
            op1 .jof (note.firstLabel + 2)
            Stmt.emitList body
            atLine note.line
            op1 .jmp note.firstLabel
            op1 .lbl (note.firstLabel + 2)) ()
        (whilstCode (note.firstLabel + 2) whilst ++
          (Stmt.listCode body ++ [.op1 .jmp note.firstLabel, .op1 .lbl (note.firstLabel + 2)])) := by
      have body' := sound.emits goodBody labeled.right
      cases whilst with
      | none => exact body'.andThen (.atLine (.step .one))
      | some e =>
        refine Emits.draft_eq ?_ (List.append_assoc _ _ _).symm
        exact ((tested e rfl).1.emits goodBody labeled.left.right).andThen
          (.step (body'.andThen (.atLine (.step .one))))
    cases control with
    | none => exact .step tested'
    | some f => exact (controlled.emits good labeled.left.left _ _ _).andThen tested'
  | .call note callNote callee args, V, V', good, sound, labeled => by
    obtain ⟨_, typedArgs, call, _⟩ := sound
    refine .atLine ((emitCall_emits call fun how fits =>
      typedArgs.emitsArguments good labeled.tail.tail.tail fits).bind ?_)
    cases callLeaves callee with
    | true => exact .one
    | false => exact .pure ()
  | .ret note value, V, V', good, sound, labeled => by
    have emits : Emits (emitResult "return" note value) () (resultCode note value) :=
      emitResult_emits good sound.2 labeled.tail
    obtain ⟨_, f, p, _, isSymbol, isProc, _⟩ := sound
    have found := bind_proc isSymbol isProc
    refine .atLine (emits.andThen ?_)
    rw [found, isSymbol]
    exact (required_emits isProc).bind .one
  | .result _ _, _, _, good, sound, labeled => .atLine (emitResult_emits good sound.2 labeled.tail)

theorem Stmt.SoundList.emits {frame : Int64} : ∀ {ss : List (Stmt Note)} {V V' : View}, V.Good →
    Stmt.SoundList frame V ss V' → Labeled (Stmt.listNodes (Stmt.mapList Note.origin ss)) →
    Emits (Stmt.emitList ss) () (Stmt.listCode ss)
  | [], _, _, _, _, _ => .pure ()
  | _ :: _, _, _, good, sound, labeled => by
    obtain ⟨W, first, sound⟩ := sound
    exact (first.emits good labeled.left).andThen (sound.emits (first.good good) labeled.right)

theorem Stmt.SoundElse.emits {frame : Int64} : ∀ {otherwise : Option (List (Stmt Note))} {V : View}, V.Good →
    Stmt.SoundElse frame V otherwise → Labeled (Stmt.elseNodes (Stmt.mapElse Note.origin otherwise)) →
    Emits (match otherwise with
      | none => pure ()
      | some body => Stmt.emitList body) () (Stmt.elseCode otherwise)
  | none, _, _, _, _ => .pure ()
  | some _, _, good, sound, labeled => by
    obtain ⟨W, sound⟩ := sound
    exact sound.emits good labeled

theorem Stmt.SoundArms.emits {frame : Int64} : ∀ {arms : List (CondBranch Note)} {V : View}, V.Good →
    Stmt.SoundArms frame V arms → Labeled (Stmt.armNodes (Stmt.mapArms Note.origin arms)) → ∀ exit label,
    Emits (Stmt.emitArms exit label arms) () (Stmt.armsCode exit label arms)
  | [], _, _, _, _, _, _ => .pure ()
  | .mk _ _ _ :: _, V, good, sound, labeled, exit, label => by
    obtain ⟨typed, ⟨W, sound⟩, rest⟩ := sound
    exact (typed.1.emits good labeled.tail.left.left).andThen (.step ((sound.emits good labeled.tail.left.right).andThen
      (.step (.step (rest.emits good labeled.tail.right exit (label + 1))))))

end

/-- Emitting a sound program appends its code. -/
theorem Program.Sound.emits {p : Program Note} (good : V.Good) (sound : p.Sound V)
    (labeled : Labeled (p.map Note.origin).nodes) : Emits p.emit () p.code := by
  obtain ⟨words, W, _, _, sound⟩ := sound
  exact .step ((sound.emits good labeled.tail).andThen (.step .one))

end LyaLang.Ast
