import LyaLang.Proofs.Compile
import LyaLang.Proofs.Emit.Labels
import LyaLang.Proofs.Machine.Labels

/-! # Which programs link

A valid program links unless one of its declarations initializes several names by an expression with a
conditional part. In that case the code defines the labels of the initializer once for each name, and the
program is refused for a label with two definitions. Jumps and calls always have their label.
-/

namespace LyaLang

open Ast

variable {frame : Int64} {V V' : View} {d : Declaration Note}

variable {ds : List (Declaration Note)} {value : Expr Note}

namespace Ast

variable {symbols : List Symbol}

/-! ## Labels of declarations -/

/-- The initialization of one name defines each label of the initializer once. -/
theorem defines_initialCode (good : ∀ s ∈ symbols, s.Good) {loc : Bool} {m : Mode} {init : Expr Note}
    (sound : InitialSound symbols loc m (some init)) {id : Ident Note} {symbol : Symbol}
    (isSymbol : id.note.symbol = some symbol) (isMode : symbol.mode = some m) :
    defines (initialCode loc init id) = claims init.nodes := by
  obtain ⟨typed, _, located⟩ := sound
  have valued := Expr.defines_valueCode good typed
  unfold initialCode
  rw [isSymbol]
  cases loc with
  | true => simp [Expr.defines_addressCode good typed (located (.inl rfl)).1]
  | false =>
    simp only [Bool.false_eq_true, if_false, assignSymbolCode, isMode]
    split
    · unfold stringCode
      cases isConstant : init.note.constant with
      | none => simp [valued]
      | some k =>
        dsimp only
        split
        · simp [Expr.claims_of_constant typed isConstant]
        · simp [valued]
    · split
      case isTrue array => simp [Expr.defines_addressCode good typed (located (.inr array)).1]
      case isFalse => simp [valued]

/-- The initializations of several names define the labels of the initializer once for each name. -/
theorem Declaration.defines_code (good : V.Good)
    (sound : d.Sound frame V V') {init : Expr Note} (isInit : d.init = some init) :
    defines d.code = d.names.length • claims init.nodes := by
  obtain ⟨m, _, _, _, initial, named⟩ := sound
  rw [isInit] at initial
  rw [Declaration.code, isInit]
  dsimp only
  have each : ∀ id ∈ d.names, defines (initialCode d.loc init id) = claims init.nodes := by
    intro id member
    obtain ⟨symbol, isSymbol, _, isMode⟩ := named.symbol_of_mem member
    exact defines_initialCode good initial isSymbol isMode
  generalize d.names = names at each ⊢
  induction names with
  | nil => simp
  | cons id rest ih =>
    obtain ⟨first, others⟩ := List.forall_mem_cons.mp each
    rw [List.flatMap_cons, defines_append, first, ih others, List.length_cons, succ_nsmul']

/-- A declaration that repeats no labels defines each of its labels at most once. -/
theorem Declaration.defines_code_le (good : V.Good)
    (sound : d.Sound frame V V') (single : d.repeatsLabels = false) : defines d.code ≤ claims d.nodes := by
  cases isInit : d.init with
  | none =>
    rw [Declaration.code, isInit]
    exact Multiset.zero_le _
  | some init =>
    have part : claims init.nodes ≤ claims d.nodes := by
      rw [Declaration.nodes, claims_plain rfl, isInit, claims_append]
      exact le_add_of_nonneg_left (Multiset.zero_le _)
    rw [Declaration.defines_code good sound isInit]
    rw [Declaration.repeatsLabels, isInit, Bool.and_eq_false_iff, decide_eq_false_iff_not] at single
    rcases single with few | plain
    · have count : d.names.length = 0 ∨ d.names.length = 1 := by omega
      rcases count with zero | one
      · rw [zero]
        exact Multiset.zero_le _
      · rwa [one]
    · rw [Expr.claims_eq_zero_iff.mpr plain, nsmul_zero]
      exact Multiset.zero_le _

theorem declarations_define_le (good : V.Good) (sound : EachSound (Declaration.Sound frame) V ds V') (single : ∀ d ∈ ds, d.repeatsLabels = false) :
    defines (ds.flatMap Declaration.code) ≤ claims (ds.flatMap Declaration.nodes) := by
  induction ds generalizing V with
  | nil => exact le_rfl
  | cons d rest ih =>
    obtain ⟨W, first, sound⟩ := sound
    obtain ⟨singleFirst, singleRest⟩ := List.forall_mem_cons.mp single
    rw [List.flatMap_cons, List.flatMap_cons, defines_append, claims_append]
    exact add_le_add (d.defines_code_le good first singleFirst) (ih (first.good good) sound singleRest)

/-! ## Labels of actions -/

theorem defines_stringCode_le (m : Mode) (o : Option BinaryOp) (value : Expr Note) :
    defines (stringCode m o value) ≤ defines value.valueCode := by
  unfold stringCode
  split
  · simp
  · split
    · split <;> simp
    · simp

theorem defines_assignSymbolCode_le (symbol : Symbol) (o : Option BinaryOp) {labels : Multiset Int64} (valued : defines value.valueCode = labels)
    (addressed : ∀ m, symbol.mode = some m → m.isArray = true → defines value.addressCode = labels) :
    defines (assignSymbolCode symbol o value) ≤ labels := by
  unfold assignSymbolCode
  cases isMode : symbol.mode with
  | none => exact Multiset.zero_le _
  | some m =>
    dsimp only
    split
    · rw [defines_addressDraft]
      exact (defines_stringCode_le m o value).trans valued.le
    · split
      case isTrue array => simp [addressed m isMode array]
      case isFalse => split <;> simp [valued]

theorem defines_assignLocationCode_le (target : Expr Note) (o : Option BinaryOp) {labels : Multiset Int64} (valued : defines value.valueCode = labels)
    (addressed : ∀ m, target.note.mode = some m → m.isArray = true → defines value.addressCode = labels) :
    defines (assignLocationCode target o value) ≤ defines target.addressCode + labels := by
  unfold assignLocationCode
  rw [defines_append]
  refine add_le_add le_rfl ?_
  cases isMode : target.note.mode with
  | none => exact Multiset.zero_le _
  | some m =>
    dsimp only
    split
    · exact (defines_stringCode_le m o value).trans valued.le
    · split
      case isTrue array => simp [addressed m isMode array]
      case isFalse => split <;> simp [valued]

theorem defines_assignCode_le (good : ∀ s ∈ symbols, s.Good) {target : Expr Note} {o : Option BinaryOp}
    (sound : AssignSound symbols target o value) :
    defines (assignCode target o value) ≤ claims target.nodes + claims value.nodes := by
  have valued := Expr.defines_valueCode good sound.assigned.1
  have addressed : ∀ m, target.note.mode = some m → m.isArray = true → defines value.addressCode = claims value.nodes := by
    intro m isMode array
    have isArray : target.type.isArray = true := by
      rw [show target.type = m.type from type_of_mode isMode]
      exact array
    obtain ⟨_, _, isLocation, _⟩ := sound.array isArray
    exact Expr.defines_addressCode good sound.assigned.1 isLocation
  rw [← Expr.defines_addressCode good sound.typed sound.location]
  cases target with
  | ident id =>
    obtain ⟨symbol, _, isSymbol, _, sameMode, _⟩ := sound.typed
    rw [assignCode, isSymbol]
    refine (defines_assignSymbolCode_le symbol o valued fun m isMode => ?_).trans (le_add_of_nonneg_left (Multiset.zero_le _))
    exact addressed m (sameMode.trans isMode)
  | _ => exact defines_assignLocationCode_le _ o valued addressed

theorem defines_resultCode_le (good : V.Good) {note : Note} {value : Option (Expr Note)}
    (sound : ResultSound V note value) : defines (resultCode note value) ≤ claims (optionalNodes value) := by
  obtain ⟨f, p, _, isSymbol, isProc, values⟩ := sound
  unfold resultCode
  cases value with
  | none => cases note.symbol.bind (·.proc) <;> exact Multiset.zero_le _
  | some e =>
    obtain ⟨⟨typed, _⟩, _, located⟩ := values e rfl
    have found := bind_proc isSymbol isProc
    rw [found]
    dsimp only
    split
    case isTrue loc => simp [Expr.defines_addressCode good typed (located loc).1, optionalNodes]
    case isFalse => simp [Expr.defines_valueCode good typed, optionalNodes]

/-- The start of a counted loop defines two labels and those of its parts. -/
theorem ForControl.defines_code_le (good : V.Good) {f : ForControl Note}
    (sound : f.Sound frame V V') (start test stop : Int64) :
    defines (f.code start test stop) ≤ {start} + {test} + claims f.nodes := by
  obtain ⟨symbol, _, isSymbol, _⟩ := sound.counter
  have step : ∀ slots rest, defines (f.stepDraft slots :: rest) = defines rest := by
    intro slots rest
    unfold ForControl.stepDraft
    split
    · simp
    · split <;> simp
  have direction : ∀ (a b : Opcode) (rest : List Draft), a ≠ .lbl → b ≠ .lbl →
      defines (.op (if f.down = true then a else b) :: rest) = defines rest := by
    intro a b rest left right
    split
    · exact defines_op left rest
    · exact defines_op right rest
  have stepped : defines (if (f.note.slots.getD ⟨0, 0, 0⟩).step ≥ 0 then
      (f.step.map Expr.valueCode).getD [] ++
        [Draft.op2 .stv (f.note.slots.getD ⟨0, 0, 0⟩).level (f.note.slots.getD ⟨0, 0, 0⟩).step] else []) ≤
      claims (optionalNodes f.step) := by
    split
    · cases isStep : f.step with
      | none => simp
      | some e => simp [Expr.defines_valueCode good (sound.step e isStep).1, optionalNodes]
    · exact Multiset.zero_le _
  unfold ForControl.code
  rw [isSymbol, ForControl.nodes, claims_plain rfl, claims_plain rfl, claims_append, claims_append]
  simp only [defines_append, defines_storeDraft, defines_op1, defines_op2, ne_eq, reduceCtorEq, not_false_eq_true,
    defines_label, defines_loadDraft, defines_nil, step, direction, Expr.defines_valueCode good sound.start.1,
    Expr.defines_valueCode good sound.stop.1]
  refine (add_le_add le_rfl (add_le_add le_rfl (add_le_add stepped le_rfl))).trans (le_of_eq ?_)
  abel

theorem labelRun_three (first : Int64) :
    (labelRun first 3 : Multiset Int64) = {first} + {first + 1} + {first + 2} := by
  have three : labelRun first 3 = [first, first + 1, first + 2] := by simp [labelRun, List.range_succ]
  rw [three]
  rfl

/-! ## Labels of statements -/

mutual

/-- A statement without repeated labels defines each of its labels at most once. -/
theorem Stmt.Sound.defines_le {frame : Int64} :
    ∀ {s : Stmt Note} {V V' : View}, s.Sound frame V V' → V.Good → (∀ d ∈ s.declarations, d.repeatsLabels = false) →
      defines s.code ≤ claims s.nodes
  | .declare note decls, V, V', sound, good, single => by
    exact declarations_define_le good sound single
  | .synonym note _, _, _, _, _, _ | .modes note _, _, _, _, _, _ => Multiset.zero_le _
  | .proc note name params spec body, V, V', sound, good, single => by
    obtain ⟨serial, p, words, W, W', rfl, isSymbol, _, header, isFrame, _, paramsSound, sound⟩ := sound
    have goodBody : W.Good := paramsSound.good ((good.declare (header.goodSymbol name) serial).enter _)
    have isProc : note.symbol.bind (·.proc) = some p := bind_proc isSymbol rfl
    have bodyLabels := sound.defines_le goodBody single
    rw [Stmt.nodes, claims_cons, claims_plain rfl, claims_append, Stmt.code, isProc,
      show Node.labelBudget _ = 3 from rfl, labelRun_three]
    simp only [defines_append, defines_op1, defines_op2, ne_eq, reduceCtorEq, not_false_eq_true, defines_label,
      defines_nil, Node.note, Stmt.note]
    refine le_trans (le_of_eq ?_) (add_le_add le_rfl (add_le_add (Multiset.zero_le _) bodyLabels))
    abel
  | .assign note target o value, V, V', sound, good, _ => by
    rw [Stmt.nodes, claims_plain rfl, claims_append]
    exact defines_assignCode_le good sound.2
  | .branch note arms otherwise, V, V', sound, good, single => by
    obtain ⟨_, soundArms, soundElse⟩ := sound
    obtain ⟨singleArms, singleElse⟩ := List.forall_mem_append.mp single
    have armLabels := soundArms.defines_le good singleArms
      (note.firstLabel + Int64.ofNat arms.length) note.firstLabel
    rw [Stmt.nodes_branch, claims_cons, claims_append, Stmt.code, show Node.labelBudget _ = arms.length + 1 from rfl,
      labelRun_last]
    simp only [defines_append, defines_label, defines_nil, Node.note, Stmt.note]
    refine (add_le_add armLabels (add_le_add (soundElse.defines_le good singleElse) le_rfl)).trans
      (le_of_eq ?_)
    abel
  | .loop note control whilst body, V, V', sound, good, single => by
    obtain ⟨_, W, W', controlled, tested, sound⟩ := sound
    have goodBody : W.Good := View.Good.inLoop good controlled
    have controlLabels : defines (controlCode note.firstLabel control) ≤
        {note.firstLabel} + {note.firstLabel + 1} + claims ((control.map ForControl.nodes).getD []) := by
      cases control with
      | none => simp [controlCode]
      | some f => exact f.defines_code_le good controlled _ _ _
    have whilstLabels : defines (whilstCode (note.firstLabel + 2) whilst) ≤ claims (optionalNodes whilst) := by
      cases whilst with
      | none => exact Multiset.zero_le _
      | some e => simp [whilstCode, Expr.defines_valueCode goodBody (tested e rfl).1, optionalNodes]
    have bodyLabels := sound.defines_le goodBody single
    rw [Stmt.nodes, claims_cons, claims_append, claims_append, Stmt.code, show Node.labelBudget _ = 3 from rfl,
      labelRun_three]
    simp only [defines_append, defines_op1, ne_eq, reduceCtorEq, not_false_eq_true, defines_label, defines_nil, Node.note,
      Stmt.note]
    refine (add_le_add controlLabels (add_le_add whilstLabels (add_le_add bodyLabels le_rfl))).trans (le_of_eq ?_)
    abel
  | .call note callNote callee args, V, V', sound, good, _ => by
    have plain : defines (if callLeaves callee then [Draft.op1 .dlc 1] else []) = 0 := by split <;> simp
    rw [Stmt.nodes, claims_plain rfl, ← Expr.defines_valueCode good sound.2, Stmt.code, defines_append, plain, add_zero,
      Expr.valueCode, defines_append]
    exact le_add_of_nonneg_right (Multiset.zero_le _)
  | .ret note value, V, V', sound, good, _ => by
    have labels := defines_resultCode_le good sound.2
    rw [Stmt.nodes, claims_plain rfl, Stmt.code]
    split <;> simpa using labels
  | .result note value, V, V', sound, good, _ => by
    exact defines_resultCode_le good sound.2

theorem Stmt.SoundList.defines_le {frame : Int64} :
    ∀ {ss : List (Stmt Note)} {V V' : View}, Stmt.SoundList frame V ss V' → V.Good →
      (∀ d ∈ Stmt.listDeclarations ss, d.repeatsLabels = false) →
      defines (Stmt.listCode ss) ≤ claims (Stmt.listNodes ss)
  | [], _, _, _, _, _ => Multiset.zero_le _
  | s :: rest, V, V', sound, good, single => by
    obtain ⟨W, first, sound⟩ := sound
    obtain ⟨singleFirst, single⟩ := List.forall_mem_append.mp single
    rw [Stmt.listNodes, claims_append, Stmt.listCode, defines_append]
    exact add_le_add (first.defines_le good singleFirst) (sound.defines_le (first.good good) single)

theorem Stmt.SoundElse.defines_le {frame : Int64} :
    ∀ {otherwise : Option (List (Stmt Note))} {V : View}, Stmt.SoundElse frame V otherwise → V.Good →
      (∀ d ∈ Stmt.elseDeclarations otherwise, d.repeatsLabels = false) →
      defines (Stmt.elseCode otherwise) ≤ claims (Stmt.elseNodes otherwise)
  | none, _, _, _, _ => Multiset.zero_le _
  | some _, _, ⟨_, sound⟩, good, single => sound.defines_le good single

theorem Stmt.SoundArms.defines_le {frame : Int64} :
    ∀ {arms : List (CondBranch Note)} {V : View}, Stmt.SoundArms frame V arms → V.Good →
      (∀ d ∈ Stmt.armDeclarations arms, d.repeatsLabels = false) → ∀ exit label : Int64,
      defines (Stmt.armsCode exit label arms) ≤
        labelRun label arms.length + claims (Stmt.armNodes arms)
  | [], _, _, _, _, _, _ => Multiset.zero_le _
  | .mk note test body :: rest, V, sound, good, single, exit, label => by
    obtain ⟨typed, ⟨_, soundBody⟩, soundRest⟩ := sound
    obtain ⟨singleBody, singleRest⟩ := List.forall_mem_append.mp single
    have testLabels := Expr.defines_valueCode good typed.1
    have bodyLabels := soundBody.defines_le good singleBody
    have restLabels := soundRest.defines_le good singleRest exit (label + 1)
    rw [Stmt.armNodes, claims_plain rfl, Stmt.armsCode, List.length_cons, labelRun_succ, claims_append, claims_append]
    simp only [defines_append, defines_op1, ne_eq, reduceCtorEq, not_false_eq_true, defines_label]
    refine (add_le_add testLabels.le (add_le_add bodyLabels (add_le_add le_rfl restLabels))).trans (le_of_eq ?_)
    abel

end

/-! ## Repeated labels -/

/-- Each of the declarations is sound and stands in the code. -/
def StandIn (ds : List (Declaration Note)) (code : List Draft) : Prop :=
  ∀ d ∈ ds, ∃ frame V V', V.Good ∧ d.Sound frame V V' ∧ d.code.Sublist code

namespace StandIn

variable {ds ds' : List (Declaration Note)} {code code' : List Draft}

theorem nil : StandIn [] code := fun _ member => by cases member

theorem mono (stand : StandIn ds code) (part : code.Sublist code') : StandIn ds code' := by
  intro d member
  obtain ⟨frame, V, V', good, sound, within⟩ := stand d member
  exact ⟨frame, V, V', good, sound, within.trans part⟩

theorem append (first : StandIn ds code) (rest : StandIn ds' code') : StandIn (ds ++ ds') (code ++ code') :=
  List.forall_mem_append.mpr
    ⟨first.mono (List.sublist_append_left _ _), rest.mono (List.sublist_append_right _ _)⟩

end StandIn

theorem EachSound.standIn (good : V.Good) (sound : EachSound (Declaration.Sound frame) V ds V') : StandIn ds (ds.flatMap Declaration.code) := by
  induction ds generalizing V with
  | nil => exact .nil
  | cons d rest ih =>
    obtain ⟨W, first, sound⟩ := sound
    have single : StandIn [d] d.code := List.forall_mem_singleton.mpr ⟨frame, V, W, good, first, .refl _⟩
    exact single.append (ih (first.good good) sound)

mutual

/-- The declarations of a sound statement are sound and stand in its code. -/
theorem Stmt.Sound.standIn {frame : Int64} :
    ∀ {s : Stmt Note} {V V' : View}, s.Sound frame V V' → V.Good → StandIn s.declarations s.code
  | .declare _ _, _, _, sound, good => EachSound.standIn good sound
  | .synonym _ _, _, _, _, _ | .modes _ _, _, _, _, _ | .assign _ _ _ _, _, _, _, _ | .call _ _ _ _, _, _, _, _
  | .ret _ _, _, _, _, _ | .result _ _, _, _, _, _ => .nil
  | .proc note name params spec body, V, V', sound, good => by
    obtain ⟨serial, p, words, W, W', rfl, isSymbol, _, header, _, _, paramsSound, sound⟩ := sound
    have goodBody : W.Good := paramsSound.good ((good.declare (header.goodSymbol name) serial).enter _)
    have isProc : note.symbol.bind (·.proc) = some p := bind_proc isSymbol rfl
    refine (sound.standIn goodBody).mono ?_
    rw [Stmt.code, isProc]
    exact ((((List.sublist_append_left _ _).cons _).cons _).cons _).cons _
  | .branch note arms otherwise, V, V', ⟨_, soundArms, soundElse⟩, good =>
    (soundArms.standIn good _ _).append ((soundElse.standIn good).mono (List.sublist_append_left _ _))
  | .loop note control whilst body, V, V', sound, good => by
    obtain ⟨_, W, W', controlled, tested, sound⟩ := sound
    refine (sound.standIn (View.Good.inLoop good controlled)).mono ?_
    exact (List.sublist_append_left _ _).trans ((List.sublist_append_right _ _).trans (List.sublist_append_right _ _))

theorem Stmt.SoundList.standIn {frame : Int64} :
    ∀ {ss : List (Stmt Note)} {V V' : View}, Stmt.SoundList frame V ss V' → V.Good →
      StandIn (Stmt.listDeclarations ss) (Stmt.listCode ss)
  | [], _, _, _, _ => .nil
  | _ :: _, _, _, ⟨_, first, sound⟩, good => (first.standIn good).append (sound.standIn (first.good good))

theorem Stmt.SoundElse.standIn {frame : Int64} :
    ∀ {otherwise : Option (List (Stmt Note))} {V : View}, Stmt.SoundElse frame V otherwise → V.Good →
      StandIn (Stmt.elseDeclarations otherwise) (Stmt.elseCode otherwise)
  | none, _, _, _ => .nil
  | some _, _, ⟨_, sound⟩, good => sound.standIn good

theorem Stmt.SoundArms.standIn {frame : Int64} :
    ∀ {arms : List (CondBranch Note)} {V : View}, Stmt.SoundArms frame V arms → V.Good → ∀ exit label : Int64,
      StandIn (Stmt.armDeclarations arms) (Stmt.armsCode exit label arms)
  | [], _, _, _, _, _ => .nil
  | .mk note test body :: rest, V, ⟨_, ⟨_, soundBody⟩, soundRest⟩, good, exit, label => by
    refine StandIn.mono ?_ (((List.Sublist.refl _).cons _).trans (List.sublist_append_right _ _))
    exact (soundBody.standIn good).append
      ((soundRest.standIn good exit (label + 1)).mono (((List.Sublist.refl _).cons _).cons _))

end

/-- Code in which a declaration repeats labels defines a label twice. -/
theorem StandIn.not_nodup {code : List Draft} (stand : StandIn ds code)
    (member : d ∈ ds) (repeats : d.repeatsLabels = true) : ¬ (definedLabels code).Nodup := by
  obtain ⟨frame, V, V', good, sound, part⟩ := stand d member
  cases isInit : d.init with
  | none => simp [Declaration.repeatsLabels, isInit] at repeats
  | some init =>
    simp only [Declaration.repeatsLabels, isInit, Option.any_some, Bool.and_eq_true, decide_eq_true_eq] at repeats
    obtain ⟨several, conditional⟩ := repeats
    have some : claims init.nodes ≠ 0 := fun none =>
      Bool.noConfusion (conditional.symm.trans (Expr.claims_eq_zero_iff.mp none))
    obtain ⟨l, owned⟩ := Multiset.exists_mem_of_ne_zero some
    have counted : (definedLabels d.code).count l = d.names.length * (claims init.nodes).count l := by
      rw [← Multiset.coe_count, ← Multiset.count_nsmul]
      exact congrArg _ (Declaration.defines_code good sound isInit)
    have twice : 2 ≤ (definedLabels d.code).count l :=
      counted ▸ Nat.mul_le_mul several (Multiset.count_pos.mpr owned)
    have within := (part.filterMap Draft.label?).count_le l
    intro nodup
    have once := List.nodup_iff_count_le_one.mp nodup l
    unfold definedLabels at once twice
    omega

end Ast

/-! ## Labels of a compiled text -/

theorem length_ownLabels_le {node : Node Origin} {rest : List (Node Origin)} (labeled : Labeled (node :: rest)) :
    node.ownLabels.length ≤ node.weight := by
  obtain ⟨first, own⟩ := (labeled_cons.mp labeled).1
  rw [ownLabels_of_block own, labelRun_length]
  cases node with
  | stmt s =>
    cases s with
    | loop note control _ _ =>
      cases control with
      | none => exact le_rfl
      | some c =>
        have words : 2 ≤ c.wordCount := by
          unfold ForControl.wordCount
          split <;> omega
        change 3 ≤ 4 * c.wordCount
        omega
    | _ => exact le_rfl
  | expr e => cases e <;> first | exact Nat.zero_le _ | exact le_rfl
  | _ => exact Nat.zero_le _

/-- The labels that nodes need are those that they have. -/
theorem claims_eq_labelsOf {nodes : List (Node Note)} (labeled : Labeled (nodes.map (Node.map Note.origin))) :
    claims nodes = (labelsOf (nodes.map (Node.map Note.origin))) := by
  induction nodes with
  | nil => rfl
  | cons n rest ih =>
    obtain ⟨⟨first, own⟩, labeled⟩ := labeled_cons.mp labeled
    have same : (n.map Note.origin).ownLabels = labelRun n.note.firstLabel n.labelBudget := by
      rw [ownLabels_of_block own, Node.labelBudget_map]
      rw [Node.labelBudget_map, Node.note_map] at own
      by_cases none : n.labelBudget = 0
      · rw [none]
        rfl
      · rw [if_neg none] at own
        have block : n.note.labels = some ⟨first, n.labelBudget⟩ := own
        rw [Note.firstLabel, block]
        rfl
    rw [claims_cons, ih labeled, ← same]
    rfl

/-- A tree has at most as many labels as it weighs. -/
theorem length_labelsOf_le {nodes : List (Node Origin)} (labeled : Labeled nodes) :
    (labelsOf nodes).length ≤ weigh nodes := by
  induction nodes with
  | nil => exact le_rfl
  | cons node rest ih =>
    rw [labelsOf, List.flatMap_cons, List.length_append]
    exact add_le_add (length_ownLabels_le labeled) (ih (labeled_cons.mp labeled).2)

theorem Opcode.not_isJump_of_isOrdinary {o : Opcode} (ordinary : o.isOrdinary = true) : o.isJump = false := by
  cases o <;> first | rfl | cases ordinary

namespace Draft.Occurs

variable {defined : Int64 → Prop} {nodes : List (Node Note)} {fs : List Frame} {d : Draft}

theorem op_resolve (d : Draft) (pool : Bytes → Int64) : (d.resolve pool).op = d.instruction.op := by
  unfold Draft.resolve
  split <;> rfl

/-- A draft keeps its label in the program. -/
theorem label?_resolve (occurs : d.Occurs defined nodes fs) (pool : Bytes → Int64) :
    (d.resolve pool).label? = d.label? := by
  cases occurs with
  | ordinary ordinary =>
    have plain : d.instruction.op ≠ .lbl := by
      intro isLabel
      have other := Draft.op_isOrdinary ordinary
      rw [isLabel] at other
      cases other
    simp [Instruction.label?, Draft.label?, op_resolve, plain]
  | @string op s b isPooled =>
    cases op <;> first | rfl | cases isPooled
  | _ => rfl

/-- The label of a jump is defined. -/
theorem defined_of_jump (occurs : d.Occurs defined nodes fs) {pool : Bytes → Int64}
    (jumps : (d.resolve pool).op.isJump = true) : defined (d.resolve pool).a := by
  cases occurs with
  | ordinary ordinary =>
    rw [op_resolve, Opcode.not_isJump_of_isOrdinary (Draft.op_isOrdinary ordinary)] at jumps
    cases jumps
  | @access op level offset isAccess => cases op <;> first | cases isAccess; done | cases jumps
  | @string op s b isPooled => cases op <;> first | cases isPooled; done | cases jumps
  | jump isDefined | branch isDefined | call isDefined => exact isDefined
  | _ => cases jumps

end Draft.Occurs

namespace Compiled

variable {source : Bytes} {p : Program Note} {code : Code}

theorem definitions_eq (compiled : Compiled source p code) : code.definitions = definedLabels p.code := by
  rw [Code.definitions, compiled.renders.instructions, List.filterMap_map]
  refine List.filterMap_congr fun d member => ?_
  obtain ⟨fs, occurs⟩ := compiled.occurs member
  exact occurs.label?_resolve _

/-- The label of every jump of a compiled text is defined. -/
theorem jumps_defined (compiled : Compiled source p code) :
    ∀ i ∈ code.instructions, i.op.isJump = true → i.a ∈ code.definitions := by
  intro i member jumps
  rw [← Array.mem_toList_iff, compiled.renders.instructions] at member
  obtain ⟨d, isDraft, rfl⟩ := List.mem_map.mp member
  rw [compiled.definitions_eq]
  obtain ⟨fs, occurs⟩ := compiled.occurs isDraft
  exact occurs.defined_of_jump jumps

/-- The labels of a tree are all different if its text is not too long. -/
theorem claims_nodup (compiled : Compiled source p code) (short : source.length < 2 ^ 63) : (claims p.nodes).Nodup := by
  obtain ⟨after, numbers⟩ := compiled.numbered
  have few := length_labelsOf_le numbers.labeled
  have weight : weigh (p.map Note.origin).nodes ≤ 2 * source.length := by
    rw [Program.nodes_map, weigh_map]
    exact compiled.weigh_le
  have labeled := numbers.labeled
  rw [Program.nodes_map] at labeled
  rw [claims_eq_labelsOf labeled, ← Program.nodes_map, numbers.labels_eq]
  exact labelRun_nodup (by omega)

/-- A tree without repeated labels defines each label once. -/
theorem definitions_nodup (compiled : Compiled source p code) (short : source.length < 2 ^ 63)
    (single : ∀ d ∈ p.declarations, d.repeatsLabels = false) : code.definitions.Nodup := by
  obtain ⟨words, W, _, _, sound⟩ := compiled.sound
  have body := sound.defines_le View.good_initial single
  have all : defines p.code ≤ claims p.nodes := by
    rw [Program.code]
    simp only [defines_op1, defines_append, defines_op, defines_nil, ne_eq, reduceCtorEq, not_false_eq_true, add_zero]
    exact body
  rw [compiled.definitions_eq]
  exact Multiset.nodup_of_le all (compiled.claims_nodup short)

/-- A tree with repeated labels defines one of them twice. -/
theorem definitions_not_nodup (compiled : Compiled source p code) (member : d ∈ p.declarations)
    (repeats : d.repeatsLabels = true) : ¬ code.definitions.Nodup := by
  obtain ⟨words, W, _, _, sound⟩ := compiled.sound
  rw [compiled.definitions_eq]
  exact ((sound.standIn View.good_initial).mono ((List.sublist_append_left _ _).cons _)).not_nodup member repeats

/-- Whether labels are repeated can be seen in the text. -/
theorem repeatsLabels_iff (compiled : Compiled source p code) :
    (parse source).1.declarations.any Declaration.repeatsLabels = p.declarations.any Declaration.repeatsLabels := by
  rw [← compiled.tree]
  simp only [Program.declarations, Program.map, Stmt.listDeclarations_map, List.any_map, Function.comp_def,
    Declaration.repeatsLabels_map]

end Compiled

/-- A valid text compiles, and links unless one of its declarations initializes several names by an expression
with a conditional part: then a label has two definitions. -/
theorem valid_links_unless_labels_repeat {source : Bytes} (short : source.length < 2 ^ 63) {p : Program Note}
    (valid : Valid source p) :
    ∃ made, compile source = .ok made ∧
      ((parse source).1.declarations.any Declaration.repeatsLabels = true →
        ∃ twice, made.result = .error (.labels (.duplicate twice))) ∧
      ((parse source).1.declarations.any Declaration.repeatsLabels = false →
        ∃ code, made.result = .ok code ∧ code.checkLabels = .ok () ∧ code.definitions.Nodup ∧
          ∀ i ∈ code.instructions, i.op.isJump = true → code.definitions.count i.a = 1) := by
  obtain ⟨code, labels, compiled, run⟩ := valid.compile
  refine ⟨_, run, ?_⟩
  rw [compiled.repeatsLabels_iff]
  constructor
  · intro repeats
    obtain ⟨d, member, repeats⟩ := List.any_eq_true.mp repeats
    obtain ⟨twice, error⟩ := code.labels_spec.2 (compiled.definitions_not_nodup member repeats)
    refine ⟨twice, ?_⟩
    rw [Code.linked, Code.checkLabels, error]
  · intro single
    have single : ∀ d ∈ p.declarations, d.repeatsLabels = false := by simpa using single
    have nodup := compiled.definitions_nodup short single
    have resolved := Code.checkLabels_eq_ok_iff.mpr ⟨nodup, compiled.jumps_defined⟩
    exact ⟨code, Code.linked_eq_ok.mpr ⟨rfl, resolved⟩, resolved, nodup, fun i member jumps =>
      List.count_eq_one_of_mem nodup (compiled.jumps_defined i member jumps)⟩

/-- The check of a text finds nothing. -/
def passesCheck (source : Bytes) : Bool :=
  (parse source).2.isEmpty &&
    match ((Context.fresh.reserveProgram (parse source).1).1.check (Context.fresh.reserveProgram (parse source).1).2).2 with
    | .error _ => false
    | .ok checked => checked.issues.isEmpty

theorem exists_valid {source : Bytes} (passes : passesCheck source = true) : ∃ p, Valid source p := by
  obtain ⟨parsed, checks⟩ := Bool.and_eq_true_iff.mp passes
  cases checked : ((Context.fresh.reserveProgram (parse source).1).1.check
      (Context.fresh.reserveProgram (parse source).1).2).2 with
  | error crash =>
    rw [checked] at checks
    cases checks
  | ok found =>
    rw [checked] at checks
    have clean : found.issues = [] := List.isEmpty_iff.mp checks
    exact ⟨found.tree, List.isEmpty_iff.mp parsed, by rw [checked, ← clean]⟩

/-- One name may have a conditional initializer. -/
theorem links_with_conditional_initializer :
    ∃ p, Valid "dcl a int = if true then 1 else 2 fi;" p ∧
      ∃ made code, compile "dcl a int = if true then 1 else 2 fi;" = .ok made ∧ made.result = .ok code ∧
        code.definitions.Nodup := by
  obtain ⟨p, valid⟩ := @exists_valid "dcl a int = if true then 1 else 2 fi;" (by decide +kernel)
  have single : (parse "dcl a int = if true then 1 else 2 fi;").1.declarations.any Declaration.repeatsLabels = false := by
    decide +kernel
  obtain ⟨made, compiled, _, links⟩ := valid_links_unless_labels_repeat (by decide +kernel) valid
  obtain ⟨code, linked, _, nodup, _⟩ := links single
  exact ⟨p, valid, made, code, compiled, linked, nodup⟩

/-- Two names with one conditional initializer are valid and do not link. -/
theorem conditional_initializer_of_two_names_repeats_labels :
    ∃ p, Valid "dcl a, b int = if true then 1 else 2 fi; print(a, b);" p ∧
      ∃ made twice, compile "dcl a, b int = if true then 1 else 2 fi; print(a, b);" = .ok made ∧
        made.result = .error (.labels (.duplicate twice)) := by
  obtain ⟨p, valid⟩ := @exists_valid "dcl a, b int = if true then 1 else 2 fi; print(a, b);" (by decide +kernel)
  have repeats : (parse "dcl a, b int = if true then 1 else 2 fi; print(a, b);").1.declarations.any
      Declaration.repeatsLabels = true := by
    decide +kernel
  obtain ⟨made, compiled, fails, _⟩ := valid_links_unless_labels_repeat (by decide +kernel) valid
  obtain ⟨twice, error⟩ := fails repeats
  exact ⟨p, valid, made, twice, compiled, error⟩

end LyaLang
