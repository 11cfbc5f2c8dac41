import LyaLang.Proofs.Emit.Heights

/-! # Heights of statements

A statement starts and ends with nothing above the frame, as long as no assignment stores what is nothing and
every array that is passed or returned by value is one word long. The body of a procedure lies between its
labels: control comes to its entry and leaves at its exit with nothing above the frame of the procedure, and the
code around it jumps across.
-/

namespace LyaLang

open Ast

variable {arity : Int64 → Int} {needs : List (Int64 × Int)} {symbols : List Symbol} {h : Int}

variable {e value : Expr Note} {m : Mode} {frame : Int64} {V V' : View}

/-- The exit of the procedure around a statement is reached with nothing above the frame. -/
def View.Returns (needs : List (Int64 × Int)) (V : View) : Prop :=
  ∀ f p, V.function = some f → f.proc = some p → (p.entry + 1, 0) ∈ needs

/-- A piece raises every height by one. -/
def Piece.Pushes (arity : Int64 → Int) (k : Piece) : Prop :=
  ∀ (needs : List (Int64 × Int)) {h : Int}, 0 ≤ h → Rising arity needs h [.part k] (h + 1)

namespace Ast

theorem Expr.pushes_value (good : ∀ s ∈ symbols, s.Good) (typed : e.Typed symbols)
    (passes : AllPass arity e.nodes) (known : e.type ≠ .void) (single : e.width = 1) : (Piece.value e).Pushes arity :=
  fun needs _ nonneg => value_part (typed.rising good passes known needs nonneg) single

theorem Expr.pushes_address (good : ∀ s ∈ symbols, s.Good) (typed : e.Typed symbols)
    (passes : AllPass arity e.nodes) (location : e.isLocation = true) : (Piece.address e).Pushes arity :=
  fun needs _ nonneg => .part (typed.addressRising good location passes needs nonneg)

/-- An expression of a given scalar type. -/
theorem Expr.pushes_typedAs (good : ∀ s ∈ symbols, s.Good) {t : ValueType} (typed : e.TypedAs symbols t)
    (passes : AllPass arity e.nodes) (basic : t.IsBasic) : (Piece.value e).Pushes arity := by
  obtain ⟨typed, rfl⟩ := typed
  exact Expr.pushes_value good typed passes basic.single.2 (Expr.width_eq_one basic.single.1)

/-! ## Stores -/

theorem stringSegments_rising (m : Mode) (o : Option BinaryOp) (nonneg : 0 ≤ h)
    (valued : (Piece.value value).Pushes arity) : Rising arity needs (h + 1) (stringSegments m o value) h := by
  have one : 0 ≤ h + 1 := by omega
  have two : 0 ≤ h + 1 + 1 := by omega
  have copied : Rising arity needs (h + 1) [.part (.value value), .draft (.op1 .scp m.capacity)] h :=
    .cons (valued needs one) (.dropTwo nonneg rfl)
  unfold stringSegments
  cases o with
  | some o =>
    refine .cons (.exchange nonneg rfl rfl (Int.add_assoc h 1 1).symm) (.cons (valued needs two) ?_)
    exact .cons (.merge one rfl) (.dropTwo nonneg rfl)
  | none =>
    cases value.note.constant with
    | none => exact copied
    | some c =>
      dsimp only
      split
      · exact .drop nonneg rfl
      · exact copied

/-- A value can be stored in a place of a mode: an array is given by its address. -/
structure Storable (arity : Int64 → Int) (m : Mode) (value : Expr Note) : Prop where
  valued : m.isArray = false → (Piece.value value).Pushes arity
  addressed : m.isArray = true → (Piece.address value).Pushes arity

theorem BinaryOp.opcode_merges (o : BinaryOp) :
    Instruction.moves arity { op := o.opcode } = (false, 2, 1) := by
  cases o <;> rfl

theorem assignSymbolSegments_rising {symbol : Symbol} (isMode : symbol.mode = some m) (o : Option BinaryOp)
    (nonneg : 0 ≤ h) (storable : Storable arity m value) :
    Rising arity needs h (assignSymbolSegments symbol o value) h := by
  have one : 0 ≤ h + 1 := by omega
  unfold assignSymbolSegments
  rw [isMode]
  dsimp only
  split
  case isTrue text =>
    exact .cons (.addressDraft nonneg symbol)
      (stringSegments_rising m o nonneg (storable.valued (Rising.not_isArray_of_isString text)))
  case isFalse =>
    split
    case isTrue array =>
      exact .cons (.addressDraft nonneg symbol) (.cons (storable.addressed array needs one) (.dropTwo nonneg rfl))
    case isFalse single =>
      have valued := storable.valued (Bool.eq_false_of_not_eq_true single)
      cases o with
      | none => exact .cons (valued needs nonneg) (.storeDraft nonneg symbol)
      | some o =>
        exact .cons (.loadDraft nonneg symbol) (.cons (valued needs one)
          (.cons (.merge nonneg o.opcode_merges) (.storeDraft nonneg symbol)))

theorem assignLocationSegments_rising {target : Expr Note} (isMode : target.note.mode = some m)
    (o : Option BinaryOp) (nonneg : 0 ≤ h) (located : (Piece.address target).Pushes arity)
    (storable : Storable arity m value) :
    Rising arity needs h (assignLocationSegments target o value) h := by
  have one : 0 ≤ h + 1 := by omega
  have two : 0 ≤ h + 1 + 1 := by omega
  refine .cons (located needs nonneg) ?_
  rw [isMode]
  dsimp only
  split
  case isTrue text => exact stringSegments_rising m o nonneg (storable.valued (Rising.not_isArray_of_isString text))
  case isFalse =>
    split
    case isTrue array => exact .cons (storable.addressed array needs one) (.dropTwo nonneg rfl)
    case isFalse single =>
      have valued := storable.valued (Bool.eq_false_of_not_eq_true single)
      cases o with
      | none => exact .cons (valued needs one) (.dropTwo nonneg rfl)
      | some o =>
        refine .cons (.exchange nonneg rfl rfl (Int.add_assoc h 1 1).symm) (.cons (.keep one rfl) ?_)
        exact .cons (valued needs two) (.cons (.merge one o.opcode_merges) (.dropTwo nonneg rfl))

/-- A value of the type of a mode can be stored in it, if an array is a location. -/
theorem Storable.of_typed (good : ∀ s ∈ symbols, s.Good) (typed : value.Typed symbols)
    (passes : AllPass arity value.nodes) (type : value.type = m.type) (known : m.type ≠ .void)
    (location : m.isArray = true → value.isLocation = true) : Storable arity m value where
  valued single := Expr.pushes_value good typed passes (type ▸ known) (Expr.width_eq_one (type ▸ single))
  addressed array := Expr.pushes_address good typed passes (location array)

theorem assignSegments_rising (good : ∀ s ∈ symbols, s.Good) {target : Expr Note} {o : Option BinaryOp}
    (sound : AssignSound symbols target o value) (known : target.type ≠ .void)
    (passes : AllPass arity (target.nodes ++ value.nodes)) (nonneg : 0 ≤ h) :
    Rising arity needs h (assignSegments target o value) h := by
  obtain ⟨m, isMode, _⟩ := sound.typed.hasMode good
  have type : target.type = m.type := type_of_mode isMode
  obtain ⟨typedValue, sameType⟩ := sound.assigned
  have storable : Storable arity m value := by
    refine .of_typed good typedValue passes.right (sameType.trans type) (type ▸ known) fun array => ?_
    obtain ⟨_, _, location, _⟩ := sound.array (type ▸ array)
    exact location
  have located := Expr.pushes_address good sound.typed passes.left sound.location
  cases target with
  | ident id =>
    obtain ⟨symbol, _, isSymbol, _, sameMode, _⟩ := sound.typed
    rw [assignSegments, isSymbol]
    exact assignSymbolSegments_rising (sameMode.symm.trans isMode) o nonneg storable
  | _ => exact assignLocationSegments_rising isMode o nonneg located storable

/-! ## Declarations and results -/

theorem initials_rising {loc : Bool} {init : Expr Note}
    (addressed : loc = true → (Piece.address init).Pushes arity) (storable : loc = false → Storable arity m init)
    (nonneg : 0 ≤ h) {names : List (Ident Note)} (sound : NamesSound frame (variableSymbol loc m) V names V') :
    Rising arity needs h (names.flatMap (initialSegments loc init)) h := by
  induction names generalizing V with
  | nil => exact .nil h
  | cons id rest ih =>
    obtain ⟨serial, isSymbol, _, _, sound⟩ := sound
    refine .append ?_ (ih sound)
    unfold initialSegments
    rw [isSymbol]
    cases loc with
    | true => exact .cons (addressed rfl needs nonneg) (.drop nonneg rfl)
    | false =>
      have isMode : (V.place { variableSymbol false m id with serial }).mode = some m := rfl
      exact assignSymbolSegments_rising isMode none nonneg (storable rfl)

theorem Declaration.segments_rising (good : V.Good) {d : Declaration Note}
    (sound : d.Sound frame V V') (passes : AllPass arity d.nodes) (nonneg : 0 ≤ h) :
    Rising arity needs h d.segments h := by
  obtain ⟨m, typed, isMode, sized, initial, names⟩ := sound
  obtain ⟨_, same, proper⟩ := typed.hasMode good
  obtain rfl := Option.mem_unique isMode same
  have passesInit := passes.tail.right
  unfold Declaration.segments
  cases isInit : d.init with
  | none => exact .nil h
  | some init =>
    rw [isInit] at initial passesInit
    obtain ⟨typedInit, type, location⟩ := initial
    refine initials_rising (fun loc => ?_) (fun _ => ?_) nonneg names
    · exact Expr.pushes_address good typedInit passesInit (location (.inl loc)).1
    · exact .of_typed good typedInit passesInit type (proper.type_ne_void sized) fun array => (location (.inr array)).1

/-- The word that is returned. -/
def ReturnsWord (note : Note) (e : Expr Note) : Prop :=
  ∀ p, note.symbol.bind (·.proc) = some p → p.resultLoc = false → e.width = 1 ∧ e.type ≠ .void

theorem resultSegments_rising (good : V.Good) {note : Note} {value : Option (Expr Note)}
    (sound : ResultSound V note value) (word : ∀ e, value = some e → ReturnsWord note e)
    (passes : AllPass arity (optionalNodes value)) (nonneg : 0 ≤ h) :
    Rising arity needs h (resultSegments note value) h := by
  obtain ⟨f, p, _, isSymbol, isProc, values⟩ := sound
  have found := bind_proc isSymbol isProc
  unfold resultSegments
  rw [found]
  cases value with
  | none => exact .nil h
  | some e =>
    obtain ⟨⟨typed, _⟩, _, located⟩ := values e rfl
    refine .cons ?_ (.drop nonneg rfl)
    cases loc : p.resultLoc with
    | true => exact Expr.pushes_address good typed passes (located loc).1 needs nonneg
    | false =>
      obtain ⟨single, known⟩ := word e rfl p found loc
      exact Expr.pushes_value good typed passes known single needs nonneg

/-! ## Loops -/

theorem stepDraft_rising (f : ForControl Note) (slots : LoopSlots) (nonneg : 0 ≤ h) :
    Rising arity needs h [.draft (f.stepDraft slots)] (h + 1) := by
  unfold ForControl.stepDraft
  split
  · exact .push nonneg rfl
  · split
    · exact .push nonneg rfl
    · exact .constant nonneg _

/-- The start of a counted loop, before what follows its test. -/
theorem ForControl.segments_rising (good : V.Good) {f : ForControl Note}
    (sound : f.Sound frame V V') (passes : AllPass arity f.nodes) {start test stop : Int64} {rest : List Segment}
    (goes : ∀ needs', needs ⊆ needs' → (start, 0) ∈ needs' → Rising arity needs' 0 rest 0) (stops : (stop, 0) ∈ needs) :
    Rising arity needs 0 (f.segments start test stop ++ rest) 0 := by
  obtain ⟨counter, W, isCounter, _, _, _, slotted⟩ := sound.counter
  have nonneg : (0 : Int) ≤ 0 := Int.le_refl 0
  have one : (0 : Int) ≤ 0 + 1 := by decide
  have clauses := passes.tail.tail
  have passesStep := clauses.left.right
  have begins := Expr.pushes_typedAs good sound.start clauses.left.left trivial
  have ends := Expr.pushes_typedAs good sound.stop clauses.right trivial
  -- The step has a word of its own only if there is one.
  have keeps : ∀ needs, Rising arity needs 0 f.keptSegments 0 := by
    intro needs
    unfold ForControl.keptSegments
    split
    case isFalse => exact .nil 0
    case isTrue kept =>
      split at slotted
      case isTrue keeps =>
        cases isStep : f.step with
        | none =>
          rw [ForControl.keepsStep, isStep] at keeps
          cases keeps
        | some e =>
          rw [isStep] at passesStep
          exact .cons (Expr.pushes_typedAs good (sound.step e isStep) passesStep trivial needs nonneg)
            (.drop nonneg rfl)
      case isFalse =>
        rw [ForControl.words, slotted.1] at kept
        exact absurd (show (0 : Int64) ≤ -1 from kept) (by decide)
  have steps : ∀ needs, Rising arity needs (0 + 1 + 1) [.draft (.op (if f.down then .sub else .add))] (0 + 1) := by
    intro needs
    split <;> exact .merge nonneg rfl
  have compares : ∀ needs, Rising arity needs (0 + 1 + 1) [.draft (.op (if f.down then .gre else .leq))] (0 + 1) := by
    intro needs
    split <;> exact .merge nonneg rfl
  unfold ForControl.segments
  rw [isCounter]
  rw [List.append_assoc, List.cons_append, List.append_assoc]
  refine .joinTwo nonneg nonneg ?_ ?_ ?_
  · refine .cons (begins _ nonneg) (.cons (.storeDraft nonneg counter) (.cons (ends _ nonneg)
      (.cons (.drop nonneg rfl) (.append (keeps _) (.jump nonneg ?_ 0)))))
    simp
  · exact .cons (.loadDraft nonneg counter) (.cons (stepDraft_rising f _ one) (.cons (steps _)
      (.storeDraft nonneg counter)))
  · refine .cons (.loadDraft nonneg counter) (.cons (.push one rfl) (.cons (compares _)
      (.cons (.branch (by decide) ?_) (goes _ ?_ ?_))))
    · simp [stops]
    · exact List.subset_cons_of_subset _ (List.subset_cons_self _ _)
    · exact List.mem_cons_self

/-! ## Statements -/

/-- What a statement stores is something, and what it returns by value is one word. -/
def Node.Stores : Node Note → Prop
  | stmt (.assign _ target _ _) => target.type ≠ .void
  | stmt (.ret note value) => ∀ e, value = some e → ReturnsWord note e
  | stmt (.result note e) => ReturnsWord note e
  | _ => True

/-- Among the nodes of a construct, statements store and return words, and calls pass them. -/
structure AllWords (arity : Int64 → Int) (nodes : List (Node Note)) : Prop where
  passes : AllPass arity nodes
  stores : ∀ n ∈ nodes, n.Stores

namespace AllWords

variable {n : Node Note} {front back : List (Node Note)}

theorem tail (words : AllWords arity (n :: back)) : AllWords arity back :=
  ⟨words.passes.tail, (List.forall_mem_cons.mp words.stores).2⟩

theorem left (words : AllWords arity (front ++ back)) : AllWords arity front :=
  ⟨words.passes.left, (List.forall_mem_append.mp words.stores).1⟩

theorem right (words : AllWords arity (front ++ back)) : AllWords arity back :=
  ⟨words.passes.right, (List.forall_mem_append.mp words.stores).2⟩

end AllWords

/-- A statement among other segments. -/
theorem stmt_part {s : Stmt Note} (rising : Rising arity needs 0 s.segments 0) :
    Rising arity needs 0 [.part (.stmt s)] 0 := .part rising

theorem declarations_rising {decls : List (Declaration Note)} (good : V.Good)
    (sound : EachSound (Declaration.Sound frame) V decls V') (passes : AllPass arity (decls.flatMap Declaration.nodes)) :
    Rising arity needs 0 (decls.flatMap Declaration.segments) 0 := by
  induction decls generalizing V with
  | nil => exact .nil 0
  | cons d rest ih =>
    obtain ⟨W, first, sound⟩ := sound
    exact .append (d.segments_rising good first passes.left (Int.le_refl 0)) (ih (first.good good) sound passes.right)

/-- A call as an action removes the word it leaves. -/
theorem callAction_rising (good : ∀ s ∈ symbols, s.Good) {callNote : Note} {callee : Ident Note}
    {args : List (Expr Note)} (typed : (Expr.call callNote callee args).Typed symbols)
    (passes : AllPass arity (Expr.call callNote callee args).nodes) :
    Rising arity needs 0 (callSegments callee (fun how => argumentSegments how args) ++
      asSegments (if callLeaves callee then [.op1 .dlc 1] else [])) 0 := by
  have nonneg : (0 : Int) ≤ 0 := Int.le_refl 0
  obtain ⟨typedArgs, call, _⟩ := typed
  refine .append (callSegments_rising good call (passes _ List.mem_cons_self) (fun _ fits carries _ =>
    typedArgs.argumentsRising good passes.tail.tail fits carries needs) nonneg) ?_
  cases callLeaves callee with
  | true => exact .drop nonneg rfl
  | false => exact .nil 0

/-- A procedure: control enters its body at the first label, leaves it at the second and comes by at the third. -/
theorem procedure_rising {first level count : Int64} {body : List Segment}
    (rising : Rising arity ((first + 1, 0) :: (first, 0) :: (first + 2, 0) :: needs) 0 body 0) :
    Rising arity needs 0 (asSegments [.op1 .jmp (first + 2), .op1 .lbl first, .op1 .enf level, .op1 .alc frame] ++ (body ++
      asSegments [.op1 .lbl (first + 1), .op1 .dlc frame, .op2 .ret level count, .op1 .lbl (first + 2)])) 0 := by
  have inside : Rising arity ((first, 0) :: (first + 2, 0) :: needs) 0
      ((.draft (.op1 .enf level) :: .draft (.op1 .alc frame) :: body) ++ .draft (.op1 .lbl (first + 1)) ::
        [.draft (.op1 .dlc frame), .draft (.op2 .ret level count)]) 0 :=
    .join (Int.le_refl 0) (.append .enter rising) (.leave 0)
  have around : Rising arity ((first + 2, 0) :: needs) 0 ([.draft (.op1 .jmp (first + 2))] ++ .draft (.op1 .lbl first) ::
      ((.draft (.op1 .enf level) :: .draft (.op1 .alc frame) :: body) ++ .draft (.op1 .lbl (first + 1)) ::
        [.draft (.op1 .dlc frame), .draft (.op2 .ret level count)])) 0 := by
    refine .join (Int.le_refl 0) (.jump (Int.le_refl 0) ?_ 0) inside
    simp
  have whole := around.join (Int.le_refl 0) (.nil 0)
  simpa [asSegments] using whole

/-- A loop around what follows its start. -/
theorem loop_rising {first : Int64} {W : View} (good : V.Good) {control : Option (ForControl Note)}
    (counted : ∀ f, control = some f → f.Sound frame V W)
    (passes : AllPass arity ((control.map ForControl.nodes).getD [])) {rest : List Segment}
    (goes : ∀ needs', needs ⊆ needs' → (first + 2, 0) ∈ needs' → Rising arity needs' 0 rest 0) :
    Rising arity needs 0 (controlSegments first control ++ (rest ++
      asSegments [.op1 .jmp first, .op1 .lbl (first + 2)])) 0 := by
  have jumps : ∀ needs', (first + 2, 0) :: needs ⊆ needs' → (first, 0) ∈ needs' →
      Rising arity needs' 0 (rest ++ [.draft (.op1 .jmp first)]) 0 := by
    intro needs' within starts
    exact .append (goes needs' (List.cons_subset.mp within).2 (List.cons_subset.mp within).1) (.jump (Int.le_refl 0) starts 0)
  have whole : Rising arity ((first + 2, 0) :: needs) 0
      (controlSegments first control ++ (rest ++ [.draft (.op1 .jmp first)])) 0 := by
    cases control with
    | none => exact Rising.join (Int.le_refl 0) (.nil 0) (jumps _ (List.subset_cons_self _ _) List.mem_cons_self)
    | some f => exact ForControl.segments_rising good (counted f rfl) passes jumps List.mem_cons_self
  have closed := whole.join (Int.le_refl 0) (.nil 0)
  simpa [asSegments] using closed

mutual

/-- A statement leaves nothing on the stack. -/
theorem Stmt.Sound.rising {frame : Int64} : ∀ {s : Stmt Note} {V V' : View}, V.Good → s.Sound frame V V' →
    AllWords arity s.nodes → ∀ needs, V.Returns needs → Rising arity needs 0 s.segments 0
  | .declare note decls, V, V', good, sound, words, needs, _ => by
    exact declarations_rising good sound words.passes.tail
  | .synonym _ _, _, _, _, _, _, _, _ | .modes _ _, _, _, _, _, _, _, _ => .nil 0
  | .proc note name params spec body, V, V', good, sound, words, needs, _ => by
    obtain ⟨serial, p, frame', W, W', rfl, isSymbol, _, header, _, _, params', soundBody⟩ := sound
    have found : note.symbol.bind (·.proc) = some p := bind_proc isSymbol rfl
    have goodIn := params'.good ((good.declare (header.goodSymbol name) serial).enter _)
    rw [Stmt.segments, found]
    refine procedure_rising (soundBody.rising goodIn words.tail.tail.right _ ?_)
    intro f q isFunction isProc
    rw [params'.eq_except] at isFunction
    obtain rfl := Option.some.inj isFunction
    obtain rfl := Option.some.inj isProc
    rw [show p.entry = note.firstLabel from header.entry]
    exact List.mem_cons_self
  | .assign note target o value, V, V', good, sound, words, needs, _ => by
    obtain ⟨rfl, sound⟩ := sound
    exact assignSegments_rising good sound (words.stores _ List.mem_cons_self) words.passes.tail (Int.le_refl 0)
  | .branch note arms otherwise, V, V', good, sound, words, needs, returns => by
    obtain ⟨rfl, soundArms, soundElse⟩ := sound
    rw [Stmt.nodes_branch] at words
    have later : View.Returns ((note.firstLabel + Int64.ofNat arms.length, 0) :: needs) V' :=
      fun f p isFunction isProc => List.mem_cons_of_mem _ (returns f p isFunction isProc)
    rw [Stmt.segments, ← List.append_assoc]
    refine .join (Int.le_refl 0) (.append (soundArms.rising good words.tail.left _ List.mem_cons_self later) ?_) (.nil 0)
    exact soundElse.rising good words.tail.right _ later
  | .loop note control whilst body, V, V', good, sound, words, needs, returns => by
    obtain ⟨rfl, W, W', controlled, tested, soundBody⟩ := sound
    have clauses := words.passes.tail.left
    have inner : W.Good ∧ W.function = V'.function ∧ ∀ f, control = some f → f.Sound frame V' W := by
      cases control with
      | none =>
        cases controlled
        refine ⟨good, rfl, fun f same => ?_⟩
        cases same
      | some f =>
        refine ⟨controlled.good good, controlled.function_eq, fun f' same => ?_⟩
        cases same
        exact controlled
    obtain ⟨goodW, sameFunction, counted⟩ := inner
    rw [Stmt.segments, ← List.append_assoc (whilstSegments _ _)]
    refine loop_rising good counted clauses.left fun needs' subset stops => ?_
    refine .append ?_ (soundBody.rising goodW words.tail.right needs' ?_)
    · cases whilst with
      | none => exact .nil 0
      | some e =>
        exact .cons (Expr.pushes_typedAs goodW (tested e rfl) clauses.right trivial needs' (Int.le_refl 0))
          (.branch (by decide) stops)
    · intro f p isFunction isProc
      exact subset (returns f p (sameFunction ▸ isFunction) isProc)
  | .call note callNote callee args, V, V', good, sound, words, needs, _ => by
    obtain ⟨rfl, typed⟩ := sound
    exact callAction_rising good typed words.passes.tail
  | .ret note value, V, V', good, sound, words, needs, returns => by
    obtain ⟨rfl, sound⟩ := sound
    have stored : Rising arity needs 0 (resultSegments note value) 0 :=
      resultSegments_rising good sound (words.stores _ List.mem_cons_self) words.passes.tail (Int.le_refl 0)
    obtain ⟨f, p, isFunction, isSymbol, isProc, _⟩ := sound
    rw [Stmt.segments, bind_proc isSymbol isProc]
    exact stored.append (.jump (Int.le_refl 0) (returns f p isFunction isProc) 0)
  | .result note value, V, V', good, sound, words, needs, _ => by
    obtain ⟨rfl, sound⟩ := sound
    have word : ReturnsWord note value := words.stores _ List.mem_cons_self
    refine resultSegments_rising good sound (fun e same => ?_) words.passes.tail (Int.le_refl 0)
    cases same
    exact word

theorem Stmt.SoundList.rising {frame : Int64} : ∀ {ss : List (Stmt Note)} {V V' : View}, V.Good →
    Stmt.SoundList frame V ss V' → AllWords arity (Stmt.listNodes ss) → ∀ needs, V.Returns needs →
    Rising arity needs 0 (bodySegments ss) 0
  | [], _, _, _, _, _, _, _ => .nil 0
  | s :: rest, V, V', good, ⟨W, first, sound⟩, words, needs, returns => by
    have later : W.Returns needs := by
      intro f p isFunction
      exact returns f p (first.function_eq.symm.trans isFunction)
    exact .cons (stmt_part (first.rising good words.left needs returns)) (sound.rising (first.good good) words.right needs later)

theorem Stmt.SoundElse.rising {frame : Int64} : ∀ {body : Option (List (Stmt Note))} {V : View}, V.Good →
    Stmt.SoundElse frame V body → AllWords arity (Stmt.elseNodes body) → ∀ needs, V.Returns needs →
    Rising arity needs 0 (bodySegments (body.getD [])) 0
  | none, _, _, _, _, _, _ => .nil 0
  | some _, _, good, ⟨_, sound⟩, words, needs, returns => sound.rising good words needs returns

theorem Stmt.SoundArms.rising {frame : Int64} : ∀ {arms : List (CondBranch Note)} {V : View}, V.Good →
    Stmt.SoundArms frame V arms → AllWords arity (Stmt.armNodes arms) → ∀ {exit label : Int64} (needs),
    (exit, 0) ∈ needs → V.Returns needs → Rising arity needs 0 (branchSegments exit label arms) 0
  | [], _, _, _, _, _, _, _, _, _ => .nil 0
  | .mk note test body :: rest, V, good, ⟨typed, ⟨W, sound⟩, soundRest⟩, words, exit, label, needs, exits, returns => by
    have later : View.Returns ((label, 0) :: needs) V :=
      fun f p isFunction isProc => List.mem_cons_of_mem _ (returns f p isFunction isProc)
    have exits' : (exit, 0) ∈ (label, 0) :: needs := List.mem_cons_of_mem _ exits
    have arm : Rising arity ((label, 0) :: needs) 0 (.part (.value test) :: .draft (.op1 .jof label) ::
        (bodySegments body ++ [.draft (.op1 .jmp exit)])) 0 := by
      refine .cons (Expr.pushes_typedAs good typed words.passes.tail.left.left trivial _ (Int.le_refl 0))
        (.cons (.branch (by decide) ?_) (.append ?_ (.jump (Int.le_refl 0) exits' 0)))
      · exact List.mem_cons_self
      · exact sound.rising good words.tail.left.right _ later
    have others : Rising arity ((label, 0) :: needs) 0 (branchSegments exit (label + 1) rest) 0 :=
      soundRest.rising good words.tail.right _ exits' later
    simpa [branchSegments] using arm.join (Int.le_refl 0) others

end

end Ast

end LyaLang
