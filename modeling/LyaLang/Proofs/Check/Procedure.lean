import LyaLang.Proofs.Check.Declaration

/-! # Checked headers are sound

The header of a procedure declares the procedure in the scope around it and its parameters in the scope
of its body, at addresses below the frame. The frame is open after the header.
-/

namespace LyaLang

open Ast

variable {level : Int64}

namespace Check

variable {s t u : CheckState} {v w : Bool} {P Q : Int64 → View → View → Prop}

/-! ## Modes -/

theorem checkResult_yields (tree : Option (ResultSpec Origin)) :
    Yields (checkResult (tree.map (ResultSpec.map Origin.note))) s fun r t =>
      r.2.1.map (ResultSpec.map Note.origin) = tree ∧
        Passed s t ((r.2.1.map ResultSpec.nodes).getD []) r.1 fun symbols =>
          ∃ m, r.2.2 = some m ∧ ResultMode symbols m r.2.1 ∧ m.Proper ∧
            (r.2.1.any (·.loc) = false → m = .void ∨ m.size = 1) := by
  cases tree with
  | none => exact fun fit => ⟨fit, rfl, .silent fit fun _ => ⟨.void, rfl, rfl, trivial, fun _ => .inl rfl⟩⟩
  | some tree =>
    refine (ModeExpr.check_yields tree.mode).bind fun m t₁ ⟨shape, passed⟩ => ?_
    have shape : (some { note := tree.note.note, mode := m, loc := tree.loc }).map
        (ResultSpec.map Note.origin) = some tree := by
      simp only [Option.map_some, ResultSpec.map, shape, Origin.origin_note]
    have passed := passed.unjudged (n := .resultSpec { note := tree.note.note, mode := m, loc := tree.loc }) rfl
      fun _ => trivial
    refine .ite (fun bad => .pure ⟨shape, passed.stop bad⟩) fun good => ?_
    have passed := passed.valid_eq (show _ = true by simpa using good)
    refine .ite (fun byLocation => .pure ⟨shape, passed.imp fun _ goods typed => ?_⟩) fun _ => ?_
    · obtain ⟨k, isMode, proper⟩ := typed.hasMode goods
      refine ⟨k, isMode, ⟨typed, isMode⟩, proper, fun byValue => ?_⟩
      exact absurd byLocation (Bool.eq_false_iff.mp byValue)
    · refine .required (fun clean => ?_) fun k isMode => .ite (fun _ => .report fun u reported => .pure ⟨shape, ?_⟩)
        fun sized => .pure ⟨shape, passed.imp fun _ goods typed => ?_⟩
      · obtain ⟨k, isMode, _⟩ := (passed.known clean).2.hasMode (passed.known clean).1
        exact ⟨k, isMode⟩
      · exact passed.reported reported
      · obtain ⟨k', isMode', proper⟩ := typed.hasMode goods
        obtain rfl := Option.mem_unique isMode isMode'
        exact ⟨k, rfl, ⟨typed, isMode⟩, proper, fun _ => .inr (by simpa using sized)⟩

/-- A parameter group whose mode has been checked and whose names are not yet declared. -/
structure Moded (tree : FormalParam Origin) (p : FormalParam Note) : Prop where
  note : p.note = tree.note.note
  names : p.names = tree.names.map (Ident.map Origin.note)
  mode : p.mode.map Note.origin = tree.mode
  loc : p.loc = tree.loc

/-- The mode of a parameter group: one word, unless it is passed by location. -/
def ParamMode (symbols : List Symbol) (p : FormalParam Note) : Prop :=
  p.mode.note.isValid = true ∧ p.mode.Typed symbols ∧
    ∃ m, p.mode.note.mode = some m ∧ m.Proper ∧ (p.loc = false → m.size = 1)

theorem checkMode_yields (tree : FormalParam Origin) :
    Yields (tree.map Origin.note).checkMode s fun p t =>
      Moded tree p ∧ Passed s t p.mode.nodes p.mode.note.isValid (ParamMode · p) := by
  refine (ModeExpr.check_yields tree.mode).bind fun m t₁ ⟨shape, passed⟩ => .ite (fun byValue => ?_) fun byLocation => ?_
  · obtain ⟨valid, byValue⟩ := Bool.and_eq_true_iff.mp byValue
    refine .required (fun clean => ?_) fun k isMode => .ite (fun _ => .report fun u reported => .pure ?_)
      fun sized => .pure ⟨⟨rfl, rfl, shape, rfl⟩, passed.imp fun _ goods typed => ⟨valid, typed, ?_⟩⟩
    · obtain ⟨k, isMode, _⟩ := (passed.known clean).2.hasMode (passed.known clean).1
      exact ⟨k, isMode⟩
    · exact ⟨⟨rfl, rfl, shape, rfl⟩, passed.reported reported⟩
    · obtain ⟨k', isMode', proper⟩ := typed.hasMode goods
      obtain rfl := Option.mem_unique isMode isMode'
      exact ⟨k, isMode, proper, fun _ => by simpa using sized⟩
  · refine .pure ⟨⟨rfl, rfl, shape, rfl⟩, passed.knowing.imp fun _ goods known => ?_⟩
    obtain ⟨valid, _, typed⟩ := known
    obtain ⟨k, isMode, proper⟩ := typed.hasMode goods
    refine ⟨valid, typed, k, isMode, proper, fun byValue => absurd ?_ byLocation⟩
    exact Bool.and_eq_true_iff.mpr ⟨valid, by simpa using byValue⟩

theorem checkModes_yields (trees : List (FormalParam Origin)) :
    Yields (checkEach FormalParam.checkMode (trees.map (FormalParam.map Origin.note))) s fun ps t =>
      List.Forall₂ Moded trees ps ∧ Passed s t (ps.flatMap (·.mode.nodes)) (ps.all (·.mode.note.isValid))
        fun symbols => ∀ p ∈ ps, ParamMode symbols p := by
  induction trees generalizing s with
  | nil => exact fun fit => ⟨fit, .nil, .silent fit fun _ => List.forall_mem_nil _⟩
  | cons tree rest ih =>
    refine (checkMode_yields tree).bind fun p t ⟨moded, passed⟩ => ih.bind fun ps u ⟨modeds, passed'⟩ =>
      .pure ⟨.cons moded modeds, (passed.trans passed').imp fun _ _ sound => ?_⟩
    exact List.forall_mem_cons.mpr sound

/-! ## Parameters -/

theorem declareAt_yields {symbol : Symbol} {offset : Int64}
    (free : s.context.environment.find? symbol.name = none) (fine : s.issues = [] → symbol.Good) :
    Yields (declareAt symbol offset level) s fun x t => ∀ i : Ident Note, i.name = symbol.name → i.note.verdict = none →
      Progress s t [.ident (i.resolve x .declaration)] true fun _ V V' =>
        ∃ serial, x = { symbol with offset, level, serial } ∧ V' = V.declareParam { symbol with offset, level, serial } := by
  intro fit
  have free : s.context.environment.find? { symbol with serial := s.context.nextSerial }.name = none := free
  have advanced : s.issues = [] → Advanced s
      { s with context :=
        { s.context with
          environment := (s.context.environment.declareAt symbol.name
            { symbol with serial := s.context.nextSerial } offset level).1
          nextSerial := s.context.nextSerial + 1 } }
      fun _ V V' => V' = V.declareParam { symbol with offset, level, serial := s.context.nextSerial } := by
    intro clean
    have good : (s.context.environment.declareAt symbol.name { symbol with serial := s.context.nextSerial }
        offset level).1.Good := (fit clean).scopes.declareAt free (fine clean)
    have extended := s.context.environment.declareAt_extends symbol.name
      { symbol with serial := s.context.nextSerial } offset level
    refine ⟨⟨good, (fit clean).function⟩, extended, rfl, fun frame large => ?_⟩
    simp only [CheckState.view, View.declareParam]
    rw [Environment.declareAt_visible free]
    rfl
  refine ⟨fun clean => (advanced clean).ready, fun i named unjudged => ⟨fit, .cons unjudged .nil, ?_, .quiet rfl rfl, ?_⟩⟩
  · exact tracked_declaration (fun known holds => holds.declareAt { symbol with serial := s.context.nextSerial } _ _) rfl
      named.symm
  · exact fun clean => (advanced clean).imp fun _ _ _ view => ⟨_, rfl, view⟩

theorem declareParamNames_yields {count position : Nat} {loc : Bool} {mode : Option Mode}
    (names : List (Ident Origin))
    (fine : s.issues = [] → ∃ m, mode = some m ∧ m.Proper ∧ (loc = false → m.size = 1)) :
    Yields (declareParamNames count level loc mode position (names.map (Ident.map Origin.note))) s fun ids t =>
      ids.map (Ident.map Note.origin) = names ∧ Progress s t (identNodes ids) true fun _ V V' =>
        V'.level = V.level ∧ (V.level = level → ∀ m, mode = some m → ParamNamesSound count loc m V position ids V') := by
  induction names generalizing s position with
  | nil => exact fun fit => ⟨fit, rfl, .silent fit fun _ => ⟨rfl, fun _ _ _ => rfl⟩⟩
  | cons name rest ih =>
    refine (isFree_tells _).bind fun b t free asked => .ite (fun yes => ?_) fun no => ?_
    · have good : s.issues = [] → ∀ m, mode = some m →
          (paramSymbol count level loc m position (name.map Origin.note)).Good := by
        rintro clean m isMode
        obtain ⟨m', isMode', proper, sized⟩ := fine clean
        obtain rfl := Option.mem_unique isMode' isMode
        refine ⟨m', rfl, proper, ?_⟩
        cases loc with
        | true => trivial
        | false => exact sized rfl
      refine (declareAt_yields (asked.context ▸ free yes) fun clean => ?_).bind fun x t₁ declares => .step rfl id ?_
      · obtain ⟨m, rfl, _⟩ := fine (asked.adds.clean clean).1
        exact good (asked.adds.clean clean).1 m rfl
      have first := asked.andThen (declares (name.map Origin.note) rfl rfl)
      refine (ih fun clean => fine (first.adds.clean clean).1).bind fun ids u ⟨shapes, others⟩ =>
        .pure ⟨congrArg (name :: ·) shapes, { first.trans others with sound := fun clean => ?_ }⟩
      have good := good ((first.trans others).adds.clean clean).1
      refine ((first.trans others).sound clean).imp fun frame V V' holds => ?_
      obtain ⟨W, ⟨_, serial, rfl, rfl⟩, leveled, others⟩ := holds
      refine ⟨leveled, ?_⟩
      rintro rfl m rfl
      exact ⟨serial, rfl, good m rfl, others rfl m rfl⟩
    · refine .step rfl id ((ih fun clean => fine (asked.adds.clean clean).1).bind fun ids u ⟨shapes, others⟩ => .pure ?_)
      have unnamed := asked.name (i := name.map Origin.note) rfl (Ident.resolves_of_none rfl)
      exact ⟨congrArg (name :: ·) shapes, (unnamed.andThen others).imp fun _ _ _ _ holds => absurd holds.1 no⟩

/-- A parameter group with its names declared, beside the group before. -/
structure SameGroup (p p' : FormalParam Note) : Prop where
  note : p'.note.verdict = none
  mode : p'.mode = p.mode
  loc : p'.loc = p.loc
  length : p'.names.length = p.names.length

theorem declareParams_yields {count position : Nat} {trees : List (FormalParam Origin)}
    {ps : List (FormalParam Note)} (moded : List.Forall₂ Moded trees ps)
    (modes : s.issues = [] → ∃ symbols, ∀ p ∈ ps, ParamMode symbols p) :
    Yields (declareParams count level position ps) s fun ps' t =>
      ps'.map (FormalParam.map Note.origin) = trees ∧ List.Forall₂ SameGroup ps ps' ∧
        Progress s t (ps'.flatMap fun p => identNodes p.names) true fun _ V V' =>
          V.level = level → ParamsSound count V position ps' V' := by
  induction moded generalizing s position with
  | nil => exact fun fit => ⟨fit, rfl, .nil, .silent fit fun _ _ => rfl⟩
  | @cons tree p trees ps first _ ih =>
    have mode : s.issues = [] → p.mode.note.isValid = true ∧ ∃ m, p.mode.note.mode = some m ∧ m.Proper ∧
        (p.loc = false → m.size = 1) := fun clean =>
      let ⟨_, modes⟩ := modes clean
      ⟨(modes p List.mem_cons_self).1, (modes p List.mem_cons_self).2.2⟩
    have names : Yields (declareParamNames count level p.loc (if p.mode.note.isValid then p.mode.note.mode else none)
        position p.names) s _ := first.names ▸ declareParamNames_yields tree.names fun clean => by
      rw [if_pos (mode clean).1]
      exact (mode clean).2
    refine names.bind fun ids t ⟨shape, progress⟩ => (ih fun clean => ?_).bind fun ps' u ⟨shapes, same, progress'⟩ => .pure ?_
    · obtain ⟨symbols, modes⟩ := modes (progress.adds.clean clean).1
      exact ⟨symbols, (List.forall_mem_cons.mp modes).2⟩
    have length : ids.length = p.names.length := by
      rw [first.names, ← shape, List.length_map, List.length_map]
    refine ⟨?_, .cons ⟨by rw [first.note]; rfl, rfl, rfl, length⟩ same,
      { progress.trans progress' with sound := fun clean => ?_ }⟩
    · rw [List.map_cons, shapes]
      simp only [FormalParam.map, first.note, shape, first.mode, first.loc, Origin.origin_note]
    · obtain ⟨valid, m, isMode, _⟩ := mode ((progress.trans progress').adds.clean clean).1
      refine ((progress.trans progress').sound clean).imp fun frame V V' holds leveled => ?_
      obtain ⟨W, ⟨kept, names⟩, others⟩ := holds
      refine ⟨m, W, isMode, names leveled m ((if_pos valid).trans isMode), ?_⟩
      rw [length]
      exact others (kept.trans leveled)

section

variable {symbols : List Symbol} {ps ps' : List (FormalParam Note)}

theorem flatMap_parameters (same : List.Forall₂ SameGroup ps ps') (modes : ∀ p ∈ ps, ParamMode symbols p) :
    ps.flatMap FormalParam.parameters =
      ps'.flatMap fun q => q.names.map fun _ => { mode := q.mode.note.mode, loc := q.loc } := by
  induction same with
  | nil => rfl
  | @cons p p' _ _ first _ ih =>
    obtain ⟨⟨valid, _⟩, modes⟩ := List.forall_mem_cons.mp modes
    rw [List.flatMap_cons, List.flatMap_cons, ih modes, FormalParam.parameters, if_pos valid, first.mode, first.loc]
    simp only [List.map_const', first.length]

theorem count_of_sameGroup (same : List.Forall₂ SameGroup ps ps') : FormalParam.count ps' = FormalParam.count ps := by
  rw [count_eq_sum, count_eq_sum]
  induction same with
  | nil => rfl
  | cons first _ ih => rw [List.map_cons, List.map_cons, List.sum_cons, List.sum_cons, first.length, ih]

theorem length_parameters (ps : List (FormalParam Note)) :
    (ps.flatMap FormalParam.parameters).length = FormalParam.count ps := by
  rw [count_eq_sum]
  simp [FormalParam.parameters]

theorem ParamMode.parameters_good (modes : ∀ p ∈ ps, ParamMode symbols p) :
    ∀ q ∈ ps.flatMap FormalParam.parameters, q.Good := by
  intro q member
  obtain ⟨p, inGroups, inGroup⟩ := List.mem_flatMap.mp member
  obtain ⟨valid, _, m, isMode, proper, sized⟩ := modes p inGroups
  rw [FormalParam.parameters, if_pos valid] at inGroup
  obtain ⟨_, _, rfl⟩ := List.mem_map.mp inGroup
  exact ⟨m, isMode, proper, sized⟩

/-- What is said of the modes of parameter groups stays true when their names are declared. -/
theorem modes_of_sameGroup (same : List.Forall₂ SameGroup ps ps') :
    ps'.flatMap (·.mode.nodes) = ps.flatMap (·.mode.nodes) ∧
      ps'.all (·.mode.note.isValid) = ps.all (·.mode.note.isValid) ∧
      ∀ p' ∈ ps', p'.note.verdict = none ∧ ∃ p ∈ ps, p'.mode = p.mode := by
  induction same with
  | nil => exact ⟨rfl, rfl, List.forall_mem_nil _⟩
  | @cons p p' _ _ first _ ih =>
    obtain ⟨nodes, valids, each⟩ := ih
    refine ⟨?_, ?_, List.forall_mem_cons.mpr ⟨⟨first.note, p, List.mem_cons_self, first.mode⟩, fun q member => ?_⟩⟩
    · rw [List.flatMap_cons, List.flatMap_cons, first.mode, nodes]
    · rw [List.all_cons, List.all_cons, first.mode, valids]
    · exact (each q member).imp_right fun ⟨q', before, same⟩ => ⟨q', List.mem_cons_of_mem _ before, same⟩

/-- The names of parameter groups with their modes between them. -/
theorem tracks_params {e : Environment} {known known' : List Symbol} (holds : e.Holds known)
    (resolved : ∀ p ∈ ps, ∀ n ∈ p.mode.nodes, n.Resolves e)
    (tracks : Tracks known (ps.flatMap fun p => identNodes p.names) known') :
    Tracks known (ps.flatMap FormalParam.nodes) known' := by
  induction ps generalizing known with
  | nil => exact tracks
  | cons p rest ih =>
    obtain ⟨between, names, others⟩ := tracks_append.mp tracks
    obtain ⟨mode, modes⟩ := List.forall_mem_cons.mp resolved
    have holds := holds.mono names.subset
    exact .append (.append names (.of_resolved holds mode)) (ih holds modes others)

end

/-! ## Headers -/

/-- The nodes of a checked header. -/
def headerNodes (header : CheckedHeader) : List (Node Note) :=
  .ident header.name :: (header.params.flatMap FormalParam.nodes ++ (header.result.map ResultSpec.nodes).getD [])

/-- What a checked header establishes: the procedure is declared in the scope around it, and its parameters
in the scope of its body. -/
def EntersBody (s t : CheckState) (o : Origin) (header : CheckedHeader) : Prop :=
  ∃ s₁, header.name.note.symbol = some header.symbol ∧
    HeaderSound s.view o.labels header.params header.result header.procedure ∧
    (Advanced s s₁ fun _ V V' => ∃ serial,
      header.symbol = V.place { procedureSymbol header.procedure header.name with serial } ∧
        V' = V.declare { procedureSymbol header.procedure header.name with serial }) ∧
    (s₁.context.environment.push (some header.symbol)).Extends t.context.environment ∧
    t.context.environment.Good ∧ t.context.functions = s₁.context.functions ∧
    ParamsSound (FormalParam.count header.params) (s₁.view.enter header.symbol) 0 header.params
      { t.view with function := some header.symbol }

/-- The outcome of the check of a header. -/
structure Opens (s t : CheckState) (o : Origin) (header : CheckedHeader) : Prop where
  settled : Settled (headerNodes header) header.valid
  tracked : Tracked s t (headerNodes header)
  adds : Adds s t header.valid
  enters : t.issues = [] → EntersBody s t o header

/-- The procedure that a header with checked modes describes. -/
def headerProcedure (o : Origin) (level : Int64) (result : Option (ResultSpec Note)) (mode : Option Mode)
    (ps : List (FormalParam Note)) : Procedure where
  entry := (o.note.labels.map (·.first)).getD 0
  arity := .exactly (FormalParam.count ps)
  level
  result := mode.getD .void
  resultLoc := result.any (·.loc)
  params := ps.flatMap FormalParam.parameters

/-- The symbol of a procedure whose result may be at fault. -/
def headerSymbol (p : Procedure) (mode : Option Mode) (id : Ident Note) : Symbol :=
  { name := id.name, category := .procedure, mode, line := Int64.ofNat id.note.line, proc := some p }

/-- What is known of the modes of a header. -/
def HeaderModes (symbols : List Symbol) (result : Option (ResultSpec Note)) (mode : Option Mode)
    (ps : List (FormalParam Note)) : Prop :=
  (∃ m, mode = some m ∧ ResultMode symbols m result ∧ m.Proper ∧
    (result.any (·.loc) = false → m = .void ∨ m.size = 1)) ∧ ∀ p ∈ ps, ParamMode symbols p

section

variable {o : Origin} {name : Ident Origin} {result : Option (ResultSpec Note)} {mode : Option Mode} {level : Int64}
  {params : List (FormalParam Origin)} {ps : List (FormalParam Note)} {symbol : Symbol} {valid : Bool}

theorem HeaderModes.good {symbols : List Symbol} (modes : HeaderModes symbols result mode ps) :
    (headerProcedure o level result mode ps).Good := by
  obtain ⟨⟨m, rfl, _, proper, sized⟩, modes⟩ := modes
  exact ⟨proper, by rw [headerProcedure, length_parameters], ParamMode.parameters_good modes, sized⟩

/-- The parameters of a header are declared in the scope of the body. -/
private theorem headerParams_yields (leveled : level = s.context.environment.inner.level + 1)
    (groups : List.Forall₂ Moded params ps)
    (both : Passed s t ((result.map ResultSpec.nodes).getD [] ++ ps.flatMap (·.mode.nodes))
      (valid && ps.all (·.mode.note.isValid)) (HeaderModes · result mode ps))
    (named : Progress t u [.ident ((name.map Origin.note).resolve symbol .declaration)] true fun _ V V' => ∃ serial,
      symbol = V.place { headerSymbol (headerProcedure o level result mode ps) mode (name.map Origin.note) with serial } ∧
        V' = V.declare
          { headerSymbol (headerProcedure o level result mode ps) mode (name.map Origin.note) with serial }) :
    Yields (do
      setEnvironment ((← environment).push (some symbol))
      let params ← declareParams (FormalParam.count ps) level 0 ps
      return {
        valid := valid && params.all (·.mode.note.isValid)
        symbol, procedure := headerProcedure o level result mode ps
        name := (name.map Origin.note).resolve symbol .declaration
        params, result }) u fun header t => header.name.map Note.origin = name ∧
          header.params.map (FormalParam.map Note.origin) = params ∧ header.result = result ∧ Opens s t o header := by
  have whole := both.before named
  refine .environment (.step rfl
    (fun fit clean => ⟨(fit clean).scopes.push _, (fit clean).function⟩) ?_)
  have known : (u.withScopes (u.context.environment.push (some symbol))).issues = [] →
      ∃ symbols, ∀ p ∈ ps, ParamMode symbols p := fun clean =>
    ⟨_, ((whole.sound clean).sound _ (Int64.le_refl _)).1.2⟩
  refine (declareParams_yields groups known).bind fun ps' t' ⟨shapes, same, progress⟩ => .pure ⟨rfl, shapes, rfl, ?_⟩
  obtain ⟨modeNodes, valids, each⟩ := modes_of_sameGroup same
  have settled := both.settled
  have resolved := both.resolved
  rw [← modeNodes] at settled resolved
  refine ⟨?_, fun known knows => ?_, ?_, fun clean => ?_⟩
  · have all := (settled.append named.settled).append progress.settled
    rw [Bool.and_true, Bool.and_true] at all
    rw [valids]
    refine all.of_mem (fun n member => ?_) fun n member => ?_
    · grind [headerNodes, FormalParam.nodes]
    · simp only [headerNodes, FormalParam.nodes, List.mem_cons, List.mem_append, List.mem_flatMap] at member ⊢
      grind [Node.note]
  · obtain ⟨known₁, tracks₁, knows₁⟩ := named.tracked known (knows.of_context both.context)
    obtain ⟨known₂, tracks₂, knows₂⟩ := progress.tracked known₁ ⟨knows₁.holds.push _, knows₁.serials⟩
    have holds := knows.holds.mono tracks₁.subset
    obtain ⟨first, others⟩ := List.forall_mem_append.mp resolved
    refine ⟨known₂, tracks₁.append (.append (tracks_params holds ?_ tracks₂) ?_), knows₂⟩
    · exact fun p member n below => others n (List.mem_flatMap.mpr ⟨p, member, below⟩)
    · exact .of_resolved (holds.mono tracks₂.subset) first
  · have all := (whole.adds.trans (.quiet rfl rfl)).trans progress.adds
    rw [Bool.and_true, Bool.and_true, Bool.and_true, ← valids] at all
    exact all
  · have inside := progress.sound clean
    have before := whole.sound (progress.adds.clean clean).1
    obtain ⟨⟨⟨m, rfl, isResult, proper, sized⟩, isMode⟩, serial, isSymbol, view⟩ := before.sound _ (Int64.le_refl _)
    have level' : u.view.level = s.view.level := before.extends'.level_eq
    refine ⟨u, rfl, ?_, before.imp fun _ _ _ holds => holds.2, inside.extends', inside.ready.scopes, inside.functions, ?_⟩
    · refine ⟨rfl, by rw [count_of_sameGroup same]; rfl, rfl, leveled, isResult, rfl, fun q member => ?_,
        flatMap_parameters same isMode, HeaderModes.good ⟨⟨m, rfl, isResult, proper, sized⟩, isMode⟩⟩
      obtain ⟨_, p, before, sameMode⟩ := each q member
      rw [sameMode]
      exact (isMode p before).2.1
    · rw [count_of_sameGroup same]
      exact ((inside.sound _ (Int64.le_refl _)) (by rw [leveled]; exact congrArg (· + 1) level')).within (some symbol)

end

theorem checkHeader_yields (o : Origin) (name : Ident Origin) (params : List (FormalParam Origin))
    (spec : Option (ResultSpec Origin)) :
    Yields (checkHeader o.note (name.map Origin.note) (params.map (FormalParam.map Origin.note))
      (spec.map (ResultSpec.map Origin.note))) s fun header t => header.name.map Note.origin = name ∧
        header.params.map (FormalParam.map Note.origin) = params ∧
        header.result.map (ResultSpec.map Note.origin) = spec ∧ Opens s t o header := by
  refine (checkResult_yields spec).bind fun r t₁ done => ?_
  obtain ⟨valid, result, mode⟩ := r
  obtain ⟨shape, passed₁⟩ := done
  refine .environment ((checkModes_yields params).bind fun ps t₂ ⟨groups, passed₂⟩ =>
    (isFree_tells _).bind fun b t₃ free asked => ?_)
  have both : Passed s t₃ _ _ (HeaderModes · result mode ps) :=
    ((passed₁.trans passed₂).followed asked).imp fun _ _ => And.left
  have leveled : t₁.context.environment.inner.level + 1 = s.context.environment.inner.level + 1 := by rw [passed₁.context]
  refine .ite (fun yes => ?_) fun no => ?_
  · refine (declare_yields (headerSymbol (headerProcedure o _ result mode ps) mode (name.map Origin.note))
      (asked.context ▸ free yes) fun clean => ?_).bind fun symbol t₄ declares => ?_
    · have modes := (both.known clean).2
      obtain ⟨m, rfl, _, proper, _⟩ := modes.1
      exact ⟨m, rfl, proper, _, rfl, modes.good, rfl⟩
    · refine (headerParams_yields leveled groups both ((declares (name.map Origin.note) rfl rfl).imp ?_)).imp
        fun header t ⟨shape', shapes, same, opens⟩ => ⟨shape', shapes, same ▸ shape, opens⟩
      exact fun _ _ _ _ ⟨serial, isSymbol, _, view⟩ => ⟨serial, isSymbol, view⟩
  · refine .step rfl
      (fun fit clean => ⟨(fit clean).scopes, (fit clean).function⟩) (.step rfl id ?_)
    refine (headerParams_yields
      (u := { t₃ with context := { t₃.context with nextSerial := t₃.context.nextSerial + 1 } })
      leveled groups both ⟨asked.fits, .cons rfl .nil, ?_, .quiet rfl rfl, ?_⟩).imp
      fun header t ⟨shape', shapes, same, opens⟩ => ⟨shape', shapes, same ▸ shape, opens⟩
    · exact tracked_declaration (fun known holds => holds.mono (List.subset_cons_self _ _)) rfl rfl
    · exact fun clean => absurd (asked.sound clean) no

end Check

end LyaLang
