import LyaLang.Proofs.Check.ModeExpr
import LyaLang.Proofs.Check.Sound
import LyaLang.Proofs.Scope.Known

/-! # Checked declarations are sound

A check that declares extends the innermost scope and leaves the scopes around it as they were. A check of a
declaration without an issue makes it sound between the views before and after it. With issues or without, a name
that is declared gets a symbol of its own, and a name that is used gets one declared before.
-/

namespace LyaLang

open Ast

variable {known known' : List Symbol} {sound : List Symbol → Prop}

variable {ns : List (Node Note)}

/-- A state with its scopes replaced. -/
def CheckState.withScopes (s : CheckState) (e : Environment) : CheckState :=
  { s with context := { s.context with environment := e } }

/-- What a check sees of the scopes. -/
def CheckState.view (s : CheckState) : View where
  symbols := s.context.environment.visible
  next := s.context.environment.inner.next
  level := s.context.environment.inner.level
  function := s.context.currentFunction?

/-! ## Tracking names -/

namespace Ast

/-- What a name does to the symbols known before it: nothing, or it declares a new one, or it uses one of them. -/
inductive Ident.Adds (i : Ident Note) (known : List Symbol) : List Symbol → Prop
  | nothing (unknown : i.note.symbol = none) : Adds i known known
  | declares {x : Symbol} (isSymbol : i.note.symbol = some x) (usage : i.note.usage = some .declaration)
      (key : Scope.keyOf x.name = Scope.keyOf i.name) (fresh : ∀ y ∈ known, y.serial ≠ x.serial) : Adds i known (x :: known)
  | uses {x : Symbol} (isSymbol : i.note.symbol = some x) (usage : i.note.usage ≠ some .declaration)
      (key : Scope.keyOf x.name = Scope.keyOf i.name) (member : x ∈ known) : Adds i known known

theorem Ident.Adds.subset {i : Ident Note} (adds : i.Adds known known') : known ⊆ known' := by
  cases adds with
  | declares => exact List.subset_cons_self _ _
  | _ => exact List.Subset.refl _

/-- The names among some nodes, in their order, lead from the symbols known before to those known after. -/
def Tracks : List Symbol → List (Node Note) → List Symbol → Prop
  | known, [], known' => known' = known
  | known, .ident i :: rest, known' => ∃ between, i.Adds known between ∧ Tracks between rest known'
  | known, _ :: rest, known' => Tracks known rest known'

theorem Tracks.skip {n : Node Note} (plain : ∀ e, n.Resolves e)
    (tracks : Tracks known ns known') : Tracks known (n :: ns) known' := by
  cases n with
  | ident i =>
    refine ⟨known, .nothing ?_, tracks⟩
    cases isSymbol : i.note.symbol with
    | none => rfl
    | some x => cases ((plain {}) x isSymbol).2
  | _ => exact tracks

theorem tracks_append {ms : List (Node Note)} :
    Tracks known (ns ++ ms) known' ↔ ∃ between, Tracks known ns between ∧ Tracks between ms known' := by
  induction ns generalizing known with
  | nil => exact ⟨fun tracks => ⟨known, rfl, tracks⟩, fun ⟨_, same, tracks⟩ => same ▸ tracks⟩
  | cons n ns ih =>
    cases n with
    | ident i =>
      simp only [List.cons_append, Tracks, ih]
      exact ⟨fun ⟨first, adds, between, tracks, rest⟩ => ⟨between, ⟨first, adds, tracks⟩, rest⟩,
        fun ⟨between, ⟨first, adds, tracks⟩, rest⟩ => ⟨first, adds, between, tracks, rest⟩⟩
    | _ => exact ih

theorem Tracks.append {between : List Symbol} {ms : List (Node Note)} (first : Tracks known ns between)
    (second : Tracks between ms known') : Tracks known (ns ++ ms) known' := tracks_append.mpr ⟨between, first, second⟩

theorem Tracks.subset (tracks : Tracks known ns known') : known ⊆ known' := by
  induction ns generalizing known with
  | nil =>
    cases tracks
    exact List.Subset.refl _
  | cons n ns ih =>
    cases n with
    | ident i =>
      obtain ⟨between, adds, tracks⟩ := tracks
      exact List.Subset.trans adds.subset (ih tracks)
    | _ => exact ih tracks

/-- Names that are used add nothing. -/
theorem Tracks.of_resolved {e : Environment} (holds : e.Holds known) (resolved : ∀ n ∈ ns, n.Resolves e) : Tracks known ns known := by
  induction ns with
  | nil => rfl
  | cons n ns ih =>
    obtain ⟨first, others⟩ := List.forall_mem_cons.mp resolved
    cases n with
    | ident i =>
      refine ⟨known, ?_, ih others⟩
      cases isSymbol : i.note.symbol with
      | none => exact .nothing isSymbol
      | some x =>
        obtain ⟨used, found⟩ := first x isSymbol
        exact .uses isSymbol used (holds.lookup? found).1 (holds.lookup? found).2
    | _ => exact ih others

end Ast

namespace Check

variable {s t u : CheckState} {v w : Bool} {ns ms : List (Node Note)} {P Q : Int64 → View → View → Prop}

/-- The scopes of a state hold symbols of a list, and the next symbol will be another one. -/
structure Knows (s : CheckState) (known : List Symbol) : Prop where
  holds : s.context.environment.Holds known
  serials : ∀ x ∈ known, x.serial < s.context.nextSerial

theorem Knows.of_context (knows : Knows s known) (same : t.context = s.context) : Knows t known := by
  obtain ⟨holds, serials⟩ := knows
  rw [← same] at holds serials
  exact ⟨holds, serials⟩

/-- A check went over some nodes and kept track of their names. -/
def Tracked (s s' : CheckState) (nodes : List (Node Note)) : Prop :=
  ∀ known, Knows s known → ∃ known', Tracks known nodes known' ∧ Knows s' known'

theorem Tracked.trans (first : Tracked s t ns) (second : Tracked t u ms) : Tracked s u (ns ++ ms) := by
  intro known knows
  obtain ⟨between, tracks, knows⟩ := first known knows
  obtain ⟨known', tracks', knows⟩ := second between knows
  exact ⟨known', tracks.append tracks', knows⟩

/-- Names that were looked up before others were declared may stand behind them. -/
theorem Tracked.behind (tracked : Tracked t u ms) (same : t.context = s.context)
    (resolved : ∀ n ∈ ns, n.Resolves s.context.environment) : Tracked s u (ms ++ ns) := by
  intro known knows
  obtain ⟨known', tracks, knows'⟩ := tracked known (knows.of_context same)
  exact ⟨known', tracks.append (.of_resolved (knows.holds.mono tracks.subset) resolved), knows'⟩

/-! ## Progress -/

/-- A check went on from one state to another and established `sound` between their views, in any frame
that holds what has been given out. -/
structure Advanced (s s' : CheckState) (sound : Int64 → View → View → Prop) : Prop where
  ready : Ready s'
  extends' : s.context.environment.Extends s'.context.environment
  functions : s'.context.functions = s.context.functions
  sound : ∀ frame, s'.context.environment.frameSize ≤ frame → sound frame s.view s'.view

/-- The outcome of a check that may declare. -/
structure Progress (s s' : CheckState) (nodes : List (Node Note)) (valid : Bool) (sound : Int64 → View → View → Prop) :
    Prop where
  fit : Fit s
  settled : Settled nodes valid
  tracked : Tracked s s' nodes
  adds : Adds s s' valid
  sound : s'.issues = [] → Advanced s s' sound

theorem Ready.good (ready : Ready s) : s.view.Good := ready.scopes.symbols

theorem Advanced.trans (first : Advanced s t P) (second : Advanced t u Q) :
    Advanced s u fun frame V V' => ∃ W, P frame V W ∧ Q frame W V' := by
  refine ⟨second.ready, first.extends'.trans second.extends', second.functions.trans first.functions, ?_⟩
  intro frame large
  have grows := second.extends'.frameSize_le first.ready.scopes second.ready.scopes
  exact ⟨t.view, first.sound frame (Int64.le_trans grows large), second.sound frame large⟩

theorem Advanced.imp (advanced : Advanced s t P) (weaken : ∀ frame V V', P frame V V' → Q frame V V') :
    Advanced s t Q :=
  ⟨advanced.ready, advanced.extends', advanced.functions, fun frame large => weaken frame _ _ (advanced.sound frame large)⟩

theorem Advanced.of_context (same : t.context = s.context) (ready : Ready s) : Advanced s t fun _ V V' => V' = V := by
  refine ⟨?_, ?_, ?_, fun _ _ => ?_⟩
  · obtain ⟨scopes, function⟩ := ready
    rw [← same] at scopes function
    exact ⟨scopes, function⟩
  · rw [same]
    exact .refl _
  · rw [same]
  · rw [CheckState.view, CheckState.view, same]

namespace Progress

theorem trans (first : Progress s t ns v P) (second : Progress t u ms w Q) :
    Progress s u (ns ++ ms) (v && w) fun frame V V' => ∃ W, P frame V W ∧ Q frame W V' :=
  ⟨first.fit, first.settled.append second.settled, first.tracked.trans second.tracked, first.adds.trans second.adds,
    fun clean => (first.sound (second.adds.clean clean).1).trans (second.sound clean)⟩

theorem imp (progress : Progress s t ns v P) (weaken : ∀ frame V V', V.Good → P frame V V' → Q frame V V') :
    Progress s t ns v Q := by
  refine { progress with sound := fun clean => ?_ }
  obtain ⟨ready, extends', functions, holds⟩ := progress.sound clean
  have good := (progress.fit (progress.adds.clean clean).1).good
  exact ⟨ready, extends', functions, fun frame large => weaken frame _ _ good (holds frame large)⟩

theorem valid_eq (progress : Progress s t ns v P) (same : v = w) : Progress s t ns w P := same ▸ progress

theorem fits (progress : Progress s t ns v P) : Fit t := fun clean => (progress.sound clean).ready

theorem nodes_eq (progress : Progress s t ns v P) (same : ns = ms) : Progress s t ms v P := same ▸ progress

theorem silent (fit : Fit s) (sound : ∀ frame, P frame s.view s.view) : Progress s s [] true P :=
  ⟨fit, .nil, fun known knows => ⟨known, rfl, knows⟩, .quiet rfl rfl,
    fun clean => ⟨fit clean, .refl _, rfl, fun frame _ => sound frame⟩⟩

/-- A node that is neither judged nor a name. -/
theorem unjudged {n : Node Note} (progress : Progress s t ns v P) (unjudged : n.note.verdict = none)
    (plain : ∀ e, n.Resolves e) : Progress s t (n :: ns) v P :=
  { progress with
    settled := progress.settled.cons unjudged
    tracked := fun known knows => (progress.tracked known knows).imp fun _ tracks => ⟨tracks.1.skip plain, tracks.2⟩ }

end Progress

/-- A check that leaves the scopes alone does not change the view. -/
theorem Passed.progress (passed : Passed s t ns v sound) :
    Progress s t ns v fun _ V V' => V' = V ∧ sound V.symbols := by
  refine ⟨passed.fit, passed.settled, fun known knows => ⟨known, ?_, knows.of_context passed.context⟩, passed.adds, ?_⟩
  · exact .of_resolved knows.holds passed.resolved
  · intro clean
    obtain ⟨ready, extends', functions, same⟩ :=
      Advanced.of_context passed.context (passed.fit (passed.adds.clean clean).1)
    exact ⟨ready, extends', functions, fun frame large => ⟨same frame large, passed.sound clean⟩⟩

/-- A part that leaves the scopes alone stands before one that declares. -/
theorem Passed.andThen (passed : Passed s t ns v sound) (progress : Progress t u ms w Q) :
    Progress s u (ns ++ ms) (v && w) fun frame V V' => sound V.symbols ∧ Q frame V V' := by
  refine (passed.progress.trans progress).imp fun frame V V' _ holds => ?_
  obtain ⟨W, ⟨rfl, established⟩, rest⟩ := holds
  exact ⟨established, rest⟩

/-- A part that leaves the scopes alone stands after one that declares. -/
theorem Progress.thenPassed (progress : Progress s t ns v P) (passed : Passed t u ms w sound) :
    Progress s u (ns ++ ms) (v && w) fun frame V V' => P frame V V' ∧ sound V'.symbols := by
  refine (progress.trans passed.progress).imp fun frame V V' _ holds => ?_
  obtain ⟨W, rest, rfl, established⟩ := holds
  exact ⟨rest, established⟩

/-- Judging a construct that may declare. -/
theorem Rooted.judgedProgress {τ : Type → Type} [Noted τ] {nodes : τ Note → List (Node Note)} {origin : τ Note → τ Origin}
    {sound : τ Note → Int64 → View → View → Prop} (rooted : Rooted nodes origin sound)
    (plain : ∀ e x, RootResolves e (nodes x)) {tree : τ Origin} {visit : Check (Bool × τ Note)}
    (visits : Yields visit { s with own := [] } fun r t =>
      origin r.2 = tree ∧ Progress { s with own := [] } t (nodes r.2).tail r.1 (sound r.2)) :
    Yields (judge visit) s fun x t => origin x = tree ∧ Progress s t (nodes x) (Noted.note x).isValid (sound x) := by
  refine .judge (visits.imp fun r t done => ?_)
  obtain ⟨shape, progress⟩ := done
  obtain ⟨isValid, settled⟩ := rooted.settled t.own progress.settled
  obtain ⟨origins, sounds, _⟩ := rooted.kept (some ⟨r.1 && t.own.isEmpty, t.own⟩) s.context.environment r.2
  refine ⟨origins.trans shape, ?_⟩
  rw [isValid]
  refine ⟨progress.fit.of_context rfl id, settled, fun known knows => ?_, progress.adds.judged rfl, fun clean => ?_⟩
  · obtain ⟨known', tracks, knows'⟩ := progress.tracked known ⟨knows.holds, knows.serials⟩
    have tail : (nodes (withVerdict r.1 t.own r.2)).tail = (nodes r.2).tail := rooted.tail _ _
    have first := fun e => plain e (withVerdict r.1 t.own r.2)
    obtain ⟨n, list, _⟩ := rooted.root (withVerdict r.1 t.own r.2)
    rw [tail] at list
    rw [list] at first ⊢
    exact ⟨known', tracks.skip first, knows'.holds, knows'.serials⟩
  · obtain ⟨ready, extends', functions, holds⟩ := progress.sound clean
    refine ⟨⟨ready.scopes, ready.function⟩, extends', functions, ?_⟩
    rw [withVerdict, sounds]
    exact holds

/-! ## Declaring names -/

theorem isFree_tells (id : Ident Note) :
    Tells (isFree id) s (fun b => b = true → s.context.environment.find? id.name = none) fun b _ => b = true := by
  refine .environment ?_
  dsimp only
  split
  case h_1 missing => exact .pure (fun _ => (Option.or_eq_none_iff.mp missing).1) fun _ _ => rfl
  case h_2 => exact .report fun taken => absurd taken Bool.false_ne_true

/-- A name that declares the next symbol. -/
theorem tracked_declaration {i : Ident Note} {x : Symbol} {e : Environment}
    (holds : ∀ known, s.context.environment.Holds known → e.Holds (x :: known)) (serial : x.serial = s.context.nextSerial)
    (named : x.name = i.name) :
    Tracked s { s with context := { s.context with environment := e, nextSerial := s.context.nextSerial + 1 } }
      [.ident (i.resolve x .declaration)] := by
  intro known knows
  refine ⟨x :: known, ⟨x :: known, ?_, rfl⟩, holds known knows.holds, List.forall_mem_cons.mpr ⟨?_, fun y member => ?_⟩⟩
  · refine .declares rfl rfl (by rw [named]; rfl) fun y member same => ?_
    exact absurd (knows.serials y member) (by rw [same, serial]; exact Nat.lt_irrefl _)
  · rw [serial]
    exact Nat.lt_succ_self _
  · exact Nat.lt_succ_of_lt (knows.serials y member)

private theorem declare_parts (e : Environment) (name : Bytes) (symbol : Symbol) :
    (e.declare name symbol).2.name = symbol.name ∧ (e.declare name symbol).2.serial = symbol.serial := by
  unfold Environment.declare
  split <;> exact ⟨rfl, rfl⟩

private theorem declare_advanced {symbol : Symbol} (ready : Ready s)
    (free : s.context.environment.find? symbol.name = none) (fine : symbol.Good) :
    Advanced s
      { s with context :=
        { s.context with
          environment :=
            (s.context.environment.declare symbol.name { symbol with serial := s.context.nextSerial }).1
          nextSerial := s.context.nextSerial + 1 } }
      fun frame V V' =>
        (s.context.environment.declare symbol.name { symbol with serial := s.context.nextSerial }).2 =
            V.place { symbol with serial := s.context.nextSerial } ∧
          (symbol.category.hasStorage = true → V.next + symbol.size ≤ frame) ∧
          V' = V.declare { symbol with serial := s.context.nextSerial } := by
  have declared : Environment.Declared s.context.environment { symbol with serial := s.context.nextSerial } :=
    ready.scopes.declare free fine
  refine ⟨⟨declared.good, ready.function⟩, declared.extends', rfl, fun frame large =>
    ⟨declared.symbol_eq, fun storage => Int64.le_trans (declared.fits storage) large, ?_⟩⟩
  simp only [CheckState.view, View.declare, declared.visible, declared.next, declared.extends'.level_eq]
  rfl

theorem declare_yields (symbol : Symbol) (free : s.context.environment.find? symbol.name = none)
    (fine : s.issues = [] → symbol.Good) :
    Yields (Check.declare symbol) s fun x t => ∀ i : Ident Note, i.name = symbol.name → i.note.verdict = none →
      Progress s t [.ident (i.resolve x .declaration)] true fun frame V V' =>
        ∃ serial, x = V.place { symbol with serial } ∧
          (symbol.category.hasStorage = true → V.next + symbol.size ≤ frame) ∧ V' = V.declare { symbol with serial } := by
  intro fit
  have advanced := fun clean => declare_advanced (fit clean) free (fine clean)
  obtain ⟨name, serial⟩ := declare_parts s.context.environment symbol.name { symbol with serial := s.context.nextSerial }
  refine ⟨fun clean => (advanced clean).ready, fun i named unjudged => ⟨fit, .cons unjudged .nil, ?_, .quiet rfl rfl, ?_⟩⟩
  · exact tracked_declaration (fun known holds => holds.declare _) serial (name.trans named.symm)
  · exact fun clean => (advanced clean).imp fun _ _ _ holds => ⟨_, holds⟩

theorem declareNames_yields {make : Ident Note → Symbol} (names : List (Ident Origin))
    (named : ∀ id, (make id).name = id.name) (uses : ∀ id symbol usage, make (id.resolve symbol usage) = make id)
    (fine : s.issues = [] → ∀ id, (make id).Good) :
    Yields (declareNames make (names.map (Ident.map Origin.note))) s fun ids t =>
      ids.map (Ident.map Note.origin) = names ∧
        Progress s t (identNodes ids) true fun frame V V' => NamesSound frame make V ids V' := by
  induction names generalizing s with
  | nil => exact fun fit => ⟨fit, rfl, .silent fit fun _ => rfl⟩
  | cons name rest ih =>
    refine (isFree_tells _).bind fun b t free asked => .ite (fun yes => ?_) fun no => ?_
    · have free : t.context.environment.find? (make (name.map Origin.note)).name = none := by
        rw [asked.context, named]
        exact free yes
      refine (declare_yields _ free fun clean => fine (asked.adds.clean clean).1 _).bind fun x t₁ declares => .step rfl id ?_
      have first := asked.andThen (declares (name.map Origin.note) (named _).symm rfl)
      refine (ih fun clean => fine (first.adds.clean clean).1).bind fun ids u ⟨shapes, others⟩ =>
        .pure ⟨congrArg (name :: ·) shapes, { first.trans others with sound := fun clean => ?_ }⟩
      have good := fine ((first.trans others).adds.clean clean).1 (name.map Origin.note)
      refine ((first.trans others).sound clean).imp fun frame V V' holds => ?_
      obtain ⟨W, ⟨_, serial, rfl, fits, rfl⟩, others⟩ := holds
      refine ⟨serial, ?_, ?_, ?_, ?_⟩ <;> rw [uses]
      · rfl
      · exact good
      · exact fits
      · exact others
    · refine .step rfl id ((ih fun clean => fine (asked.adds.clean clean).1).bind fun ids u ⟨shapes, others⟩ => .pure ?_)
      have unnamed := asked.name (i := name.map Origin.note) rfl (Ident.resolves_of_none rfl)
      exact ⟨congrArg (name :: ·) shapes, (unnamed.andThen others).imp fun _ _ _ _ holds => absurd holds.1 no⟩

/-! ## Declarations -/

theorem Marked.passedOption {a a' : Option (Expr Note)} (marked : Option.Rel Marked a a')
    (passed : Passed s t (optionalNodes a) v sound) : Passed s t (optionalNodes a') v sound := by
  cases marked with
  | none => exact passed
  | some marked => exact marked.passed passed

theorem Marked.option_refl : ∀ a : Option (Expr Note), Option.Rel Marked a a
  | none => .none
  | some a => .some (.refl a)

theorem Marked.option_origin {a a' : Option (Expr Note)} (marked : Option.Rel Marked a a') :
    a'.map (Expr.map Note.origin) = a.map (Expr.map Note.origin) := by
  cases marked with
  | none => rfl
  | some marked => exact congrArg some marked.facts.2.2.2.1

theorem Passed.ofSome {e : Expr Note} {S : Expr Note → List Symbol → Prop} (passed : Passed s t e.nodes e.isValid (S e)) :
    Passed s t (optionalNodes (some e)) ((some e).all (·.isValid)) fun symbols => ∀ x, some e = some x → S x symbols :=
  passed.imp fun _ _ holds _ same => Option.some.inj same ▸ holds

theorem checkOptional_yields (tree : Option (Expr Origin)) :
    Yields (checkOptional (tree.map (Expr.map Origin.note))) s fun e t => e.map (Expr.map Note.origin) = tree ∧
      Passed s t (optionalNodes e) (e.all (·.isValid)) fun symbols => ∀ x, e = some x → x.Typed symbols := by
  cases tree with
  | none => exact fun fit => ⟨fit, rfl, .silent fit fun _ => nofun⟩
  | some tree =>
    exact (Expr.check_yields tree).bind fun e t ⟨shape, passed⟩ => .pure ⟨congrArg some shape, passed.ofSome⟩

theorem storageMode_tells (m : ModeExpr Note) :
    Tells (storageMode m) s (fun _ => True) fun mode _ => m.note.mode = mode ∧ ∀ k, mode = some k → k.size ≠ 0 := by
  unfold storageMode
  split
  case h_1 missing => exact .pure trivial fun _ _ => ⟨missing, nofun⟩
  case h_2 k isMode =>
    refine .ite (fun _ => .report trivial) fun sized => .pure trivial fun _ _ => ⟨isMode, ?_⟩
    simpa using sized

theorem checkAlias_tells (note : Note) (mode : Option Mode) (init : Option (Expr Note)) :
    Tells (checkAlias note mode init) s (Option.Rel Marked init) fun init' symbols => ∀ m, mode = some m →
      (∀ e, init = some e → e.Typed symbols) → InitialSound symbols true m init' := by
  cases init with
  | none => exact .report .none
  | some e =>
    have marked : Option.Rel Marked (some e) (some (e.markUsage .reference)) := .some (.mark nofun)
    refine .ite (fun unknown => .pure (.some (.refl e)) fun _ goods m _ typed => ?_) fun _ => ?_
    · simp [Expr.type, ((typed e rfl).hasMode goods).type_isKnown] at unknown
    refine .ite (fun _ => .report marked) fun location => ?_
    refine (Tells.expect _ _ _).after fun b t _ => .ite (fun _ => ?_) fun disagree => ?_
    · refine (Tells.sameSize _ _ _).after fun _ u _ => .pure marked fun _ goods same agree m isMode typed => ?_
      obtain ⟨m', isMode', _⟩ := (typed e rfl).hasMode goods
      subst isMode
      refine ⟨(e.markUsage_typed .reference _).mpr (typed e rfl), ?_, fun _ => ⟨?_, m', ?_, same m m' rfl isMode'⟩⟩
      · rw [Expr.markUsage_type]
        exact agree.2 m.type_isKnown (by rw [Expr.type, type_of_mode isMode']; exact m'.type_isKnown)
      · simpa using location
      · rw [Expr.markUsage_mode, isMode']
    · exact .pure marked fun _ _ agree => absurd agree.1 disagree

theorem checkInitial_tells (mode : Option Mode) (e : Expr Note) :
    Tells (checkInitial mode e) s (fun _ => True) fun _ symbols => ∀ m, mode = some m → e.Typed symbols →
      InitialSound symbols false m (some e) := by
  refine (Tells.expect _ _ _).after fun b t _ => .ite (fun _ => .ite (fun _ => .reports) fun location => ?_) fun scalar => ?_
  · refine (Tells.sameSize _ _ _).imp fun _ u done => ⟨trivial, done.2.imp fun _ goods same agree m isMode typed => ?_⟩
    obtain ⟨m', isMode', _⟩ := typed.hasMode goods
    subst isMode
    refine ⟨typed, agree.2 m.type_isKnown (typed.hasMode goods).type_isKnown, fun _ => ?_⟩
    exact ⟨by simpa using location, m', isMode', same m m' rfl isMode'⟩
  · refine .pure trivial fun _ goods agree m isMode typed => ?_
    subst isMode
    refine ⟨typed, agree.2 m.type_isKnown (typed.hasMode goods).type_isKnown, fun array => absurd ?_ scalar⟩
    exact Bool.and_eq_true_iff.mpr ⟨agree.1, array.resolve_left Bool.false_ne_true⟩

private theorem checkInitials_tells (mode : Option Mode) (init : Option (Expr Note)) :
    Tells (init.forM (checkInitial mode)) s (fun _ => True) fun _ symbols => ∀ m, mode = some m →
      (∀ e, init = some e → e.Typed symbols) → InitialSound symbols false m init := by
  cases init with
  | none => exact .pure trivial fun _ _ _ _ _ => rfl
  | some e =>
    refine (checkInitial_tells mode e).imp fun _ t done => ⟨trivial, done.2.imp fun _ _ sound m isMode typed => ?_⟩
    exact sound m isMode (typed e rfl)

theorem good_variableSymbol {loc : Bool} {m : Mode} (proper : m.Proper) (sized : m.size ≠ 0) (id : Ident Note) :
    (variableSymbol loc m id).Good := by
  refine ⟨m, rfl, proper, ?_⟩
  cases loc <;> exact ⟨sized, rfl⟩

/-- What was looked up before a declaration may stand behind it. -/
theorem Passed.before (passed : Passed s t ns v sound) (progress : Progress t u ms w Q) :
    Progress s u (ms ++ ns) (v && w) fun frame V V' => sound V.symbols ∧ Q frame V V' :=
  { passed.andThen progress with
    settled := Bool.and_comm w v ▸ progress.settled.append passed.settled
    tracked := progress.tracked.behind passed.context passed.resolved }

/-- Names are declared after the parts of a definition that say what they denote. -/
theorem Passed.thenNames (passed : Passed s t ns v sound) {make : Ident Note → Symbol}
    (names : List (Ident Origin)) (named : ∀ id, (make id).name = id.name)
    (uses : ∀ id symbol usage, make (id.resolve symbol usage) = make id)
    (good : ∀ symbols, (∀ x ∈ symbols, x.Good) → sound symbols → ∀ id, (make id).Good) :
    Yields (declareNames make (names.map (Ident.map Origin.note))) t fun ids u =>
      ids.map (Ident.map Note.origin) = names ∧ Progress s u (identNodes ids ++ ns) v fun frame V V' =>
        sound V.symbols ∧ NamesSound frame make V ids V' := by
  refine (declareNames_yields names named uses fun clean => good _ (passed.known clean).1 (passed.known clean).2).imp
    fun ids u ⟨shape, progress⟩ => ⟨shape, ?_⟩
  exact (passed.before progress).valid_eq (Bool.and_true v)

theorem rooted_declaration :
    Rooted Declaration.nodes (Declaration.map Note.origin) fun d frame V V' => d.Sound frame V V' where
  root _ := ⟨_, rfl, rfl, rfl⟩
  tail _ _ := rfl
  note _ _ := rfl
  kept _ _ _ := ⟨rfl, rfl, rfl⟩

theorem rooted_synonymDef :
    Rooted SynonymDef.nodes (SynonymDef.map Note.origin) fun d frame V V' => d.Sound frame V V' where
  root _ := ⟨_, rfl, rfl, rfl⟩
  tail _ _ := rfl
  note _ _ := rfl
  kept _ _ _ := ⟨rfl, rfl, rfl⟩

theorem rooted_modeDef : Rooted ModeDef.nodes (ModeDef.map Note.origin) fun d frame V V' => d.Sound frame V V' where
  root _ := ⟨_, rfl, rfl, rfl⟩
  tail _ _ := rfl
  note _ _ := rfl
  kept _ _ _ := ⟨rfl, rfl, rfl⟩

theorem Declaration.check_yields (tree : Declaration Origin) :
    Yields (tree.map Origin.note).check s fun d t => d.map Note.origin = tree ∧
      Progress s t d.nodes d.note.isValid fun frame V V' => d.Sound frame V V' := by
  obtain ⟨o, names, modeTree, loc, initTree⟩ := tree
  refine rooted_declaration.judgedProgress (fun _ _ => trivial) ((ModeExpr.check_yields modeTree).bind
    fun modeExpr t₁ ⟨shape, passed⟩ => (checkOptional_yields initTree).bind fun init t₂ ⟨shape', passed'⟩ =>
      (storageMode_tells modeExpr).bind fun mode t₃ _ stored => ?_)
  -- either way, what the initializer must satisfy is known once the mode is
  have establish : ∀ {t₄ : CheckState} {init' : Option (Expr Note)}, Option.Rel Marked init init' →
      (Passed t₃ t₄ [] true fun symbols => ∀ m, mode = some m → (∀ e, init = some e → e.Typed symbols) →
        InitialSound symbols loc m init') →
      init'.map (Expr.map Note.origin) = initTree ∧
        Passed { s with own := [] } t₄ (modeExpr.nodes ++ optionalNodes init')
          (modeExpr.note.isValid && init.all (·.isValid)) fun symbols =>
            ∃ m, modeExpr.Typed symbols ∧ modeExpr.note.mode = some m ∧ mode = some m ∧ m.size ≠ 0 ∧
              InitialSound symbols loc m init' := by
    intro t₄ init' marked initialized
    refine ⟨(Marked.option_origin marked).trans shape', ?_⟩
    refine (((passed.trans (Marked.passedOption marked passed')).followed stored).followed initialized).imp
      fun symbols goods sound => ?_
    obtain ⟨⟨⟨typed, typed'⟩, isMode, sized⟩, initial⟩ := sound
    obtain ⟨m, same, _⟩ := typed.hasMode goods
    have isSome := isMode.symm.trans same
    exact ⟨m, typed, same, isSome, sized m isSome, initial m isSome typed'⟩
  have declares : ∀ {t₄ : CheckState} {init' : Option (Expr Note)},
      init'.map (Expr.map Note.origin) = initTree ∧
        (Passed { s with own := [] } t₄ (modeExpr.nodes ++ optionalNodes init')
          (modeExpr.note.isValid && init.all (·.isValid)) fun symbols =>
            ∃ m, modeExpr.Typed symbols ∧ modeExpr.note.mode = some m ∧ mode = some m ∧ m.size ≠ 0 ∧
              InitialSound symbols loc m init') →
      Yields (do
        let names ← declareNames (fun id =>
          { name := id.name, category := if loc then .location else .var, mode
            size := if loc then 1 else (mode.map Mode.size).getD 0, line := Int64.ofNat id.note.line })
          (names.map (Ident.map Origin.note))
        return (modeExpr.note.isValid && init.all (·.isValid), ⟨o.note, names, modeExpr, loc, init'⟩) :
          Check (Bool × Declaration Note)) t₄ fun r t => r.2.map Note.origin = ⟨o, names, modeTree, loc, initTree⟩ ∧
            Progress { s with own := [] } t r.2.nodes.tail r.1 fun frame V V' => r.2.Sound frame V V' := by
    intro t₄ init' ⟨shape', passed⟩
    refine (passed.thenNames names (fun _ => rfl) (fun _ _ _ => rfl) fun symbols goods sound id => ?_).bind
      fun ids u ⟨shapes, progress⟩ => .pure ⟨?_, (progress.imp fun _ V _ good holds => ?_).nodes_eq ?_⟩
    · obtain ⟨m, typed, isMode, rfl, sized, _⟩ := sound
      obtain ⟨m', same, proper⟩ := typed.hasMode goods
      obtain rfl := Option.mem_unique same isMode
      exact good_variableSymbol proper sized id
    · simp only [Declaration.map, shapes, shape, shape', Origin.origin_note]
    · obtain ⟨⟨m, typed, isMode, rfl, sized, initial⟩, declared⟩ := holds
      exact ⟨m, typed, isMode, sized, initial, declared⟩
    · exact (List.append_assoc ..).symm
  cases loc with
  | true => exact (checkAlias_tells _ mode init).bind fun init' t₄ marked next => declares (establish marked next)
  | false =>
    refine (checkInitials_tells mode init).bind fun _ t₄ _ next => .step rfl id (declares (establish ?_ next))
    exact Marked.option_refl init

theorem ModeDef.check_yields (tree : ModeDef Origin) :
    Yields (tree.map Origin.note).check s fun d t => d.map Note.origin = tree ∧
      Progress s t d.nodes d.note.isValid fun frame V V' => d.Sound frame V V' := by
  obtain ⟨o, names, modeTree⟩ := tree
  refine rooted_modeDef.judgedProgress (fun _ _ => trivial) ((ModeExpr.check_yields modeTree).bind
    fun modeExpr t₁ ⟨shape, passed⟩ => ?_)
  have isMode : ∀ {symbols : List Symbol}, (∀ x ∈ symbols, x.Good) → modeExpr.Typed symbols →
      ∃ m, modeExpr.note.mode = some m ∧ m.Proper := fun goods typed => typed.hasMode goods
  refine (passed.thenNames names (fun _ => rfl) (fun _ _ _ => rfl) fun symbols goods typed id => ?_).bind
    fun ids u ⟨shapes, progress⟩ => .pure ⟨?_, progress.imp fun _ V _ good holds => ?_⟩
  · obtain ⟨m, same, proper⟩ := isMode goods typed
    rw [same]
    exact ⟨_, rfl, proper, trivial⟩
  · exact congr (congrArg (ModeDef.mk o) shapes) shape
  · obtain ⟨m, same, _⟩ := isMode good holds.1
    rw [same] at holds
    exact ⟨m, holds.1, same, holds.2⟩

private theorem good_synonymSymbol {symbols : List Symbol} (goods : ∀ x ∈ symbols, x.Good) {value : Expr Note}
    {modeExpr : Option (ModeExpr Note)} {m : Mode} {k : Word} (typed : value.Typed symbols)
    (isConstant : value.note.constant = some k) (isMode : SynonymMode symbols value m modeExpr) (id : Ident Note) :
    (synonymSymbol m k id).Good := by
  obtain ⟨m', same, proper, fits⟩ := typed.hasMode goods
  have fits := fits k isConstant
  cases modeExpr with
  | none =>
    obtain rfl := Option.mem_unique same isMode
    exact ⟨_, rfl, proper, fits⟩
  | some given =>
    obtain ⟨typed', isMode', type⟩ := isMode
    obtain ⟨m'', same', proper'⟩ := typed'.hasMode goods
    obtain rfl := Option.mem_unique same' isMode'
    rw [← type_of_mode same] at fits
    exact ⟨_, rfl, proper', type ▸ fits⟩

section

variable {o : Origin} {names : List (Ident Origin)} {value : Expr Note} {modeExpr : Option (ModeExpr Note)}
  {mode : Option Mode}

private theorem synonymNames_yields
    (passed : Passed s t (value.nodes ++ (modeExpr.map ModeExpr.nodes).getD []) v fun symbols => ∃ m k,
      value.Typed symbols ∧ value.note.constant = some k ∧ SynonymMode symbols value m modeExpr ∧ mode = some m) :
    Yields (do
      let names ← declareNames (fun id =>
        { name := id.name, category := .synonym, mode, line := Int64.ofNat id.note.line,
          value := value.note.constant.getD {} }) (names.map (Ident.map Origin.note))
      return (v, { note := o.note, names, mode := modeExpr, value }) : Check (Bool × SynonymDef Note)) t fun r u =>
        r.2.map Note.origin = ⟨o, names, modeExpr.map (ModeExpr.map Note.origin), value.map Note.origin⟩ ∧
          Progress s u r.2.nodes.tail r.1 fun frame V V' => r.2.Sound frame V V' := by
  refine ((passed.perm List.perm_append_comm).thenNames names (fun _ => rfl) (fun _ _ _ => rfl)
    fun symbols goods sound id => ?_).bind fun ids u ⟨shapes, progress⟩ =>
      .pure ⟨?_, (progress.imp fun _ V _ good holds => ?_).nodes_eq ?_⟩
  · obtain ⟨m, k, typed, isConstant, isMode, rfl⟩ := sound
    rw [isConstant]
    exact good_synonymSymbol goods typed isConstant isMode id
  · simp only [SynonymDef.map, shapes, Origin.origin_note]
  · obtain ⟨⟨m, k, typed, isConstant, isMode, rfl⟩, declared⟩ := holds
    rw [isConstant] at declared
    exact ⟨m, k, typed, isConstant, isMode, declared⟩
  · exact (List.append_assoc ..).symm

/-- The names of a synonym definition are declared once its mode is known. -/
private theorem synonym_yields
    (passed : Passed s t (value.nodes ++ (modeExpr.map ModeExpr.nodes).getD []) v fun symbols =>
      ∃ m, value.Typed symbols ∧ SynonymMode symbols value m modeExpr ∧ mode = some m) :
    Yields (do
      if v && value.note.constant.isNone then report value.line .notConstant
      let names ← declareNames (fun id =>
        { name := id.name, category := .synonym, mode, line := Int64.ofNat id.note.line,
          value := value.note.constant.getD {} }) (names.map (Ident.map Origin.note))
      return (v, { note := o.note, names, mode := modeExpr, value }) : Check (Bool × SynonymDef Note)) t fun r u =>
        r.2.map Note.origin = ⟨o, names, modeExpr.map (ModeExpr.map Note.origin), value.map Note.origin⟩ ∧
          Progress s u r.2.nodes.tail r.1 fun frame V V' => r.2.Sound frame V V' := by
  refine .ite (fun _ => .report fun t' reported => synonymNames_yields (passed.reported reported)) fun constant => ?_
  refine synonymNames_yields (passed.knowing.imp fun _ _ sound => ?_)
  obtain ⟨valid, _, m, typed, isMode, isSome⟩ := sound
  subst valid
  obtain ⟨k, isConstant⟩ := Option.ne_none_iff_exists'.mp (by simpa using constant)
  exact ⟨m, k, typed, isConstant, isMode, isSome⟩

end

theorem SynonymDef.check_yields (tree : SynonymDef Origin) :
    Yields (tree.map Origin.note).check s fun d t => d.map Note.origin = tree ∧
      Progress s t d.nodes d.note.isValid fun frame V V' => d.Sound frame V V' := by
  obtain ⟨o, names, modeTree, valueTree⟩ := tree
  refine rooted_synonymDef.judgedProgress (fun _ _ => trivial) ((Expr.check_yields valueTree).bind
    fun value t₁ ⟨shape, passed⟩ => ?_)
  subst shape
  cases modeTree with
  | none =>
    have passed := (passed.nodes_eq (List.append_nil _).symm).valid_eq (Bool.and_true _).symm
    refine .step rfl id (.ite (fun bad => .step rfl id ?_) fun good => .step rfl id ?_)
    · exact synonym_yields ((passed.stop bad).valid_eq ((Bool.not_eq_true' _).mp bad).symm)
    · refine synonym_yields (passed.imp fun _ goods typed => ?_)
      obtain ⟨m, same, _⟩ := typed.hasMode goods
      exact ⟨m, typed, same, same⟩
  | some modeTree =>
    refine (ModeExpr.check_yields modeTree).bind fun modeExpr t₂ ⟨shape, passed'⟩ => .step rfl id ?_
    subst shape
    have both := passed.trans passed'
    refine .ite (fun bad => .step rfl id ?_) fun good => ?_
    · exact synonym_yields ((both.stop bad).valid_eq ((Bool.not_eq_true' _).mp bad).symm)
    · cases given : modeExpr.note.mode with
      | none =>
        simp only [Option.bind_some, given]
        refine .step rfl id (synonym_yields (both.imp fun _ goods typed => ?_))
        obtain ⟨m, same, _⟩ := typed.2.hasMode goods
        rw [given] at same
        cases same
      | some m =>
        simp only [Option.bind_some, given]
        refine (Tells.expect _ _ _).bind fun _ t₃ _ expected => .step rfl id ?_
        refine synonym_yields ((both.followed expected).imp fun _ goods sound => ?_)
        obtain ⟨⟨typed, typed'⟩, _, agree⟩ := sound
        exact ⟨m, typed, ⟨typed', given, agree m.type_isKnown (typed.hasMode goods).type_isKnown⟩, rfl⟩

theorem checkEach_yields {γ δ : Type} {check : γ → Check γ} {fresh : δ → γ} {origin : γ → δ} {valid : γ → Bool}
    {nodes : γ → List (Node Note)} {sound : Int64 → View → γ → View → Prop}
    (each : ∀ tree s, Yields (check (fresh tree)) s fun x t =>
      origin x = tree ∧ Progress s t (nodes x) (valid x) fun frame V V' => sound frame V x V') (trees : List δ) :
    Yields (checkEach check (trees.map fresh)) s fun xs t => xs.map origin = trees ∧
      Progress s t (xs.flatMap nodes) (xs.all valid) fun frame V V' => EachSound (sound frame) V xs V' := by
  induction trees generalizing s with
  | nil => exact fun fit => ⟨fit, rfl, .silent fit fun _ => rfl⟩
  | cons tree rest ih =>
    refine (each tree s).bind fun x t ⟨shape, progress⟩ => ih.bind fun xs u ⟨shapes, progress'⟩ => .pure ⟨?_, ?_⟩
    · exact congr (congrArg List.cons shape) shapes
    · exact progress.trans progress'

end Check

end LyaLang
