import LyaLang.Check.Monad
import LyaLang.Proofs.Effect
import LyaLang.Proofs.Scope.Good
import LyaLang.Proofs.Tree.Labels
import LyaLang.Proofs.Tree.Subtree

/-! # Outcomes of checks

A check only adds issues. It is silent, adding none to those of the program, exactly if it adds none to
the construct at hand and the parts that it has checked are valid. What a check establishes about a
construct is claimed as long as no issue has been found. All that is visible then has what a check may
need of it, so a check that cannot go on has found an issue before.
-/

namespace LyaLang

open Ast

variable {line : Nat} {fault : Fault} {τ : Type → Type}

/-! ## What is noted on nodes -/

namespace Ast

/-- No issue was found on a node that was judged. -/
def Silent (nodes : List (Node Note)) : Prop :=
  ∀ n ∈ nodes, ∀ v, n.note.verdict = some v → v.issues = []

/-- The verdict on a node, if there is one, says whether no issue was found on it and below it. -/
def Node.Faithful (n : Node Note) : Prop :=
  ∀ v, n.note.verdict = some v → (v.valid = true ↔ Silent n.subtree)

/-- The verdicts on some nodes are faithful, and `valid` says whether no issue was found on them. -/
def Settled (nodes : List (Node Note)) (valid : Bool) : Prop :=
  (∀ n ∈ nodes, n.Faithful) ∧ (valid = true ↔ Silent nodes)

namespace Settled

variable {ns ms : List (Node Note)} {v w : Bool}

theorem nil : Settled [] true := by
  refine ⟨List.forall_mem_nil _, fun _ => ?_, fun _ => rfl⟩
  exact List.forall_mem_nil _

theorem append (left : Settled ns v) (right : Settled ms w) : Settled (ns ++ ms) (v && w) := by
  refine ⟨List.forall_mem_append.mpr ⟨left.1, right.1⟩, ?_⟩
  rw [Bool.and_eq_true, left.2, right.2]
  exact List.forall_mem_append.symm

/-- Nodes that were not judged change nothing. -/
theorem of_mem (settled : Settled ns v) (more : ns ⊆ ms) (fresh : ∀ n ∈ ms, n ∈ ns ∨ n.note.verdict = none) :
    Settled ms v := by
  have unjudged : ∀ {n v'}, n ∈ ms → n.note.verdict = some v' → n ∈ ns := fun {n _} member judged =>
    (fresh n member).resolve_right fun unjudged => by
      rw [unjudged] at judged
      cases judged
  refine ⟨fun n member v' judged => settled.1 n (unjudged member judged) v' judged, settled.2.trans ?_⟩
  exact ⟨fun silent n member v' judged => silent n (unjudged member judged) v' judged,
    fun silent n member => silent n (more member)⟩

theorem perm (settled : Settled ns v) (same : ns.Perm ms) : Settled ms v :=
  settled.of_mem same.subset fun _ member => .inl (same.mem_iff.mpr member)

theorem cons {n : Node Note} (unjudged : n.note.verdict = none) (rest : Settled ns v) : Settled (n :: ns) v :=
  rest.of_mem (List.subset_cons_self _ _) (List.forall_mem_cons.mpr ⟨.inr unjudged, fun _ => .inl⟩)

theorem unjudged (none : ∀ n ∈ ns, n.note.verdict = none) : Settled ns true :=
  nil.of_mem (List.nil_subset _) fun n member => .inr (none n member)

end Settled

/-- A name that denotes something uses what the scopes hold under it. -/
def Ident.Resolves (e : Environment) (i : Ident Note) : Prop :=
  ∀ symbol, i.note.symbol = some symbol → i.note.usage ≠ some .declaration ∧ e.lookup? i.name = some symbol

theorem Ident.resolves_of_none {e : Environment} {i : Ident Note} (none : i.note.symbol = none) : i.Resolves e := by
  intro symbol isSymbol
  rw [none] at isSymbol
  cases isSymbol

/-- What a name among the nodes denotes comes from the scopes. -/
def Node.Resolves (e : Environment) : Node Note → Prop
  | .ident i => i.Resolves e
  | _ => True

/-- What the first of some nodes denotes, if it is a name, comes from the scopes. -/
def RootResolves (e : Environment) : List (Node Note) → Prop
  | [] => True
  | n :: _ => n.Resolves e

end Ast

namespace Check

variable {s t u : CheckState} {v w : Bool} {ns ms : List (Node Note)} {P Q : List Symbol → Prop}

/-! ## Issues -/

/-- A check can go on: the scopes are good, and the procedure around is one. -/
structure Ready (s : CheckState) : Prop where
  scopes : s.context.environment.Good
  function : ∀ f, s.context.currentFunction? = some f → ∃ p, f.proc = some p

/-- As long as no issue has been found, a check can rely on the scopes. -/
def Fit (s : CheckState) : Prop := s.issues = [] → Ready s

theorem Fit.of_context (fit : Fit s) (same : t.context = s.context) (clean : t.issues = [] → s.issues = []) : Fit t := by
  intro silent
  obtain ⟨scopes, function⟩ := fit (clean silent)
  rw [← same] at scopes function
  exact ⟨scopes, function⟩

/-- A check adds issues, and is silent exactly if it adds none of its own and its parts are valid. -/
def Adds (s s' : CheckState) (valid : Bool) : Prop :=
  ∃ all own, s'.issues = s.issues ++ all ∧ s'.own = s.own ++ own ∧ (all = [] ↔ own = [] ∧ valid = true)

/-- An issue was reported. -/
def Reported (s s' : CheckState) : Prop :=
  ∃ issue, s' = { s with issues := s.issues ++ [issue], own := s.own ++ [issue] }

namespace Adds

/-- A step that adds no issue. -/
theorem quiet (issues : t.issues = s.issues) (own : t.own = s.own) : Adds s t true :=
  ⟨[], [], by simp [issues], by simp [own], by simp⟩

theorem trans (first : Adds s t v) (second : Adds t u w) : Adds s u (v && w) := by
  obtain ⟨all, own, issues, owns, silent⟩ := first
  obtain ⟨all', own', issues', owns', silent'⟩ := second
  refine ⟨all ++ all', own ++ own', ?_, ?_, ?_⟩
  · rw [issues', issues, List.append_assoc]
  · rw [owns', owns, List.append_assoc]
  · simp only [List.append_eq_nil_iff, silent, silent', Bool.and_eq_true]
    exact and_and_and_comm

/-- What is known without an issue. -/
theorem clean (adds : Adds s t v) (clean : t.issues = []) : s.issues = [] ∧ t.own = s.own ∧ v = true := by
  obtain ⟨all, own, issues, owns, silent⟩ := adds
  rw [issues] at clean
  obtain ⟨before, quiet⟩ := List.append_eq_nil_iff.mp clean
  obtain ⟨none, valid⟩ := silent.mp quiet
  exact ⟨before, by rw [owns, none, List.append_nil], valid⟩

/-- After a report, it does not matter which parts are valid. -/
theorem reported (adds : Adds s t v) (reported : Reported t u) (w : Bool) : Adds s u w := by
  obtain ⟨issue, rfl⟩ := reported
  obtain ⟨all, own, issues, owns, _⟩ := adds
  refine ⟨all ++ [issue], own ++ [issue], ?_, ?_, by simp⟩
  · simp only [issues, List.append_assoc]
  · simp only [owns, List.append_assoc]

/-- A judged construct adds nothing of its own to the construct around it. -/
theorem judged {own : List Issue} (adds : Adds { s with own := [] } t v) (around : own = s.own) :
    Adds s { t with own } (v && t.own.isEmpty) := by
  obtain ⟨all, own', issues, owns, silent⟩ := adds
  refine ⟨all, [], issues, by simp [around], ?_⟩
  rw [silent, owns]
  simp [and_comm]

end Adds

theorem Reported.found (reported : Reported s t) : t.issues ≠ [] := by
  obtain ⟨issue, rfl⟩ := reported
  simp

theorem Reported.context (reported : Reported s t) : t.context = s.context := by
  obtain ⟨issue, rfl⟩ := reported
  rfl

/-! ## Checks that leave the scopes alone -/

/-- A check that leaves the scopes alone has gone over some nodes, with what it establishes about the visible
symbols. -/
structure Passed (s s' : CheckState) (nodes : List (Node Note)) (valid : Bool) (sound : List Symbol → Prop) : Prop where
  fit : Fit s
  context : s'.context = s.context
  settled : Settled nodes valid
  resolved : ∀ n ∈ nodes, n.Resolves s.context.environment
  adds : Adds s s' valid
  sound : s'.issues = [] → sound s.context.environment.visible

namespace Passed

theorem silent (fit : Fit s) (sound : s.context.environment.Good → P s.context.environment.visible) :
    Passed s s [] true P :=
  ⟨fit, rfl, .nil, List.forall_mem_nil _, .quiet rfl rfl, fun clean => sound (fit clean).scopes⟩

theorem fits (passed : Passed s t ns v P) : Fit t :=
  passed.fit.of_context passed.context fun clean => (passed.adds.clean clean).1

/-- What a check without an issue has established. -/
theorem known (passed : Passed s t ns v P) (clean : t.issues = []) :
    (∀ x ∈ s.context.environment.visible, x.Good) ∧ P s.context.environment.visible :=
  ⟨(passed.fit (passed.adds.clean clean).1).scopes.symbols, passed.sound clean⟩

theorem trans (first : Passed s t ns v P) (second : Passed t u ms w Q) :
    Passed s u (ns ++ ms) (v && w) fun symbols => P symbols ∧ Q symbols := by
  have resolved := second.resolved
  have sound := second.sound
  rw [first.context] at resolved sound
  exact ⟨first.fit, second.context.trans first.context, first.settled.append second.settled,
    List.forall_mem_append.mpr ⟨first.resolved, resolved⟩, first.adds.trans second.adds,
    fun clean => ⟨first.sound (second.adds.clean clean).1, sound clean⟩⟩

theorem imp (passed : Passed s t ns v P) (weaken : ∀ symbols, (∀ x ∈ symbols, x.Good) → P symbols → Q symbols) :
    Passed s t ns v Q :=
  { passed with sound := fun clean => weaken _ (passed.known clean).1 (passed.sound clean) }

/-- A silent check knows that its parts are valid and that it has added nothing of its own. -/
theorem knowing (passed : Passed s t ns v P) : Passed s t ns v fun symbols => v = true ∧ t.own = s.own ∧ P symbols :=
  { passed with sound := fun clean => ⟨(passed.adds.clean clean).2.2, (passed.adds.clean clean).2.1, passed.sound clean⟩ }

theorem valid_eq (passed : Passed s t ns v P) (same : v = w) : Passed s t ns w P := same ▸ passed

theorem nodes_eq (passed : Passed s t ns v P) (same : ns = ms) : Passed s t ms v P := same ▸ passed

/-- A check that stops at an invalid part. -/
theorem stop (passed : Passed s t ns v P) (bad : (!v) = true) : Passed s t ns false Q := by
  have invalid := (Bool.not_eq_true' v).mp bad
  subst invalid
  exact { passed with sound := fun clean => absurd (passed.adds.clean clean).2.2 Bool.false_ne_true }

/-- A check of the construct itself follows that of its parts. -/
theorem followed (passed : Passed s t ns v P) (next : Passed t u [] true Q) :
    Passed s u ns v fun symbols => P symbols ∧ Q symbols := by
  have both := passed.trans next
  rwa [List.append_nil, Bool.and_true] at both

/-- A check that goes on with valid parts. -/
theorem go (passed : Passed s t ns v P) (good : ¬ (!v) = true) (next : Passed t u [] true Q) :
    Passed s u ns true fun symbols => P symbols ∧ Q symbols :=
  (passed.followed next).valid_eq (by simpa using good)

/-- After a report there is nothing to establish. -/
theorem reported (passed : Passed s t ns v P) (reported : Reported t u) : Passed s u ns v Q :=
  { passed with
    context := reported.context.trans passed.context
    adds := passed.adds.reported reported v
    sound := fun clean => absurd clean reported.found }

/-- A name that is not judged on its own. -/
theorem name {i : Ident Note} (passed : Passed s t ns v P) (unjudged : i.note.verdict = none)
    (resolves : i.Resolves s.context.environment) : Passed s t (.ident i :: ns) v P :=
  { passed with
    settled := passed.settled.cons unjudged
    resolved := List.forall_mem_cons.mpr ⟨resolves, passed.resolved⟩ }

/-- A node that is neither judged nor a name. -/
theorem unjudged {n : Node Note} (passed : Passed s t ns v P) (unjudged : n.note.verdict = none)
    (resolves : ∀ e, n.Resolves e) : Passed s t (n :: ns) v P :=
  { passed with
    settled := passed.settled.cons unjudged
    resolved := List.forall_mem_cons.mpr ⟨resolves _, passed.resolved⟩ }

theorem perm (passed : Passed s t ns v P) (same : ns.Perm ms) : Passed s t ms v P :=
  { passed with
    settled := passed.settled.perm same
    resolved := fun n member => passed.resolved n (same.mem_iff.mpr member) }

/-- A tree that was not checked. -/
theorem fresh (passed : Passed s t ns v P) (tree : Expr Origin) :
    Passed s t (ns ++ (tree.map Origin.note).nodes) v P := by
  have unjudged : ∀ n ∈ (tree.map Origin.note).nodes, n.note.verdict = none ∧ n.note.symbol = none := by
    rw [Expr.nodes_map]
    intro n member
    obtain ⟨m, _, rfl⟩ := List.mem_map.mp member
    rw [Node.note_map]
    exact ⟨rfl, rfl⟩
  have settled := passed.settled.append (.unjudged fun n member => (unjudged n member).1)
  rw [Bool.and_true] at settled
  refine { passed with settled, resolved := List.forall_mem_append.mpr ⟨passed.resolved, fun n member => ?_⟩ }
  cases n with
  | ident i => exact Ident.resolves_of_none (unjudged _ member).2
  | _ => trivial

end Passed

/-! ## What a check yields -/

variable {γ δ : Type} {post : γ → CheckState → Prop}

/-- A check that starts where it can rely on the scopes ends so with `post`, or stops after an issue. -/
def Yields (x : Check γ) (s : CheckState) (post : γ → CheckState → Prop) : Prop :=
  Fit s → match x s with
    | .ok a t => Fit t ∧ post a t
    | .error _ t => t.issues ≠ []

namespace Yields

theorem of_ok {x : Check γ} (yields : Yields x s post) (fit : Fit s) {a : γ} (ran : x s = .ok a t) : post a t := by
  have done := yields fit
  rw [ran] at done
  exact done.2

theorem of_error {x : Check γ} (yields : Yields x s post) (fit : Fit s) {c : Crash} (ran : x s = .error c t) :
    t.issues ≠ [] := by
  have done := yields fit
  rw [ran] at done
  exact done

theorem pure {a : γ} (holds : post a s) : Yields (pure a) s post := fun fit => ⟨fit, holds⟩

theorem bind {x : Check δ} {f : δ → Check γ} {M : δ → CheckState → Prop} (first : Yields x s M)
    (rest : ∀ a t, M a t → Yields (f a) t post) : Yields (x >>= f) s post := by
  intro fit
  have done := first fit
  change match EStateM.bind x f s with
    | .ok a t => Fit t ∧ post a t
    | .error _ t => t.issues ≠ []
  unfold EStateM.bind
  cases ran : x s with
  | ok a t =>
    rw [ran] at done
    exact rest a t done.2 done.1
  | error c t =>
    rw [ran] at done
    exact done

/-- A part that always comes to its end. -/
theorem step {x : Check δ} {f : δ → Check γ} {a : δ} (ran : x s = .ok a t) (fits : Fit s → Fit t)
    (rest : Yields (f a) t post) : Yields (x >>= f) s post :=
  bind (M := fun b u => b = a ∧ u = t) (fun fit => by rw [ran]; exact ⟨fits fit, rfl, rfl⟩)
    fun _ _ ⟨isA, isT⟩ => isA ▸ isT ▸ rest

theorem environment {f : Environment → Check γ} (rest : Yields (f s.context.environment) s post) :
    Yields (environment >>= f) s post := .step rfl id rest

theorem ite {c : Prop} [Decidable c] {x y : Check γ} (yes : c → Yields x s post) (no : ¬ c → Yields y s post) :
    Yields (if c then x else y) s post := by
  split
  case isTrue h => exact yes h
  case isFalse h => exact no h

theorem report {f : Unit → Check γ} (rest : ∀ t, Reported s t → Yields (f ()) t post) :
    Yields (report line fault >>= f) s post :=
  .step rfl (fun _ clean => absurd clean (Reported.found ⟨⟨fault, line⟩, rfl⟩)) (rest _ ⟨⟨fault, line⟩, rfl⟩)

/-- A check stops for a reason that only an issue can give. -/
theorem throw {c : Crash} (found : s.issues ≠ []) : Yields (throw c) s post := fun _ => found

theorem required {mode : Option Mode} {f : Mode → Check γ} (present : s.issues = [] → ∃ m, mode = some m)
    (rest : ∀ m, mode = some m → Yields (f m) s post) : Yields (required mode >>= f) s post := by
  cases mode with
  | some m => exact .step rfl id (rest m rfl)
  | none =>
    refine bind (M := fun _ _ => False) (throw fun clean => ?_) fun _ _ impossible => impossible.elim
    obtain ⟨_, impossible⟩ := present clean
    cases impossible

/-- A check may rely on what it starts with. -/
theorem fit {x : Check γ} (yields : Fit s → Yields x s post) : Yields x s post := fun fit => yields fit fit

theorem imp {x : Check γ} {post' : γ → CheckState → Prop} (yields : Yields x s post)
    (weaken : ∀ a t, post a t → post' a t) : Yields x s post' := by
  intro fit
  have done := yields fit
  cases ran : x s with
  | ok a t =>
    rw [ran] at done
    exact ⟨done.1, weaken a t done.2⟩
  | error c t =>
    rw [ran] at done
    exact done

end Yields

/-- What a check of a construct itself, once its parts have been checked, tells about its result and the visible
symbols. -/
def Tells (x : Check γ) (s : CheckState) (shape : γ → Prop) (sound : γ → List Symbol → Prop) : Prop :=
  Yields x s fun a t => shape a ∧ Passed s t [] true (sound a)

namespace Tells

variable {R : γ → Prop} {S : γ → List Symbol → Prop}

theorem known {a : γ} (shaped : R a) (holds : s.context.environment.Good → S a s.context.environment.visible) :
    Tells (pure a) s R S := fun fit => ⟨fit, shaped, .silent fit holds⟩

theorem pure {a : γ} (shaped : R a) (holds : ∀ symbols, (∀ x ∈ symbols, x.Good) → S a symbols) :
    Tells (pure a) s R S := known shaped fun good => holds _ good.symbols

theorem reports {S : Unit → List Symbol → Prop} :
    Tells (report line fault) s (fun _ => True) S := by
  intro fit
  have reported : Reported s { s with issues := s.issues ++ [⟨fault, line⟩], own := s.own ++ [⟨fault, line⟩] } := ⟨_, rfl⟩
  refine ⟨fun clean => absurd clean reported.found, trivial, ?_⟩
  exact (Passed.silent (P := fun _ => True) fit fun _ => trivial).reported reported

theorem ite {c : Prop} [Decidable c] {x y : Check γ} (yes : c → Tells x s R S) (no : ¬ c → Tells y s R S) :
    Tells (if c then x else y) s R S := Yields.ite yes no

theorem bind {x : Check δ} {f : δ → Check γ} {A : δ → Prop} {B : δ → List Symbol → Prop} (first : Tells x s A B)
    (rest : ∀ a t, A a → Passed s t [] true (B a) → Yields (f a) t post) : Yields (x >>= f) s post :=
  Yields.bind first fun a t done => rest a t done.1 done.2

/-- The rest of a check may rely on what its first part has told, and on the state before being silent. -/
theorem afterClean {x : Check δ} {f : δ → Check γ} {A : δ → Prop} {B : δ → List Symbol → Prop} (first : Tells x s A B)
    (rest : ∀ a t, A a → (t.issues = [] → s.issues = []) → Tells (f a) t R fun b symbols => B a symbols → S b symbols) :
    Tells (x >>= f) s R S := by
  refine first.bind fun a t shaped passed =>
    (rest a t shaped fun clean => (passed.adds.clean clean).1).imp fun b u done => ⟨done.1, ?_⟩
  exact (passed.followed done.2).imp fun _ _ both => both.2 both.1

theorem after {x : Check δ} {f : δ → Check γ} {A : δ → Prop} {B : δ → List Symbol → Prop} (first : Tells x s A B)
    (rest : ∀ a t, A a → Tells (f a) t R fun b symbols => B a symbols → S b symbols) : Tells (x >>= f) s R S :=
  first.afterClean fun a t shaped _ => rest a t shaped

/-- After a report there is nothing to establish. -/
theorem report {a : γ} (shaped : R a) :
    Tells (do Check.report line fault; return a) s R S :=
  (reports (S := fun _ _ => False)).after fun _ _ _ => .pure shaped fun _ _ impossible => impossible.elim

theorem environment {f : Environment → Check γ} (rest : Tells (f s.context.environment) s R S) :
    Tells (environment >>= f) s R S := Yields.environment rest

/-- Types that agree are equal, or one of them is unknown. -/
theorem agrees_of_known {want got : ValueType} (agree : want.agrees got = true) (known : want.isKnown = true)
    (known' : got.isKnown = true) : got = want := by
  rw [ValueType.agrees, known, known'] at agree
  exact (beq_iff_eq.mp (by simpa using agree)).symm

theorem expect (line : Nat) (want got : ValueType) :
    Tells (expect line want got) s (fun _ => True) fun b _ =>
      b = true ∧ (want.isKnown = true → got.isKnown = true → got = want) :=
  .ite (fun agree => .pure trivial fun _ _ => ⟨rfl, agrees_of_known agree⟩) fun _ => .report trivial

theorem sameSize (line : Nat) (want got : Option Mode) :
    Tells (sameSize line want got) s (fun _ => True) fun _ _ =>
      ∀ m m', want = some m → got = some m' → m.size = m'.size := by
  unfold Check.sameSize
  split
  case h_1 =>
    refine .ite (fun _ => .reports) fun same => .pure trivial fun _ _ => ?_
    simpa using same
  case h_2 missing => exact .pure trivial fun _ _ m m' wanted found => (missing m m' wanted found).elim

end Tells

/-! ## Judging -/

/-- A kind of construct whose first node carries its note, and of which nothing else depends on the verdict. -/
structure Rooted {τ : Type → Type} {σ : Type} [Noted τ] (nodes : τ Note → List (Node Note)) (origin : τ Note → τ Origin)
    (sound : τ Note → σ) : Prop where
  root : ∀ x, ∃ n, nodes x = n :: (nodes x).tail ∧ n.subtree = nodes x ∧ n.note = Noted.note x
  tail : ∀ note x, (nodes (Noted.setNote note x)).tail = (nodes x).tail
  note : ∀ note x, Noted.note (Noted.setNote note (x : τ Note)) = note
  kept : ∀ verdict e x, let x' := Noted.update (fun n => { n with verdict }) x
    origin x' = origin x ∧ sound x' = sound x ∧ RootResolves e (nodes x') = RootResolves e (nodes x)

/-- A construct with the verdict on it. -/
def withVerdict {τ : Type → Type} [Noted τ] (valid : Bool) (own : List Issue) (x : τ Note) : τ Note :=
  Noted.update (fun n => { n with verdict := some ⟨valid && own.isEmpty, own⟩ }) x

section

variable {τ : Type → Type} {σ : Type} [Noted τ] {nodes : τ Note → List (Node Note)} {origin : τ Note → τ Origin}
  {sound : τ Note → σ} (rooted : Rooted nodes origin sound)

include rooted

/-- The verdict on a construct whose parts are settled settles it. -/
theorem Rooted.settled (own : List Issue) {x : τ Note} (parts : Settled (nodes x).tail v) :
    (Noted.note (withVerdict v own x)).isValid = (v && own.isEmpty) ∧
      Settled (nodes (withVerdict v own x)) (v && own.isEmpty) := by
  rw [withVerdict, Noted.update]
  generalize same : { Noted.note x with verdict := some ⟨v && own.isEmpty, own⟩ } = note
  obtain ⟨n, shape, below, noted⟩ := rooted.root (Noted.setNote note x)
  rw [rooted.tail] at shape
  rw [rooted.note] at noted ⊢
  have verdict : ∀ v', n.note.verdict = some v' ↔ v' = ⟨v && own.isEmpty, own⟩ := by
    intro v'
    rw [noted, ← same]
    exact ⟨fun h => (Option.some.inj h).symm, fun h => congrArg some h.symm⟩
  have silent : (v && own.isEmpty) = true ↔ Silent (nodes (Noted.setNote note x)) := by
    rw [shape, Silent, List.forall_mem_cons, Bool.and_eq_true, parts.2, List.isEmpty_iff, and_comm]
    refine and_congr ⟨fun none v' judged => ?_, fun none => none _ ((verdict _).mpr rfl)⟩ Iff.rfl
    rw [(verdict v').mp judged]
    exact none
  refine ⟨by rw [← same]; rfl, ?_, silent⟩
  rw [shape]
  refine List.forall_mem_cons.mpr ⟨fun v' judged => ?_, parts.1⟩
  rw [below, (verdict v').mp judged]
  exact silent

theorem Rooted.resolved {own : List Issue} {x : τ Note} {e : Environment} (root : RootResolves e (nodes x))
    (parts : ∀ n ∈ (nodes x).tail, n.Resolves e) : ∀ n ∈ nodes (withVerdict v own x), n.Resolves e := by
  have first := (rooted.kept (some ⟨v && own.isEmpty, own⟩) e x).2.2 ▸ root
  change RootResolves e (nodes (withVerdict v own x)) at first
  have rest : (nodes (withVerdict v own x)).tail = (nodes x).tail := rooted.tail _ _
  obtain ⟨n, shape, _⟩ := rooted.root (withVerdict v own x)
  rw [shape] at first ⊢
  exact List.forall_mem_cons.mpr ⟨first, rest ▸ parts⟩

end

/-- A judgement leaves the issues of the construct around it as they were. -/
theorem judge_own [Noted τ] {visit : Check (Bool × τ Note)} {x : τ Note}
    (ran : judge visit s = .ok x t) : t.own = s.own := by
  obtain ⟨_, _, got, ran⟩ := bind_eq_ok.mp ran
  cases got
  obtain ⟨_, _, cleared, ran⟩ := bind_eq_ok.mp ran
  obtain ⟨_, _, _, ran⟩ := bind_eq_ok.mp ran
  obtain ⟨_, _, restored, ran⟩ := bind_eq_ok.mp ran
  cases restored
  obtain ⟨_, rfl⟩ := pure_eq_ok.mp ran
  rfl

/-- A construct is judged once its parts have been checked. -/
theorem Yields.judge [Noted τ] {visit : Check (Bool × τ Note)} {post : τ Note → CheckState → Prop}
    (visits : Yields visit { s with own := [] } fun r t => post (withVerdict r.1 t.own r.2) { t with own := s.own }) :
    Yields (judge visit) s post := by
  refine .step rfl id (.step rfl (fun fit clean => ⟨(fit clean).scopes, (fit clean).function⟩) ?_)
  refine visits.bind fun r t done => .step rfl id (.step rfl (fun fit clean => ?_) (.pure done))
  exact ⟨(fit clean).scopes, (fit clean).function⟩

/-- Judging a construct whose check leaves the scopes alone. -/
theorem Rooted.judged [Noted τ] {nodes : τ Note → List (Node Note)} {origin : τ Note → τ Origin}
    {sound : τ Note → List Symbol → Prop} (rooted : Rooted nodes origin sound) {tree : τ Origin}
    {visit : Check (Bool × τ Note)}
    (visits : Yields visit { s with own := [] } fun r t => origin r.2 = tree ∧
      RootResolves s.context.environment (nodes r.2) ∧ Passed { s with own := [] } t (nodes r.2).tail r.1 (sound r.2)) :
    Yields (judge visit) s fun x t => origin x = tree ∧ Passed s t (nodes x) (Noted.note x).isValid (sound x) := by
  refine .judge (visits.imp fun r t done => ?_)
  obtain ⟨shape, root, passed⟩ := done
  obtain ⟨isValid, settled⟩ := rooted.settled t.own passed.settled
  obtain ⟨origins, sounds, _⟩ := rooted.kept (some ⟨r.1 && t.own.isEmpty, t.own⟩) s.context.environment r.2
  refine ⟨origins.trans shape, ?_⟩
  rw [isValid]
  exact ⟨passed.fit.of_context rfl id, passed.context, settled, rooted.resolved root passed.resolved,
    passed.adds.judged rfl, fun clean => by rw [withVerdict, sounds]; exact passed.sound clean⟩

end Check

end LyaLang
