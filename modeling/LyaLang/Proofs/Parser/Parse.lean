import LyaLang.Proofs.Parser.Productions

/-! # Parsing a whole text

A parser that starts at the first token ends, whatever the text is: the descent is never deeper, and never takes more
steps, than the tokens that are left allow, so more fuel changes nothing. Its tree weighs at most twice the length of
the text, alike texts have trees that say the same, and the names of the tree of a text without errors are the names
among its tokens.
-/

namespace LyaLang

open Ast

variable {source : Bytes}

namespace ParserState

/-- The first state of a text has all its names and no more tokens than there are bytes. -/
theorem ofSource_start (source : Bytes) : (ofSource source).Terminated ∧ (ofSource source).steps = 0 ∧
    (ofSource source).left ≤ source.length ∧ (ofSource source).left < (tokens source).length ∧
    (ofSource source).names = (tokens source).flatMap Token.spelled := by
  obtain ⟨front, last, same, isLast, others, short⟩ := tokens_end source
  have ends : Terminated { current := default, peek := default, rest := tokens source, errors := [] } := by
    refine ⟨last, ?_, isLast⟩
    rw [same, ← List.cons_append, List.getLast?_concat]
  obtain ⟨ends, _, steps, _, _, _, behind⟩ := ends.advance
  obtain ⟨ends', _, steps', _, fewer, names, _⟩ := ends.advance
  rw [behind (by simp [same])] at fewer names
  have whole : untilEnd (tokens source) = front := by
    rw [untilEnd, same, List.takeWhile_append_of_pos fun t member => bne_iff_ne.mpr (others t member)]
    simp [isLast]
  have faults := untilEnd_faults (tokens source)
  rw [whole] at faults
  refine ⟨ends', steps'.trans steps, fewer.trans (faults.1.trans short), ?_, ?_⟩
  · rw [same, List.length_append]
    exact Nat.lt_succ_of_le (fewer.trans faults.1)
  · have none : last.spelled = [] := if_neg (isLast ▸ ne_of_beq_false rfl)
    exact names.trans (faults.2.trans (by simp [same, none]))

end ParserState

namespace Parser

variable {α γ : Type} {s : ParserState}

/-! ## Termination -/

/-- From `s` a production enters at most `n` productions, and more fuel changes nothing. It fails only with a new
error. -/
structure Bounded (p : Nat → Parser α) (s : ParserState) (n : Nat) : Prop where
  same : ∀ fuel ≥ n, p fuel s = p n s
  ends : (p n s).2.Terminated
  steps : (p n s).2.steps ≤ s.steps + n
  fails : (p n s).1 = none → s.errors.length < (p n s).2.errors.length

theorem Bounded.of_runs {p : Nat → Parser α} {view : α → γ} {parts : α → List (Node Span)} {extra : α → Nat} {low : Int}
    {rank : Nat} (ends : s.Terminated)
    (runs : ∀ fuel, Runs (s.potential + rank) s.potential low fuel s s p view parts extra) :
    Bounded p s (24 * s.left + rank) := by
  have run (fuel : Nat) (enough : 24 * s.left + rank ≤ fuel) :=
    runs fuel ends (.refl s) le_rfl (by omega) (by unfold ParserState.potential; omega)
  obtain ⟨_, out⟩ := run _ le_rfl
  refine ⟨fun fuel enough => ?_, out.ends, ?_, out.fails⟩
  · induction fuel, enough using Nat.le_induction with
    | base => rfl
    | succ fuel enough ih => exact (run fuel enough).1.trans ih
  · have below := out.below
    unfold ParserState.potential at below
    omega

/-- A pass of the loop over statements returns, or the loop goes on with fewer tokens. -/
def Iterates (fuel : Nat) (closing : List TokenKind) (s : ParserState) : Prop :=
  (∃ s', statements (fuel + 1) closing s = (some [], s') ∧ (closing.contains s'.current.kind ∨ s'.current.kind = .endOfInput)) ∨
    ∃ stmts s', s'.left < s.left ∧ s'.Terminated ∧
      statements (fuel + 1) closing s = ((stmts ++ ·) <$> statements fuel closing) s'

theorem statements_iterates {fuel : Nat} (closing : List TokenKind) (ends : s.Terminated) (enough : 24 * s.left + 14 ≤ fuel) :
    Iterates fuel closing s := by
  have loop (p : Parser (List (Stmt Span))) : (fun stmts => [] ++ stmts) <$> p = p := id_map p
  have run := congrFun (statements_succ fuel closing) s
  change _ = (ite _ _ _ : Parser _) s.step at run
  unfold Iterates
  rw [run]
  split
  · exact .inl ⟨s.step, rfl, .inl ‹_›⟩
  split
  · exact .inl ⟨_, rfl, .inr (beq_iff_eq.mp ‹_›)⟩
  rename_i more
  have more : s.step.current.kind ≠ .endOfInput := fun ended => more (beq_iff_eq.mpr ended)
  have same : s.step.left = s.left := rfl
  have ends : s.step.Terminated := ends
  split
  · refine .inr ⟨[], s.step.advance, (ParserState.left_advance ends more).1, ends.advance.1, ?_⟩
    rw [loop]
    rfl
  have first : Runs (s.step.potential + 12) s.step.potential (s.step.potential - 2) fuel s.step s.step statement sayStmt Stmt.nodes
    fun _ => 0 := statement_runs fuel le_rfl
  obtain ⟨_, out⟩ := first ends (.refl _) le_rfl (by omega) (by unfold ParserState.potential; omega)
  cases result : statement fuel s.step with
  | mk stmt? s' =>
    rw [result] at out
    have onward := out.onward.steps
    cases stmt? with
    | some stmt =>
      obtain ⟨lower, -⟩ := out.gives stmt rfl
      refine .inr ⟨[stmt], s', ?_, out.ends, ?_⟩
      · dsimp only at lower onward
        unfold ParserState.potential at lower
        omega
      · simp only [Bind.bind, recovered_of_some result]
        rfl
    | none =>
      obtain ⟨s'', _, skips, -, ends', -, onward', lower⟩ := Spec.skipStatement (s'.rest.length + 3) s'.left_lt out.ends out.alike
      refine .inr ⟨[], s'', ?_, ends', ?_⟩
      · rcases lower with ⟨ended, _⟩ | lower
        · have := ParserState.left_advance ends more
          rw [ParserState.left_eq_zero ended]
          omega
        · have below := out.below
          have steps' := onward'.steps
          dsimp only at below onward
          unfold ParserState.potential at below lower
          omega
      · rw [loop]
        simp only [Bind.bind, recovered_of_none result (out.fails rfl) skips]

/-- The loop over statements never fails, and stops at a closing token or at the end of input. -/
theorem statements_stops {fuel : Nat} {closing : List TokenKind} (ends : s.Terminated) (enough : 24 * s.left + 15 ≤ fuel) :
    ∃ stmts s', statements fuel closing s = (some stmts, s') ∧
      (closing.contains s'.current.kind ∨ s'.current.kind = .endOfInput) := by
  induction fuel generalizing s with
  | zero => omega
  | succ fuel ih =>
    obtain ⟨s', returns, stops⟩ | ⟨front, s₁, fewer, ends₁, goesOn⟩ := statements_iterates closing ends (Nat.le_of_succ_le_succ enough)
    · exact ⟨[], s', returns, stops⟩
    · obtain ⟨stmts, s', run, stops⟩ := ih ends₁ (by omega)
      refine ⟨front ++ stmts, s', goesOn.trans ?_, stops⟩
      simp only [Functor.map, run]
      rfl

/-- The fuel of a text is enough for it: the run ends with a tree at the end of input. -/
theorem program_run (source : Bytes) : ∃ (tree : Program Span) (s' : ParserState),
    program (fuel (.ofSource source)) (.ofSource source) = (some tree, s') ∧ parse source = (tree, s'.errors) ∧
      s'.current.kind = .endOfInput := by
  obtain ⟨ends, -⟩ := ParserState.ofSource_start source
  have few := (ParserState.ofSource source).left_lt
  obtain ⟨stmts, s', run, stops⟩ : ∃ stmts s', statements (fuel (.ofSource source)) [.endOfInput] (.ofSource source) =
    (some stmts, s') ∧ _ := statements_stops ends (by unfold fuel; omega)
  have whole : program (fuel (.ofSource source)) (.ofSource source) =
      (some ⟨⟨(ParserState.ofSource source).current.position, s'.current.position⟩, stmts⟩, s') := by
    simp only [program, Bind.bind, position, spanFrom, run]
    rfl
  refine ⟨_, s', whole, ?_, ?_⟩
  · rw [parse_eq, whole]
    rfl
  · simpa using stops

/-- Parsing ends on every text. There is a tree, more fuel would give the same, and the productions entered are at most
24 for each token. At every state they are bounded by the tokens left and the level of precedence, a failure leaves a new
error, and every pass of the loop over statements returns or passes a token. -/
theorem parsing_terminates (source : Bytes) :
    (∃ tree s', (∀ fuel ≥ Parser.fuel (.ofSource source), program fuel (.ofSource source) = (some tree, s')) ∧
      parse source = (tree, s'.errors) ∧ s'.steps ≤ 24 * (tokens source).length) ∧
    (ParserState.ofSource source).Terminated ∧
    ∀ s : ParserState, s.Terminated → Bounded program s (24 * s.left + 15) ∧ Bounded statement s (24 * s.left + 12) ∧
      Bounded mode s (24 * s.left + 1) ∧
      (∀ levels, levels <:+ binaryLevels → Bounded (binary · levels) s (24 * s.left + (levels.length + 4))) ∧
      ∀ closing, Bounded (statements · closing) s (24 * s.left + 15) ∧
        ∀ fuel, 24 * s.left + 14 ≤ fuel → Iterates fuel closing s := by
  obtain ⟨ends, none, -, fewer, -⟩ := ParserState.ofSource_start source
  obtain ⟨tree, s', run, parsed, -⟩ := program_run source
  have bounded (s : ParserState) (ends : s.Terminated) : Bounded program s (24 * s.left + 15) :=
    .of_runs ends fun fuel => program_runs fuel le_rfl
  have few := (ParserState.ofSource source).left_lt
  have enough : 24 * (ParserState.ofSource source).left + 15 ≤ fuel (.ofSource source) := by
    unfold fuel
    omega
  refine ⟨⟨tree, s', fun more least => ?_, parsed, ?_⟩, ends, fun s ends => ⟨bounded s ends, ?_, ?_, ?_, ?_⟩⟩
  · rw [(bounded _ ends).same more (enough.trans least), ← (bounded _ ends).same _ enough, run]
  · have steps := (bounded _ ends).steps
    rw [← (bounded _ ends).same _ enough, run] at steps
    dsimp only at steps
    omega
  · exact .of_runs ends fun fuel => statement_runs fuel le_rfl
  · exact .of_runs ends fun fuel => mode_runs fuel le_rfl
  · exact fun levels inside => .of_runs ends fun fuel => binary_runs fuel ⟨rfl, inside⟩ (by simp)
  · exact fun closing => ⟨.of_runs ends fun fuel => statements_runs fuel le_rfl, fun fuel => statements_iterates closing ends⟩

/-! ## Trees -/

theorem program_outcome {source' : Bytes} (alike : (ParserState.ofSource source).Alike (.ofSource source')) :
    ∃ low, Outcome low low (.ofSource source) [] 0 (program (fuel (.ofSource source)) (.ofSource source))
      (program (fuel (.ofSource source)) (.ofSource source')) Program.plain Program.nodes fun _ => 0 := by
  have few := (ParserState.ofSource source).left_lt
  refine ⟨_, (program_runs _ le_rfl (ParserState.ofSource_start source).1 alike le_rfl (by omega) ?_).2⟩
  unfold ParserState.potential fuel
  omega

end Parser

/-- The weight of the tree of a text is at most twice the length of the text. -/
theorem weigh_parse (source : Bytes) : weigh (parse source).1.nodes ≤ 2 * source.length := by
  obtain ⟨tree, s', run, parsed, -⟩ := Parser.program_run source
  obtain ⟨_, out⟩ := Parser.program_outcome (.refl (.ofSource source))
  obtain ⟨-, -, short, -⟩ := ParserState.ofSource_start source
  rw [run] at out
  have paid := (out.gives tree rfl).2.1
  rw [weigh_nil] at paid
  rw [parsed]
  dsimp only
  omega

/-- Alike token lists are read alike: with equally many errors, to trees that say the same. -/
theorem parse_alike {source' : Bytes} (same : List.Forall₂ Token.Alike (tokens source) (tokens source')) :
    (parse source).2.length = (parse source').2.length ∧ (parse source).1.plain = (parse source').1.plain := by
  have start : (ParserState.ofSource source).Alike (.ofSource source') :=
    ParserState.Alike.advance (ParserState.Alike.advance ⟨.refl _, .refl _, same, rfl⟩)
  have bound : Parser.fuel (.ofSource source) = Parser.fuel (.ofSource source') :=
    congrArg (fun n => 24 * (n + 4)) start.rest.length_eq
  obtain ⟨_, out⟩ := Parser.program_outcome start
  rw [parse_eq, parse_eq, ← bound]
  refine ⟨out.alike.errors, ?_⟩
  rw [← Option.getD_map Program.plain, ← Option.getD_map Program.plain, out.views]

/-- The names of the tree of a text without errors are the names among its tokens. -/
theorem parse_names (clean : (parse source).2 = []) :
    namesOf (parse source).1.nodes = (tokens source).flatMap Token.spelled := by
  obtain ⟨tree, s', run, parsed, ended⟩ := Parser.program_run source
  obtain ⟨_, out⟩ := Parser.program_outcome (.refl (.ofSource source))
  obtain ⟨-, -, -, -, names⟩ := ParserState.ofSource_start source
  rw [run] at out
  rw [parsed] at clean ⊢
  have errors := out.onward.errors
  dsimp only at clean errors
  rw [clean] at errors
  have same := (out.gives tree rfl).2.2 (by rw [clean, Nat.le_zero.mp errors]; rfl)
  have none : s'.names = [] := by simp [ParserState.names, ParserState.untilEnd, ended]
  rw [namesOf_nil, List.nil_append, none, List.append_nil, names] at same
  exact same.symm

end LyaLang
