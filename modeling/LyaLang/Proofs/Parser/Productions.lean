import LyaLang.Proofs.Parser.Logic

/-! # Every production

One specification for each production, from the tokens up.
-/

namespace LyaLang.Parser

open Ast

variable {α γ : Type} {s t : ParserState} {top φ low : Int}

variable {n : Nat} {level : List (TokenKind × BinaryOp)} {tighter : List (List (TokenKind × BinaryOp))}
  {k : TokenKind}

/-- A production on its own: with fuel, with one more, and over alike tokens. -/
abbrev Runs (top φ low : Int) (fuel : Nat) (s t : ParserState) (p : Nat → Parser α) (view : α → γ)
    (parts : α → List (Node Span)) (extra : α → Nat) : Prop :=
  Spec top fuel φ low s t [] 0 (p fuel) (p (fuel + 1)) (p fuel) view parts extra

attribute [local simp] Settles Node.weight Node.labelBudget Node.spelled Expr.nodes Expr.listNodes Expr.armNodes
  identNodes optionalNodes ModeName.nodes ModeExpr.nodes ModeExpr.listNodes Declaration.nodes SynonymDef.nodes ModeDef.nodes
  FormalParam.nodes ResultSpec.nodes ForControl.nodes ForControl.wordCount Stmt.nodes Stmt.listNodes Stmt.armNodes

/-! ## Expressions -/

/-- What an expression says. -/
abbrev sayExpr : Expr Span → Expr Unit := Expr.blur fun _ => ()

/-- The `n` tightest levels of operators. -/
def Tier (n : Nat) (levels : List (List (TokenKind × BinaryOp))) : Prop := levels.length = n ∧ levels <:+ binaryLevels

theorem tier_all : Tier 6 binaryLevels := ⟨rfl, List.suffix_refl _⟩

theorem Tier.tail (tier : Tier n (level :: tighter)) : ∃ m, n = m + 1 ∧ m ≤ 5 ∧ Tier m tighter := by
  obtain ⟨rfl, inside⟩ := tier
  exact ⟨tighter.length, rfl, Nat.le_of_succ_le_succ inside.length_le, rfl, (List.suffix_cons _ _).trans inside⟩

theorem Tier.isMark (tier : Tier n (level :: tighter)) {op : BinaryOp} (found : operatorAt? level k = some op) :
    k.isMark = true := by
  have marks : ∀ level ∈ binaryLevels, ∀ entry ∈ level, entry.1.isMark = true := by decide
  obtain ⟨entry, isEntry, _⟩ := Option.map_eq_some_iff.mp found
  have same : entry.1 = k := by simpa using List.find?_some isEntry
  exact same ▸ marks level (tier.2.mem List.mem_cons_self) entry (List.mem_of_find?_eq_some isEntry)

/-- The words that introduce an arm. -/
theorem isMark_of_arm (word : (k == .ifWord || k == .elsifWord) = true) : k.isMark = true := by
  rcases Bool.or_eq_true_iff.mp word with isWord | isWord <;> rw [beq_iff_eq.mp isWord] <;> rfl

mutual

theorem binary_runs : ∀ (fuel : Nat) {n : Nat} {levels : List (List (TokenKind × BinaryOp))} {s t : ParserState} {φ : Int},
    Tier n levels → φ + (n + 4) ≤ top →
      Runs top φ (φ - (20 - 2 * n)) fuel s t (binary · levels) sayExpr Expr.nodes fun _ => 0
  | 0, _, _, _, _, _, _, _ => .exhausted (by omega)
  | fuel + 1, _, [], _, _, _, ⟨rfl, _⟩, _ => .enter (by omega) (.more (unary_runs fuel (by omega)) (by omega) (by simp))
  | fuel + 1, _, level :: tighter, _, _, _, tier, enough => by
    obtain ⟨n, rfl, few, tier'⟩ := tier.tail
    refine .enter (by omega) (.position fun _ _ => .bind (binary_runs fuel tier' ?_) fun lefts =>
      .more (binaryRest_runs fuel tier lefts ?_) ?_ (by simp))
    all_goals omega

theorem binaryRest_runs : ∀ (fuel : Nat) {n : Nat} {level : List (TokenKind × BinaryOp)}
    {tighter : List (List (TokenKind × BinaryOp))} {start start' : Position} {x x' : Expr Span} {s t : ParserState} {φ : Int},
    Tier n (level :: tighter) → sayExpr x = sayExpr x' → φ + 1 ≤ top →
      Spec top fuel φ (φ + 1) s t x.nodes 0 (binaryRest fuel level tighter start x)
        (binaryRest (fuel + 1) level tighter start x) (binaryRest fuel level tighter start' x') sayExpr Expr.nodes fun _ => 0
  | 0, _, _, _, _, _, _, _, _, _, _, _, _, enough => .exhausted enough
  | fuel + 1, _, level, tighter, start, start', x, x', s, t, φ, tier, lefts, enough => by
    obtain ⟨n, rfl, few, tier'⟩ := tier.tail
    rw [binaryRest]
    refine .enter enough (.kind fun k isKind => ?_)
    split
    · exact .pure lefts le_rfl (by simp)
    · rename_i found
      refine .bind (.advance (isKind ▸ tier.isMark found)) fun _ => .bind (binary_runs fuel tier' ?_) fun rights =>
        .spanFrom fun _ _ => .more (binaryRest_runs fuel tier (congrArg₂ (Expr.binary () _) lefts rights) ?_) ?_ ?_
      all_goals first | omega | (simp; omega)

theorem unary_runs : ∀ (fuel : Nat) {s t : ParserState} {φ : Int}, φ + 3 ≤ top →
    Runs top φ (φ - 21) fuel s t unary sayExpr Expr.nodes fun _ => 0
  | 0, _, _, _, _ => .exhausted (by omega)
  | fuel + 1, s, t, φ, enough => by
    rw [Runs, unary]
    refine .enter (by omega) (.position fun _ _ => .kind fun k isKind => ?_)
    split
    · refine .bind (.advance (isKind ▸ rfl)) fun _ => .bind (unary_runs fuel ?_) fun same => .spanFrom fun _ _ =>
        .pure (congrArg (Expr.unary () .negate) same) ?_ (by simp)
      all_goals omega
    · refine .bind (.advance (isKind ▸ rfl)) fun _ => .bind (unary_runs fuel ?_) fun same => .spanFrom fun _ _ =>
        .pure (congrArg (Expr.unary () .complement) same) ?_ (by simp)
      all_goals omega
    · refine .bind (.advance (isKind ▸ rfl)) fun _ => .bind (unary_runs fuel ?_) fun same => .spanFrom fun _ _ =>
        .pure (congrArg (Expr.ref ()) same) ?_ (by simp)
      all_goals omega
    · refine .bind (primary_runs fuel ?_) fun same => .more (postfixes_runs fuel same ?_) ?_ (by simp)
      all_goals omega

theorem postfixes_runs : ∀ (fuel : Nat) {start start' : Position} {x x' : Expr Span} {s t : ParserState} {φ : Int},
    sayExpr x = sayExpr x' → φ + 1 ≤ top → Spec top fuel φ (φ + 1) s t x.nodes 0 (postfixes fuel start x)
      (postfixes (fuel + 1) start x) (postfixes fuel start' x') sayExpr Expr.nodes fun _ => 0
  | 0, _, _, _, _, _, _, _, _, enough => .exhausted enough
  | fuel + 1, start, start', x, x', s, t, φ, bases, enough => by
    rw [postfixes]
    refine .enter enough (.kind fun k isKind => ?_)
    split
    · refine .bind (.advance (isKind ▸ rfl)) fun _ => .bind (indexList_runs fuel ?_) fun indexes => .bind (.expect rfl) fun _ =>
        .spanFrom fun _ _ => .more (postfixes_runs fuel (congrArg₂ (Expr.index ()) bases indexes) ?_) ?_ (by simp)
      all_goals omega
    · refine .bind (.advance (isKind ▸ rfl)) fun _ => .spanFrom fun _ _ =>
        .more (postfixes_runs fuel (congrArg (Expr.deref ()) bases) ?_) ?_ (by simp)
      all_goals omega
    · exact .pure bases le_rfl (by simp)

theorem indexList_runs : ∀ (fuel : Nat) {s t : ParserState} {φ : Int}, φ + 11 ≤ top →
    Runs top φ (φ - 7) fuel s t indexList (Expr.blurList fun _ => ()) Expr.listNodes fun _ => 0
  | 0, _, _, _, _ => .exhausted (by omega)
  | fuel + 1, s, t, φ, enough => by
    rw [Runs, indexList]
    refine .enter (by omega) (.bind (binary_runs fuel tier_all ?_) fun firsts => .accept rfl
      (.bind (indexList_runs fuel ?_) fun rests => .pure (congrArg₂ List.cons firsts rests) ?_ (by simp))
      (.pure (congrArg (· :: []) firsts) ?_ (by simp)))
    all_goals omega

theorem arguments_runs : ∀ (fuel : Nat) {s t : ParserState} {φ : Int}, φ + 11 ≤ top →
    Runs top φ (φ + 1) fuel s t arguments (Expr.blurList fun _ => ()) Expr.listNodes fun _ => 0
  | 0, _, _, _, _ => .exhausted (by omega)
  | fuel + 1, s, t, φ, enough => by
    rw [Runs, arguments]
    refine .enter (by omega) (.kind fun k _ => .ite (fun _ => .pure rfl le_rfl (by simp)) fun _ =>
      .bind (binary_runs fuel tier_all ?_) fun firsts => .accept rfl
      (.bind (arguments_runs fuel ?_) fun rests => .pure (congrArg₂ List.cons firsts rests) ?_ (by simp))
      (.pure (congrArg (· :: []) firsts) ?_ (by simp)))
    all_goals omega

/-- An arm is introduced by a word that pays for its label. -/
theorem valueArms_runs : ∀ (fuel : Nat) {s t : ParserState} {φ : Int}, φ + 1 ≤ top →
    Runs top φ (φ + 1) fuel s t valueArms (Expr.blurArms fun _ => ()) Expr.armNodes List.length
  | 0, _, _, _, enough => .exhausted enough
  | fuel + 1, s, t, φ, enough => by
    rw [Runs, valueArms]
    refine .enter enough (.kind fun k isKind => .ite (fun word => .position fun _ _ => ?_) fun _ => .pure rfl le_rfl (by simp))
    refine .bind (.advance (isKind ▸ isMark_of_arm word)) fun _ => .bind (binary_runs fuel tier_all ?_) fun tests =>
      .bind (.expect rfl) fun _ => .bind (binary_runs fuel tier_all ?_) fun values => .spanFrom fun _ _ =>
      .bind (valueArms_runs fuel ?_) fun rests =>
      .pure (congrArg₂ List.cons (congrArg₂ (CondValue.mk ()) tests values) rests) ?_ ?_
    all_goals first | omega | simp

theorem primary_runs : ∀ (fuel : Nat) {s t : ParserState} {φ : Int}, φ + 2 ≤ top →
    Runs top φ (φ - 23) fuel s t primary sayExpr Expr.nodes fun _ => 0
  | 0, _, _, _, _ => .exhausted (by omega)
  | fuel + 1, s, t, φ, enough => by
    have literal {a b : Span → Expr Span} {s t : ParserState} {start start' : Position} (mark : s.current.kind.isMark = true)
        (same : ∀ span span', sayExpr (a span) = sayExpr (b span')) (worth : ∀ span, Settles [] 2 (a span).nodes 0) :
        Spec top fuel (φ + 1) (φ - 23) s t [] 0 (advance >>= fun _ => spanFrom start >>= fun span => pure (a span))
          (advance >>= fun _ => spanFrom start >>= fun span => pure (a span))
          (advance >>= fun _ => spanFrom start' >>= fun span => pure (b span)) sayExpr Expr.nodes fun _ => 0 :=
      .bind (.advance mark) fun _ => .spanFrom fun span span' => .pure (same span span') (by omega) (worth span)
    rw [Runs, primary]
    refine .enter (by omega) (.state fun alike => ?_)
    have kinds := alike.current.kind
    dsimp only
    rw [← kinds]
    split
    · rename_i isInteger
      rw [← alike.current.literal (.inl isInteger)]
      split
      · exact .failWith
      · exact literal (isInteger ▸ rfl) (fun _ _ => rfl) (by simp)
    · rename_i isWord
      exact literal (isWord ▸ rfl) (fun _ _ => rfl) (by simp)
    · rename_i isWord
      exact literal (isWord ▸ rfl) (fun _ _ => rfl) (by simp)
    · rename_i isCharacter
      rw [← alike.current.literal (.inr (.inl isCharacter))]
      exact literal (isCharacter ▸ rfl) (fun _ _ => rfl) (by simp)
    · rename_i isText
      rw [← alike.current.literal (.inr (.inr isText))]
      exact literal (isText ▸ rfl) (fun _ _ => rfl) (by simp)
    · refine .bind .ident fun names => .accept rfl (.bind (arguments_runs fuel ?_) fun args => .bind (.expect rfl) fun _ =>
        .spanFrom fun _ _ => .pure (congrArg₂ (Expr.call ()) names args) ?_ (by simp)) (.pure (congrArg Expr.ident names) ?_ (by simp))
      all_goals omega
    · rename_i isParen
      refine .bind (.advance (isParen ▸ rfl)) fun _ => .bind (binary_runs fuel tier_all ?_) fun same =>
        .bind (.expect rfl) fun _ => .pure same ?_ (by simp)
      all_goals omega
    · refine .bind (valueArms_runs fuel ?_) fun arms => .bind (.expect rfl) fun _ => .bind (binary_runs fuel tier_all ?_)
        fun otherwise => .bind (.expect rfl) fun _ => .spanFrom fun _ _ => .pure (congrArg₂ (Expr.cond ()) arms otherwise) ?_ ?_
      all_goals first | omega | (simp; omega)
    · exact .failWith

end

theorem expr_runs (fuel : Nat) (enough : φ + 10 ≤ top) :
    Runs top φ (φ - 8) fuel s t expr sayExpr Expr.nodes fun _ => 0 :=
  binary_runs fuel tier_all enough

/-! ## Names and modes -/

theorem identList_runs : ∀ (fuel : Nat) {s t : ParserState} {φ : Int}, φ + 1 ≤ top →
    Runs top φ (φ - 23) fuel s t identList (List.map (Ident.blur fun _ => ())) identNodes fun _ => 0
  | 0, _, _, _, enough => .exhausted enough
  | fuel + 1, s, t, φ, enough => by
    rw [Runs, identList]
    refine .enter enough (.bind .ident fun firsts => .state fun alike => ?_)
    rw [← alike.current.kind, ← alike.peek.kind]
    refine .ite (fun comma => ?_) fun _ => .pure (congrArg (· :: []) firsts) (by omega) (by simp)
    have isComma := beq_iff_eq.mp (Bool.and_eq_true_iff.mp comma).1
    refine .bind (.advance (isComma ▸ rfl)) fun _ => .bind (identList_runs fuel ?_) fun rests =>
      .pure (congrArg₂ List.cons firsts rests) ?_ (by simp)
    all_goals omega

/-- What a mode expression says. -/
abbrev sayMode : ModeExpr Span → ModeExpr Unit := ModeExpr.blur fun _ => ()

theorem rangeBounds_runs (fuel : Nat) (enough : φ + 10 ≤ top) :
    Runs top φ (φ - 40) fuel s t rangeBounds (Prod.map sayExpr sayExpr) (fun bounds => bounds.1.nodes ++ bounds.2.nodes)
      fun _ => 2 :=
  .bind (expr_runs fuel enough) fun lowers => .bind (.expect rfl) fun _ => .bind (expr_runs fuel (by omega)) fun uppers =>
    .pure (congrArg₂ Prod.mk lowers uppers) (by omega) (by simp)

theorem namedMode_runs (fuel : Nat) (enough : φ ≤ top) :
    Runs top φ (φ - 24) fuel s t namedMode sayMode ModeExpr.nodes fun _ => 0 := by
  refine .position fun _ _ => .bind .ident fun names => .accept rfl ?_ ?_
  · refine .bind (rangeBounds_runs fuel ?_) fun same => ?_
    · omega
    obtain ⟨lowers, uppers⟩ := Prod.mk.inj same
    refine .bind (.expect rfl) fun _ => .spanFrom fun _ _ => .pure ?_ (by omega) (by simp)
    change ModeExpr.range () (some ⟨(), Ident.blur _ _⟩) (sayExpr _) (sayExpr _) = _
    rw [names, lowers, uppers]
    rfl
  · exact .pure (congrArg (fun id => ModeExpr.name ⟨(), id⟩) names) le_rfl (by simp)

theorem indexMode_runs (fuel : Nat) (enough : φ + 10 ≤ top) :
    Runs top φ (φ - 24) fuel s t indexMode sayMode ModeExpr.nodes fun _ => 0 := by
  refine .state fun alike => ?_
  rw [← alike.current.kind, ← alike.peek.kind]
  refine .ite (fun _ => namedMode_runs fuel (by omega)) fun _ => .position fun _ _ => ?_
  refine .bind (rangeBounds_runs fuel enough) fun same => .spanFrom fun _ _ => .pure ?_ (by omega) (by simp)
  exact congrArg₂ (ModeExpr.range () none) (Prod.mk.inj same).1 (Prod.mk.inj same).2

theorem indexModes_runs : ∀ (fuel : Nat) {s t : ParserState} {φ : Int}, φ + 11 ≤ top →
    Runs top φ (φ - 23) fuel s t indexModes (ModeExpr.blurList fun _ => ()) ModeExpr.listNodes fun _ => 0
  | 0, _, _, _, _ => .exhausted (by omega)
  | fuel + 1, s, t, φ, enough => by
    rw [Runs, indexModes]
    refine .enter (by omega) (.bind (indexMode_runs fuel ?_) fun firsts => .accept rfl
      (.bind (indexModes_runs fuel ?_) fun rests => .pure (congrArg₂ List.cons firsts rests) ?_ (by simp))
      (.pure (congrArg (· :: []) firsts) ?_ (by simp)))
    all_goals omega

theorem mode_runs : ∀ (fuel : Nat) {s t : ParserState} {φ : Int}, φ + 1 ≤ top →
    Runs top φ (φ - 23) fuel s t mode sayMode ModeExpr.nodes fun _ => 0
  | 0, _, _, _, enough => .exhausted enough
  | fuel + 1, s, t, φ, enough => by
    rw [Runs, mode]
    refine .enter enough (.position fun _ _ => .kind fun k isKind => ?_)
    split
    · refine .bind (.advance (isKind ▸ rfl)) fun _ => .bind (mode_runs fuel ?_) fun elems => .spanFrom fun _ _ =>
        .pure (congrArg (ModeExpr.ref ()) elems) ?_ (by simp)
      all_goals omega
    · refine .bind (.advance (isKind ▸ rfl)) fun _ => .bind (.expect rfl) fun _ => .bind (expr_runs fuel ?_) fun lengths =>
        .bind (.expect rfl) fun _ => .spanFrom fun _ _ => .pure (congrArg (ModeExpr.chars ()) lengths) ?_ (by simp)
      all_goals omega
    · refine .bind (.advance (isKind ▸ rfl)) fun _ => .bind (.expect rfl) fun _ => .bind (indexModes_runs fuel ?_) fun indexes =>
        .bind (.expect rfl) fun _ => .bind (mode_runs fuel ?_) fun elems => .spanFrom fun _ _ =>
          .pure (congrArg₂ (ModeExpr.array ()) indexes elems) ?_ (by simp)
      all_goals omega
    · exact .more (namedMode_runs fuel enough) (by omega) (by simp)
    · exact .expected

/-! ## Declarations -/

theorem commaList_runs {item : Nat → Parser α} {view : α → γ} {parts : α → List (Node Span)} (items : ∀ {s t φ}, φ + 1 ≤ top → Runs top φ (φ - 46) n s t item view parts fun _ => 0) :
    ∀ (fuel : Nat) {s t : ParserState} {φ : Int}, fuel ≤ n → φ + 2 ≤ top →
      Spec top fuel φ (φ - 45) s t [] 0 (commaList (item n) fuel) (commaList (item (n + 1)) (fuel + 1))
        (commaList (item n) fuel) (List.map view) (List.flatMap parts) fun _ => 0
  | 0, _, _, _, _, _ => .exhausted (by omega)
  | fuel + 1, s, t, φ, deep, enough => by
    rw [commaList]
    refine .enter (by omega) (.bind (.deepen (items ?_) ?_) fun firsts => .accept rfl
      (.bind (commaList_runs items fuel ?_ ?_) fun rests => .pure (congrArg₂ List.cons firsts rests) ?_ (by simp))
      (.pure (congrArg (· :: []) firsts) ?_ (by simp)))
    all_goals omega

section

variable {view : α → γ} {parts : α → List (Node Span)} {extra : α → Nat} {p q r : Parser α} {deep : Nat}

theorem Spec.some {low' : Int} (part : Spec top deep φ low' s t [] 0 p q r view parts extra) (paid : low' ≤ low) :
    Spec top deep φ low s t [] 0 (some <$> p) (some <$> q) (some <$> r) (Option.map view) (fun a => (a.map parts).getD [])
      fun a => (a.map extra).getD 0 :=
  .more (.map part (fun same => congrArg Option.some same) (by simp)) paid (by simp)

theorem Spec.none : Spec top deep φ φ s t [] 0 (Pure.pure none) (Pure.pure none) (Pure.pure none) (Option.map view)
    (fun a => (a.map parts).getD []) fun a => (a.map extra).getD 0 :=
  .pure rfl le_rfl (by simp)

end

theorem declaration_runs (fuel : Nat) (enough : φ + 1 ≤ top) :
    Runs top φ (φ - 46) fuel s t declaration (Declaration.blur fun _ => ()) Declaration.nodes fun _ => 0 := by
  refine .position fun _ _ => .bind (identList_runs fuel enough) fun names => .bind (mode_runs fuel ?_) fun modes =>
    .passing rfl fun loc => .passing rfl fun _ => .join (fun _ => .some (expr_runs fuel ?_) ?_) (fun _ => .none)
      fun inits => .spanFrom fun _ _ => .pure ?_ ?_ (by simp)
  all_goals first | omega | simp [Declaration.blur, names, modes, inits]

theorem synonymDef_runs (fuel : Nat) (enough : φ + 1 ≤ top) :
    Runs top φ (φ - 46) fuel s t synonymDef (SynonymDef.blur fun _ => ()) SynonymDef.nodes fun _ => 0 := by
  refine .position fun _ _ => .bind (identList_runs fuel enough) fun names => .kind fun _ _ =>
    .join (fun _ => .none) (fun _ => .some (mode_runs fuel ?_) ?_) fun modes => .bind (.expect rfl) fun _ =>
      .bind (expr_runs fuel ?_) fun values => .spanFrom fun _ _ => .pure ?_ ?_ (by simp)
  all_goals first | omega | simp [SynonymDef.blur, names, modes, values]

theorem modeDef_runs (fuel : Nat) (enough : φ + 1 ≤ top) :
    Runs top φ (φ - 46) fuel s t modeDef (ModeDef.blur fun _ => ()) ModeDef.nodes fun _ => 0 := by
  refine .position fun _ _ => .bind (identList_runs fuel enough) fun names => .bind (.expect rfl) fun _ =>
    .bind (mode_runs fuel ?_) fun modes => .spanFrom fun _ _ => .pure (congrArg₂ (ModeDef.mk ()) names modes) ?_ (by simp)
  all_goals omega

theorem formalParam_runs (fuel : Nat) (enough : φ + 1 ≤ top) :
    Runs top φ (φ - 46) fuel s t formalParam (FormalParam.blur fun _ => ()) FormalParam.nodes fun _ => 0 := by
  refine .position fun _ _ => .bind (identList_runs fuel enough) fun names => .bind (mode_runs fuel ?_) fun modes =>
    .passing rfl fun loc => .spanFrom fun _ _ => .pure (congrArg₂ (FormalParam.mk () · · loc) names modes) ?_ (by simp)
  all_goals omega

theorem formalParams_runs : ∀ (fuel : Nat) {s t : ParserState} {φ : Int}, φ + 2 ≤ top →
    Runs top φ (φ + 1) fuel s t formalParams (List.map (FormalParam.blur fun _ => ())) (List.flatMap FormalParam.nodes) fun _ => 0
  | 0, _, _, _, _ => .exhausted (by omega)
  | fuel + 1, s, t, φ, enough => by
    rw [Runs, formalParams]
    refine .enter (by omega) (.kind fun k _ => .ite (fun _ => .pure rfl le_rfl (by simp)) fun _ =>
      .bind (formalParam_runs fuel ?_) fun firsts => .accept rfl
      (.bind (formalParams_runs fuel ?_) fun rests => .pure (congrArg₂ List.cons firsts rests) ?_ (by simp))
      (.pure (congrArg (· :: []) firsts) ?_ (by simp)))
    all_goals omega

theorem resultSpec_runs (fuel : Nat) (enough : φ + 1 ≤ top) :
    Runs top φ φ fuel s t resultSpec (Option.map (ResultSpec.blur fun _ => ())) (fun r => (r.map ResultSpec.nodes).getD [])
      fun _ => 0 := by
  refine .position fun _ _ => .accept rfl ?_ (.pure rfl le_rfl (by simp))
  refine .bind (.expect rfl) fun _ => .bind (mode_runs fuel ?_) fun modes => .passing rfl fun loc => .bind (.expect rfl) fun _ =>
    .spanFrom fun _ _ => .pure (congrArg (fun m => some (ResultSpec.mk () m loc)) modes) ?_ (by simp)
  all_goals omega

/-! ## Actions -/

/-- The words of a counting clause pay for the words that the loop keeps, but for what those around its body pay. -/
theorem forControl_runs (fuel : Nat) (word : s.current.kind = .forWord) (enough : φ ≤ top) :
    Runs top φ (φ - 24) fuel s t forControl (ForControl.blur fun _ => ()) ForControl.nodes fun f => 4 * f.wordCount - 4 := by
  refine .position fun _ _ => .bind (.advance (word ▸ rfl)) fun _ => .bind .ident fun counters => .bind (.expect rfl) fun _ =>
    .bind (expr_runs fuel ?_) fun starts => .accept rfl ?_ ?_
  · omega
  · refine .bind (.some (expr_runs fuel ?_) le_rfl) fun {step _ _ _} steps => .passing rfl fun down => .bind (.expect rfl) fun _ =>
      .bind (expr_runs fuel ?_) fun stops => .spanFrom fun _ _ => .pure ?_ ?_ ?_
    all_goals first | omega | (cases step <;> simp_all [ForControl.blur])
  · refine .pure_bind (.passing rfl fun down => .bind (.expect rfl) fun _ => .bind (expr_runs fuel ?_) fun stops =>
      .spanFrom fun _ _ => .pure ?_ ?_ (by simp))
    all_goals first | omega | simp [ForControl.blur, counters, starts, stops]

theorem loopControl_runs (fuel : Nat) (enough : φ + 10 ≤ top) :
    Runs top φ φ fuel s t loopControl (Prod.map (Option.map (ForControl.blur fun _ => ())) (Option.map sayExpr))
      (fun c => (c.1.map ForControl.nodes).getD [] ++ optionalNodes c.2) fun c => (c.1.map (4 * ·.wordCount - 4)).getD 0 := by
  refine .kind fun k isKind => .join (fun word => .some (forControl_runs fuel ?_ ?_) ?_) (fun _ => .none) fun controls =>
    .passing rfl fun _ => .join (fun _ => .some (expr_runs fuel ?_) ?_) (fun _ => .none) fun tests =>
      .pure (congrArg₂ Prod.mk controls tests) ?_ (by simp)
  · exact isKind.trans (beq_iff_eq.mp word)
  all_goals omega

/-- What a statement says. -/
abbrev sayStmt : Stmt Span → Stmt Unit := Stmt.blur fun _ => ()

/-- Only a call says what a call says. -/
theorem eq_call_of_sayExpr {x : Expr Span} {callee : Ident Unit} {args : List (Expr Unit)}
    (same : Expr.call () callee args = sayExpr x) :
    ∃ note name xs, x = .call note name xs ∧ callee = Ident.blur (fun _ => ()) name ∧ args = Expr.blurList (fun _ => ()) xs := by
  cases x with
  | call note name xs =>
    injection same with _ names lists
    exact ⟨note, name, xs, rfl, names, lists⟩
  | _ => cases same

theorem isMark_of_assignment (assigns : k.isAssignment = true) : k.isMark = true := by
  cases k <;> first | rfl | cases assigns

theorem simpleAction_runs (fuel : Nat) (enough : φ + 10 ≤ top) :
    Runs top φ (φ - 8) fuel s t simpleAction sayStmt Stmt.nodes fun _ => 0 := by
  refine .position fun _ _ => .bind (expr_runs fuel enough) fun same => .kind fun k isKind => .ite (fun assigns => ?_) fun _ => ?_
  · refine .bind (.advance (isKind ▸ isMark_of_assignment assigns)) fun _ => .bind (expr_runs fuel ?_) fun values =>
      .spanFrom fun _ _ => .pure (congrArg₂ (Stmt.assign () · _ ·) same values) ?_ (by simp)
    all_goals omega
  · split
    · obtain ⟨note, name, xs, rfl, names, lists⟩ := eq_call_of_sayExpr same
      exact .pure (congrArg₂ (Stmt.call () ()) names lists) le_rfl (by simp)
    · rename_i other
      split
      · obtain ⟨note, name, xs, rfl, -⟩ := eq_call_of_sayExpr same.symm
        exact absurd rfl (other note name xs)
      · exact .failWith

theorem isBlock_blur {f : Span → γ} (stmt : Stmt Span) : (stmt.blur f).isBlock = stmt.isBlock := by
  cases stmt <;> rfl

theorem terminated_runs {stmt stmt' : Stmt Span} {deep : Nat} (same : sayStmt stmt = sayStmt stmt') :
    Spec top deep φ φ s t stmt.nodes 0 (terminated stmt) (terminated stmt) (terminated stmt') sayStmt Stmt.nodes fun _ => 0 := by
  have block : stmt.isBlock = stmt'.isBlock := by
    rw [← isBlock_blur stmt, ← isBlock_blur stmt']
    exact congrArg Stmt.isBlock same
  unfold terminated
  rw [block]
  refine .kind fun k isKind => .ite (fun found => ?_) fun _ => .ite (fun _ => ?_) fun _ => .pure same le_rfl (by simp)
  · refine .bind (.advance ?_) fun _ => .pure same (by omega) (by simp)
    rw [isKind, beq_iff_eq.mp found]
    rfl
  · exact .bind .report fun _ => .pure same le_rfl (by simp)

theorem isSome_eq_of_map {f : α → γ} {a b : Option α} (same : a.map f = b.map f) : a.isSome = b.isSome := by
  rw [← Option.isSome_map, same, Option.isSome_map]

/-! ## Statements -/

/-- The loop over statements stops at the end of input. -/
theorem statements_end {fuel : Nat} {closing : List TokenKind} (ended : s.current.kind = .endOfInput) (enough : φ + 1 ≤ top) :
    Runs top φ (φ + 1) fuel s t (statements · closing) (Stmt.blurList fun _ => ()) Stmt.listNodes fun _ => 0 := by
  cases fuel with
  | zero => exact .exhausted enough
  | succ fuel =>
    refine .enter enough (.state fun alike => ?_)
    rw [← alike.current.kind]
    refine .ite (fun _ => .pure rfl le_rfl (by simp)) fun _ => .ite (fun _ => .bind .report fun _ => .pure rfl le_rfl (by simp))
      fun more => absurd (beq_iff_eq.mpr ended) more

mutual

theorem statements_runs : ∀ (fuel : Nat) {closing : List TokenKind} {s t : ParserState} {top φ : Int}, φ + 15 ≤ top →
    Runs top φ (φ + 15) fuel s t (statements · closing) (Stmt.blurList fun _ => ()) Stmt.listNodes fun _ => 0
  | 0, _, _, _, _, _, _ => .exhausted (by omega)
  | fuel + 1, closing, s, t, top, φ, enough => by
    rw [Runs, statements_succ, statements_succ]
    refine .enter (by omega) (.state fun alike => ?_)
    rw [← alike.current.kind]
    refine .ite (fun _ => .pure rfl (by omega) (by simp)) fun _ => .ite (fun _ => .bind .report fun _ => .pure rfl (by omega) (by simp))
      fun more => .ite (fun empty => ?_) fun _ => ?_
    · refine .bind (.advance (beq_iff_eq.mp empty ▸ rfl)) fun _ => .more (statements_runs fuel ?_) ?_ (by simp)
      all_goals omega
    -- A failure costs less than the token passed after it, unless that is the end of input, where the loop stops.
    · have first : Runs (φ + 13) (φ + 1) (φ + 1 - 2) fuel s.step t.step statement sayStmt Stmt.nodes fun _ => 0 :=
        statement_runs fuel (by omega)
      refine .recovered first (by omega) (by omega) (fun same => ?_) (fun ended => ?_) ?_
      · refine .bind (statements_runs fuel ?_) fun rests => .pure (congrArg₂ List.cons same rests) ?_ (by simp)
        all_goals omega
      · exact .more (statements_end ended (by omega)) (by omega) (by simp)
      · exact .more (statements_runs fuel (by omega)) (by omega) (by simp)

theorem statement_runs : ∀ (fuel : Nat) {s t : ParserState} {top φ : Int}, φ + 12 ≤ top →
    Runs top φ (φ - 2) fuel s t statement sayStmt Stmt.nodes fun _ => 0
  | 0, _, _, _, _, _ => .exhausted (by omega)
  | fuel + 1, s, t, top, φ, enough => by
    rw [Runs, statement_succ, statement_succ]
    suffices parts : Runs top (φ + 1) (φ - 2) fuel s.step t.step unterminated sayStmt Stmt.nodes fun _ => 0 from
      .enter (by omega) (.bind parts fun same => .more (terminated_runs same) le_rfl (by simp))
    refine .state fun alike => ?_
    rw [← alike.current.kind, ← alike.peek.kind]
    split
    · rename_i word
      refine .bind (.advance (word ▸ rfl)) fun _ => .bind (commaList_runs (declaration_runs fuel) fuel le_rfl ?_) fun decls =>
        .spanFrom fun _ _ => .pure (congrArg (Stmt.declare ()) decls) ?_ (by simp)
      all_goals omega
    · rename_i word
      refine .bind (.advance (word ▸ rfl)) fun _ => .bind (commaList_runs (synonymDef_runs fuel) fuel le_rfl ?_) fun defs =>
        .spanFrom fun _ _ => .pure (congrArg (Stmt.synonym ()) defs) ?_ (by simp)
      all_goals omega
    · rename_i word
      refine .bind (.advance (word ▸ rfl)) fun _ => .bind (commaList_runs (modeDef_runs fuel) fuel le_rfl ?_) fun defs =>
        .spanFrom fun _ _ => .pure (congrArg (Stmt.modes ()) defs) ?_ (by simp)
      all_goals omega
    · refine .ite (fun colon => .more (procedure_runs fuel (beq_iff_eq.mp colon) ?_) ?_ (by simp))
        fun _ => .more (simpleAction_runs fuel ?_) ?_ (by simp)
      all_goals omega
    · refine .more (action_runs fuel ?_) ?_ (by simp)
      all_goals omega

theorem procedure_runs : ∀ (fuel : Nat) {s t : ParserState} {top φ : Int}, s.peek.kind = .colon → φ + 1 ≤ top →
    Runs top φ (φ - 23) fuel s t procedure sayStmt Stmt.nodes fun _ => 0
  | 0, _, _, _, _, _, enough => .exhausted enough
  | fuel + 1, s, t, top, φ, colon, enough => by
    rw [Runs, procedure]
    refine .enter enough (.position fun _ _ => .identThen fun isNext names => .bind (.advance ?_) fun _ => .bind (.expect rfl) fun _ =>
      .bind (.expect rfl) fun _ => .bind (formalParams_runs fuel ?_) fun params => .bind (.expect rfl) fun _ =>
      .bind (resultSpec_runs fuel ?_) fun results => .bind (.expect rfl) fun _ => .bind (statements_runs fuel ?_) fun bodies =>
      .bind (.expect rfl) fun _ => .spanFrom fun _ _ => .pure ?_ ?_ (by simp; omega))
    · rw [isNext]
      exact colon ▸ rfl
    all_goals first | omega | simp only [sayStmt, Stmt.blur, names, params, results, bodies]

theorem action_runs : ∀ (fuel : Nat) {s t : ParserState} {top φ : Int}, φ + 11 ≤ top →
    Runs top φ (φ - 7) fuel s t action sayStmt Stmt.nodes fun _ => 0
  | 0, _, _, _, _, _ => .exhausted (by omega)
  | fuel + 1, s, t, top, φ, enough => by
    rw [Runs, action]
    refine .enter (by omega) (.position fun _ _ => .kind fun k isKind => ?_)
    split
    · have given {s t : ParserState} {φ : Int} (enough : φ + 15 ≤ top) : Runs top φ (φ + 15) fuel s t
          (some <$> statements · [.fiWord]) (Stmt.blurElse fun _ => ()) Stmt.elseNodes fun _ => 0 :=
        .map (statements_runs fuel enough) (fun same => congrArg Option.some same) fun _ => ⟨rfl, le_rfl⟩
      refine .bind (branchArms_runs fuel ?_) fun arms => .accept rfl
        (.bind (given ?_) fun bodies => .bind (.expect rfl) fun _ => .spanFrom fun _ _ =>
          .pure (congrArg₂ (Stmt.branch ()) arms bodies) ?_ (by rw [Stmt.nodes_branch]; simp; omega))
        (.pure_bind (.bind (.expect rfl) fun _ => .spanFrom fun _ _ =>
          .pure (congrArg (Stmt.branch () · none) arms) ?_ (by simp; omega)))
      all_goals omega
    · refine .bind (.advance (isKind ▸ rfl)) fun _ => .bind (loopControl_runs fuel ?_) fun {c c' _ _} same => ?_
      · omega
      obtain ⟨controls, tests⟩ := Prod.mk.inj same
      have clauses : (c.1.isSome || c.2.isSome) = (c'.1.isSome || c'.2.isSome) := by
        rw [isSome_eq_of_map controls, isSome_eq_of_map tests]
      dsimp only
      rw [clauses]
      refine .ite (fun _ => .bind (.expect rfl) fun _ => .more (loopBody_runs fuel controls tests ?_) ?_ ?_)
        fun _ => .more (loopBody_runs fuel controls tests ?_) ?_ ?_
      all_goals first | omega | (simp <;> omega)
    · refine .bind (loopControl_runs fuel ?_) fun same => .bind (.expect rfl) fun _ =>
        .more (loopBody_runs fuel (Prod.mk.inj same).1 (Prod.mk.inj same).2 ?_) ?_ (by simp)
      all_goals omega
    · refine .bind (loopControl_runs fuel ?_) fun same => .bind (.expect rfl) fun _ =>
        .more (loopBody_runs fuel (Prod.mk.inj same).1 (Prod.mk.inj same).2 ?_) ?_ (by simp)
      all_goals omega
    · refine .bind (.advance (isKind ▸ rfl)) fun _ => .kind fun k _ => .join (fun _ => .none) (fun _ => .some (expr_runs fuel ?_) ?_)
        fun values => .spanFrom fun _ _ => .pure (congrArg (Stmt.ret ()) values) ?_ (by simp)
      all_goals omega
    · refine .bind (.advance (isKind ▸ rfl)) fun _ => .bind (expr_runs fuel ?_) fun values => .spanFrom fun _ _ =>
        .pure (congrArg (Stmt.result ()) values) ?_ (by simp)
      all_goals omega
    · exact .more (simpleAction_runs fuel (by omega)) (by omega) (by simp)

/-- An arm is introduced by a word that pays for its label. -/
theorem branchArms_runs : ∀ (fuel : Nat) {s t : ParserState} {top φ : Int}, φ + 1 ≤ top →
    Runs top φ (φ + 1) fuel s t branchArms (Stmt.blurArms fun _ => ()) Stmt.armNodes List.length
  | 0, _, _, _, _, enough => .exhausted enough
  | fuel + 1, s, t, top, φ, enough => by
    rw [Runs, branchArms]
    refine .enter enough (.kind fun k isKind => .ite (fun word => .position fun _ _ => ?_) fun _ => .pure rfl le_rfl (by simp))
    refine .bind (.advance (isKind ▸ isMark_of_arm word)) fun _ => .bind (expr_runs fuel ?_) fun tests =>
      .bind (.expect rfl) fun _ => .bind (statements_runs fuel ?_) fun bodies => .spanFrom fun _ _ =>
      .bind (branchArms_runs fuel ?_) fun rests =>
      .pure (congrArg₂ List.cons (congrArg₂ (CondBranch.mk ()) tests bodies) rests) ?_ ?_
    all_goals first | omega | simp

/-- The words around the body of a loop pay for its labels. -/
theorem loopBody_runs : ∀ (fuel : Nat) {start start' : Position} {control control' : Option (ForControl Span)}
    {test test' : Option (Expr Span)} {s t : ParserState} {top φ : Int},
    control.map (ForControl.blur fun _ => ()) = control'.map (ForControl.blur fun _ => ()) →
    test.map sayExpr = test'.map sayExpr → φ + 16 ≤ top →
      Spec top fuel φ (φ - 8) s t ((control.map ForControl.nodes).getD [] ++ optionalNodes test)
        ((control.map (4 * ·.wordCount - 4)).getD 0 + 2) (loopBody fuel start control test)
        (loopBody (fuel + 1) start control test) (loopBody fuel start' control' test') sayStmt Stmt.nodes fun _ => 0
  | 0, _, _, _, _, _, _, _, _, _, _, _, _, _ => .exhausted (by omega)
  | fuel + 1, _, _, control, _, _, _, _, _, _, _, controls, tests, enough => by
    rw [loopBody]
    refine .enter (by omega) (.bind (statements_runs fuel ?_) fun bodies => .bind (.expect rfl) fun _ => .spanFrom fun _ _ => .pure ?_ ?_ ?_)
    · omega
    · simp only [sayStmt, Stmt.blur, controls, tests, bodies]
    · omega
    · cases control <;> simp <;> omega

end

theorem program_runs (fuel : Nat) (enough : φ + 15 ≤ top) :
    Runs top φ (φ + 15) fuel s t program Program.plain Program.nodes fun _ => 0 :=
  .position fun _ _ => .bind (statements_runs fuel enough) fun bodies => .spanFrom fun _ _ =>
    .pure (congrArg (Program.mk ()) bodies) le_rfl (by simp [Program.nodes])

end LyaLang.Parser
