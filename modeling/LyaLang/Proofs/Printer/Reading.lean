import Mathlib.Logic.Basic
import LyaLang.Proofs.Parser.Parts
import LyaLang.Proofs.Printer.Basic
import LyaLang.Proofs.Text.Decimal
import LyaLang.Proofs.Text.Utf8
import LyaLang.Proofs.Tree.Map

/-! # Reading printed expressions

A parser reads a phrase if, with any fuel from some amount on, it passes exactly the tokens of the phrase, records no
error and gives what the phrase was printed from. Expressions are read tier by tier: the production of a tier reads a
form of this tier or a tighter one and goes on with its own loop behind it, so left operands need no parentheses.
-/

namespace LyaLang

open Ast Sign

variable {k : TokenKind} {n : Nat}

/-- The class of the first token of a list; behind the last one stands the end of input. -/
def Sign.front : List Sign → TokenKind
  | [] => .endOfInput
  | g :: _ => g.kind

namespace ParserState

/-- The tokens from the current one on are the given ones, and behind them the input ends. -/
structure Ahead (s : ParserState) (gs : List Sign) : Prop where
  signs : ∃ n, (s.current :: s.peek :: s.rest).map Token.sign = gs ++ List.replicate (n + 1) finish
  clean : ∀ g ∈ gs, g.kind ≠ .lexicalError

variable {s : ParserState} {g : Sign} {gs : List Sign}

theorem Ahead.current_kind (ahead : s.Ahead gs) : s.current.kind = front gs := by
  obtain ⟨n, signs⟩ := ahead.signs
  cases gs with
  | nil => exact congrArg Sign.kind (List.cons.inj signs).1
  | cons g gs => exact congrArg Sign.kind (List.cons.inj signs).1

theorem Ahead.current_text (ahead : s.Ahead (g :: gs)) : s.current.text = g.text := by
  obtain ⟨n, signs⟩ := ahead.signs
  exact congrArg Sign.text (List.cons.inj signs).1

theorem Ahead.peek_kind (ahead : s.Ahead (g :: gs)) : s.peek.kind = front gs := by
  obtain ⟨n, signs⟩ := ahead.signs
  have behind := (List.cons.inj signs).2
  cases gs with
  | nil => exact congrArg Sign.kind (List.cons.inj behind).1
  | cons h gs => exact congrArg Sign.kind (List.cons.inj behind).1

/-- Moving on passes the first token. -/
theorem Ahead.advance (ahead : s.Ahead (g :: gs)) : s.advance.Ahead gs ∧ s.advance.errors = s.errors := by
  obtain ⟨⟨n, signs⟩, clean⟩ := ahead
  have behind : s.peek.sign :: s.rest.map Token.sign = gs ++ List.replicate (n + 1) finish := (List.cons.inj signs).2
  have cleanRest : ∀ t ∈ s.rest, t.kind ≠ .lexicalError := by
    intro t mem
    have listed : t.sign ∈ gs ++ List.replicate (n + 1) finish := by
      rw [← behind]
      exact List.mem_cons_of_mem _ (List.mem_map_of_mem mem)
    rcases List.mem_append.mp listed with member | member
    · exact clean t.sign (List.mem_cons_of_mem g member)
    · intro bad
      rw [List.mem_replicate] at member
      have ends : t.kind = .endOfInput := congrArg Sign.kind member.2
      rw [ends] at bad
      cases bad
  have faults : s.rest.takeWhile (·.kind == .lexicalError) = [] := by
    cases rest : s.rest with
    | nil => rfl
    | cons t ts =>
      rw [rest] at cleanRest
      rw [List.takeWhile_cons, if_neg (by simpa using cleanRest t List.mem_cons_self)]
  have cleanTail : ∀ h ∈ gs, h.kind ≠ .lexicalError := fun h mem => clean h (List.mem_cons_of_mem g mem)
  unfold ParserState.advance
  rw [faults]
  cases rest : s.rest with
  | nil =>
    -- Only the token in view is left, so it is the end of input, which repeats.
    rw [rest, List.map_nil] at behind
    have lengths := congrArg List.length behind
    simp only [List.length_cons, List.length_nil, List.length_append, List.length_replicate] at lengths
    obtain rfl : gs = [] := List.length_eq_zero_iff.mp (by omega)
    have last : s.peek.sign = finish := (List.cons.inj behind).1
    refine ⟨⟨⟨1, ?_⟩, cleanTail⟩, List.append_nil _⟩
    simp [last, List.replicate]
  | cons t ts =>
    rw [rest] at behind
    exact ⟨⟨⟨n, behind⟩, cleanTail⟩, List.append_nil _⟩

end ParserState

namespace Parser

variable {α β γ : Type} {before middle after next : List Sign} {good : α → Prop} {good' : β → Prop}

/-- With enough fuel the parser passes the tokens between two points of the input, records no error and gives a good
result. -/
def Reads (before : List Sign) (p : Nat → Parser α) (after : List Sign) (good : α → Prop) : Prop :=
  ∀ s : ParserState, s.Ahead before →
    ∃ a t, (∃ least, ∀ fuel ≥ least, p fuel s = (some a, t)) ∧ good a ∧ t.Ahead after ∧ t.errors = s.errors

namespace Reads

theorem pure {a : α} (holds : good a) : Reads before (fun _ => pure a) before good :=
  fun s ahead => ⟨a, s, ⟨0, fun _ _ => rfl⟩, holds, ahead, rfl⟩

theorem value {a : α} {f : Nat → α → Parser β} (reads : Reads before (f · a) after good') :
    Reads before (fun fuel => Pure.pure a >>= f fuel) after good' :=
  reads

theorem bind {p : Nat → Parser α} {f : Nat → α → Parser β} (first : Reads before p middle good)
    (second : ∀ {a}, good a → Reads middle (f · a) after good') :
    Reads before (fun fuel => p fuel >>= f fuel) after good' := by
  intro s ahead
  obtain ⟨a, t, ⟨least, run⟩, holds, ahead, errors⟩ := first s ahead
  obtain ⟨b, u, ⟨least', run'⟩, holds', ahead', errors'⟩ := second holds t ahead
  refine ⟨b, u, ⟨max least least', fun fuel enough => ?_⟩, holds', ahead', errors'.trans errors⟩
  obtain ⟨enough, enough'⟩ := Nat.max_le.mp enough
  simp only [Bind.bind, run fuel enough]
  exact run' fuel enough'

theorem map {p : Nat → Parser α} {f : α → β} (first : Reads before p after good) (image : ∀ {a}, good a → good' (f a)) :
    Reads before (fun fuel => f <$> p fuel) after good' :=
  bind first fun holds => pure (image holds)

/-- What a production does with one unit of fuel more than its parts. -/
theorem succ {p : Nat → Parser α} (reads : Reads before (fun fuel => p (fuel + 1)) after good) :
    Reads before p after good := by
  intro s ahead
  obtain ⟨a, t, ⟨least, run⟩, rest⟩ := reads s ahead
  refine ⟨a, t, ⟨least + 1, fun fuel enough => ?_⟩, rest⟩
  obtain ⟨fuel, rfl⟩ := Nat.exists_eq_add_of_le' (Nat.le_of_add_left_le enough)
  exact run fuel (Nat.le_of_add_le_add_right enough)

theorem shift {p : Nat → Parser α} (k : Nat) (reads : Reads before p after good) :
    Reads before (fun fuel => p (fuel + k)) after good := by
  intro s ahead
  obtain ⟨a, t, ⟨least, run⟩, rest⟩ := reads s ahead
  exact ⟨a, t, ⟨least, fun fuel enough => run _ (Nat.le_add_right_of_le enough)⟩, rest⟩

theorem enter {p : Nat → Parser α} (reads : Reads before p after good) :
    Reads before (fun fuel => enter >>= fun _ => p fuel) after good :=
  fun s ahead => reads { s with steps := s.steps + 1 } ⟨ahead.signs, ahead.clean⟩

theorem kind {f : Nat → TokenKind → Parser β} (reads : Reads before (f · (front before)) after good') :
    Reads before (fun fuel => kind >>= f fuel) after good' := by
  intro s ahead
  rw [← ahead.current_kind] at reads
  exact reads s ahead

theorem state {f : Nat → ParserState → Parser β}
    (reads : ∀ s : ParserState, s.Ahead before → Reads before (f · s) after good') :
    Reads before (fun fuel => state >>= f fuel) after good' := fun s ahead => reads s ahead s ahead

theorem position {f : Nat → Position → Parser β} (reads : ∀ p, Reads before (f · p) after good') :
    Reads before (fun fuel => position >>= f fuel) after good' := fun s ahead => reads s.current.position s ahead

theorem spanFrom {start : Position} {f : Nat → Span → Parser β} (reads : ∀ span, Reads before (f · span) after good') :
    Reads before (fun fuel => spanFrom start >>= f fuel) after good' := fun s ahead => reads _ s ahead

theorem advance {g : Sign} : Reads (g :: after) (fun _ => advance) after fun _ => True :=
  fun s ahead => ⟨(), s.advance, ⟨0, fun _ _ => rfl⟩, trivial, ahead.advance⟩

theorem yes {p q : Nat → Parser α} {c : Prop} [Decidable c] (holds : c) (reads : Reads before p after good) :
    Reads before (fun fuel => if c then p fuel else q fuel) after good := by
  simp only [if_pos holds]
  exact reads

theorem no {p q : Nat → Parser α} {c : Prop} [Decidable c] (fails : ¬c) (reads : Reads before q after good) :
    Reads before (fun fuel => if c then p fuel else q fuel) after good := by
  simp only [if_neg fails]
  exact reads

theorem expect : Reads (word k :: after) (fun _ => expect k) after fun _ => True :=
  kind (yes (beq_self_eq_true k) advance)

/-- A token that is there is passed. -/
theorem accepted {f : Nat → Bool → Parser β} (reads : Reads middle (f · true) after good') :
    Reads (word k :: middle) (fun fuel => accept k >>= f fuel) after good' := by
  have found : Reads (word k :: middle) (fun _ => accept k) middle (· = true) :=
    kind (yes (beq_self_eq_true k) (bind advance fun _ => pure rfl))
  exact bind found fun {a} is => by
    rw [is]
    exact reads

/-- A token that is not there is left out. -/
theorem missing {f : Nat → Bool → Parser β} (other : front before ≠ k)
    (reads : Reads before (f · false) after good') : Reads before (fun fuel => accept k >>= f fuel) after good' := by
  have found : Reads before (fun _ => accept k) before (· = false) :=
    kind (no (by simpa using other) (pure rfl))
  exact bind found fun {a} is => by
    rw [is]
    exact reads

end Reads

theorem ident_reads {i : Ident γ} :
    Reads (Sign.name i :: after) (fun _ => ident) after fun x => x.map (fun _ => ()) = i.map fun _ => () := by
  refine .state fun s ahead => ?_
  have isName : s.current.kind = .identifier := ahead.current_kind
  rw [if_pos (beq_iff_eq.mpr isName)]
  exact .bind .advance fun _ => .pure (congrArg (Ident.mk ()) ahead.current_text)

/-! ## Tiers -/

/-- What is left of a tree without its notes. -/
abbrev forget {γ : Type} : γ → Unit := fun _ => ()

/-- No loop of the tier or a tighter one goes on at the token, and it does not make a name a call. -/
def stopsAt (n : Nat) (k : TokenKind) : Bool :=
  k != .leftParen && (7 < n || k != .leftBracket && k != .arrow) &&
    (binaryLevels.drop n).all fun level => (operatorAt? level k).isNone

/-- No expression goes on at the token. -/
abbrev closes (k : TokenKind) : Bool := stopsAt 0 k

theorem stopsAt.succ (stops : stopsAt n k = true) : stopsAt (n + 1) k = true := by
  simp only [stopsAt, Bool.and_eq_true, Bool.or_eq_true, decide_eq_true_eq, List.all_eq_true] at stops ⊢
  obtain ⟨⟨noParen, noPostfix⟩, noOperator⟩ := stops
  refine ⟨⟨noParen, noPostfix.imp_left Nat.lt_succ_of_lt⟩, fun level member => noOperator level ?_⟩
  rw [← List.drop_drop] at member
  exact List.mem_of_mem_drop member

theorem stopsAt.noParen (stops : stopsAt n k = true) : k ≠ .leftParen := by
  simp only [stopsAt, Bool.and_eq_true, bne_iff_ne] at stops
  exact stops.1.1

/-- The production of a tier. -/
def former (n : Nat) : Nat → Parser (Expr Span) := if n < 6 then (binary · (binaryLevels.drop n)) else unary

/-- The loop of a tier, which goes on behind its first operand. Prefix forms have none. -/
def latter (n fuel : Nat) (start : Position) (x : Expr Span) : Parser (Expr Span) :=
  match binaryLevels.drop n with
  | level :: tighter => binaryRest fuel level tighter start x
  | [] => if n = 6 then return x else postfixes fuel start x

/-- The production of a tier reads the expression and goes on with its loop behind it. -/
def ReadsAt (n : Nat) (e : Expr γ) (gs : List Sign) : Prop :=
  ∀ (next after : List Sign) (good : Expr Span → Prop), stopsAt (n + 1) (front next) = true →
    (∀ {start x}, x.map forget = e.map forget → Reads next (latter n · start x) after good) →
    Reads (gs ++ next) (former n) after good

theorem latter_stops (inside : n ≤ 7) {start : Position} {x : Expr Span} {good : Expr Span → Prop}
    (stops : stopsAt n (front after) = true) (holds : good x) : Reads after (latter n · start x) after good := by
  simp only [stopsAt, Bool.and_eq_true, Bool.or_eq_true, decide_eq_true_eq, bne_iff_ne, List.all_eq_true,
    Option.isNone_iff_eq_none] at stops
  obtain ⟨⟨-, noPostfix⟩, noOperator⟩ := stops
  obtain ⟨noIndex, noArrow⟩ := noPostfix.resolve_left (Nat.not_lt.mpr inside)
  unfold latter
  cases levels : binaryLevels.drop n with
  | cons level tighter =>
    refine .succ ?_
    simp only [binaryRest]
    refine .enter (.kind ?_)
    rw [noOperator level (levels ▸ List.mem_cons_self)]
    exact .pure holds
  | nil =>
    by_cases isPrefix : n = 6
    · exact .yes isPrefix (.pure holds)
    refine .no isPrefix (.succ ?_)
    simp only [postfixes]
    refine .enter (.kind ?_)
    split
    · exact absurd ‹_› noIndex
    · exact absurd ‹_› noArrow
    · exact .pure holds

/-- The levels from a tier on read what the tier reads. -/
theorem levels_reads (inside : n ≤ 6) {good : Expr Span → Prop} (reads : Reads before (former n) after good) :
    Reads before (binary · (binaryLevels.drop n)) after good := by
  unfold former at reads
  by_cases isOperator : n < 6
  · simpa only [if_pos isOperator] using reads
  obtain rfl : n = 6 := by omega
  refine .succ ?_
  simp only [binaryLevels, List.drop, binary]
  exact .enter reads

/-- Tokens that start an expression with a prefix operator. -/
def startsUnary (k : TokenKind) : Bool := k == .minus || k == .bang || k == .arrow

namespace ReadsAt

variable {n : Nat} {e x y : Expr γ} {gs hs : List Sign} {note : γ}

/-- In front of a token that stops its loop the expression is read on its own. -/
theorem alone (reads : ReadsAt n e gs) (inside : n ≤ 7) (stops : stopsAt n (front next) = true) :
    Reads (gs ++ next) (former n) next fun x => x.map forget = e.map forget :=
  reads next next _ (stopsAt.succ stops) fun same => latter_stops inside stops same

theorem expr (reads : ReadsAt 0 e gs) (closing : closes (front next) = true) :
    Reads (gs ++ next) expr next fun x => x.map forget = e.map forget :=
  reads.alone (Nat.zero_le 7) closing

/-- A form of one tier can stand where the next looser one is called for. -/
theorem looser (inside : n < 7) (reads : ReadsAt (n + 1) e gs) : ReadsAt n e gs := by
  intro next after good stops goesOn
  have first := reads.alone inside stops
  by_cases isOperator : n < 6
  · obtain ⟨level, levels⟩ : ∃ level, binaryLevels.drop n = level :: binaryLevels.drop (n + 1) :=
      ⟨_, List.drop_eq_getElem_cons isOperator⟩
    simp only [latter, levels] at goesOn
    simp only [former, if_pos isOperator, levels]
    refine .succ ?_
    exact .enter (.position fun start => .bind (levels_reads isOperator first) goesOn)
  · obtain rfl : n = 6 := by omega
    have whole : Reads (gs ++ next) (fun fuel => former 7 fuel >>= fun x => latter 6 fuel .first x) after good :=
      .bind first goesOn
    simpa [former, latter, binaryLevels] using whole

theorem mono {m : Nat} (inside : n ≤ 7) (below : m ≤ n) (reads : ReadsAt n e gs) : ReadsAt m e gs := by
  induction below with
  | refl => exact reads
  | step _ ih => exact ih (Nat.le_of_succ_le inside) (reads.looser inside)

/-- An operand takes the tokens of the operator behind it, and the loop of its tier goes on with both operands. -/
theorem binary {op : BinaryOp} (left : ReadsAt op.tier x gs) (right : ReadsAt (op.tier + 1) y hs) :
    ReadsAt op.tier (.binary note op x y) (gs ++ word op.token :: hs) := by
  intro next after good stops goesOn
  obtain ⟨level, levels, here⟩ : ∃ level, binaryLevels.drop op.tier = level :: binaryLevels.drop (op.tier + 1) ∧
      operatorAt? level op.token = some op := by
    cases op <;> exact ⟨_, rfl, rfl⟩
  have few : op.tier + 1 ≤ 6 := by cases op <;> decide
  rw [List.append_assoc, List.cons_append]
  refine left _ _ _ (by cases op <;> rfl) fun {start x'} lefts => ?_
  simp only [latter, levels] at goesOn ⊢
  refine .succ ?_
  refine .enter (.kind ?_)
  simp only [front, word, here]
  exact .bind .advance fun _ => .bind (levels_reads few (right.alone (Nat.le_succ_of_le few) stops)) fun rights =>
    .spanFrom fun span => goesOn (congrArg₂ (Expr.binary () op) lefts rights)

theorem unary {op : UnaryOp} (operand : ReadsAt 6 x gs) : ReadsAt 6 (.unary note op x) (word op.token :: gs) := by
  intro next after good stops goesOn
  refine .succ ?_
  simp only [former, Nat.lt_irrefl, if_false, Parser.unary]
  cases op with
  | negate =>
    exact .enter (.position fun start => .kind (.bind .advance fun _ => .bind (operand.alone (by decide) stops) fun same =>
      .spanFrom fun span => @goesOn start _ (congrArg (Expr.unary () .negate) same)))
  | complement =>
    exact .enter (.position fun start => .kind (.bind .advance fun _ => .bind (operand.alone (by decide) stops) fun same =>
      .spanFrom fun span => @goesOn start _ (congrArg (Expr.unary () .complement) same)))

theorem ref (operand : ReadsAt 6 x gs) : ReadsAt 6 (.ref note x) (word .arrow :: gs) := by
  intro next after good stops goesOn
  refine .succ ?_
  exact .enter (.position fun start => .kind (.bind .advance fun _ => .bind (operand.alone (by decide) stops) fun same =>
    .spanFrom fun span => @goesOn start _ (congrArg (Expr.ref ()) same)))

theorem deref (operand : ReadsAt 7 x gs) : ReadsAt 7 (.deref note x) (gs ++ [word .arrow]) := by
  intro next after good stops goesOn
  rw [List.append_assoc]
  refine operand _ _ _ rfl fun {start x'} same => .succ ?_
  exact .enter (.kind (.bind .advance fun _ => .spanFrom fun span => goesOn (congrArg (Expr.deref ()) same)))

/-- Forms that no prefix operator starts. -/
theorem of_primary (plain : ∀ next, startsUnary (front (gs ++ next)) = false)
    (reads : ∀ next, front next ≠ .leftParen → Reads (gs ++ next) primary next fun x => x.map forget = e.map forget) :
    ReadsAt 7 e gs := by
  intro next after good stops goesOn
  have plain := plain next
  refine .succ ?_
  refine .enter (.position fun start => .kind ?_)
  split
  iterate 3
    rw [‹front (gs ++ next) = _›] at plain
    cases plain
  · exact .bind (reads next (stopsAt.noParen stops)) goesOn

theorem parens (inner : ReadsAt 0 e gs) : ReadsAt 7 e (parens gs) := by
  refine of_primary (fun _ => rfl) fun next noParen => .succ ?_
  rw [Sign.parens, List.cons_append, List.append_assoc]
  simp only [primary]
  refine .enter (.state fun s ahead => ?_)
  have isParen : s.current.kind = .leftParen := ahead.current_kind
  simp only [isParen]
  exact .bind .advance fun _ => .bind (inner.expr rfl) fun same => .bind .expect fun _ => .pure same

theorem int {value : Int64} : ReadsAt 7 (.int note value) [⟨.integer, Text.ofInt64 value⟩] := by
  refine of_primary (fun _ => rfl) fun next _ => .succ ?_
  refine .enter (.state fun s ahead => ?_)
  have kind : s.current.kind = .integer := ahead.current_kind
  have text : s.current.text = Text.ofInt64 value := ahead.current_text
  simp only [kind, text, Text.parseInt64?_ofInt64]
  exact .bind .advance fun _ => .spanFrom fun span => .pure rfl

theorem bool {value : Bool} : ReadsAt 7 (.bool note value) [word (if value then .trueWord else .falseWord)] := by
  refine of_primary (fun _ => by cases value <;> rfl) fun next _ => .succ ?_
  refine .enter (.state fun s ahead => ?_)
  have kind : s.current.kind = if value then .trueWord else .falseWord := ahead.current_kind
  cases value
  all_goals
    simp only [kind]
    exact .bind .advance fun _ => .spanFrom fun span => .pure rfl

theorem char {value : Char} : ReadsAt 7 (.char note value) [⟨.character, Text.encode [value]⟩] := by
  refine of_primary (fun _ => rfl) fun next _ => .succ ?_
  refine .enter (.state fun s ahead => ?_)
  have kind : s.current.kind = .character := ahead.current_kind
  have text : s.current.text = Text.encode [value] := ahead.current_text
  simp only [kind, text, Text.chars_encode]
  exact .bind .advance fun _ => .spanFrom fun span => .pure rfl

theorem text {value : Bytes} : ReadsAt 7 (.text note value) [⟨.text, value⟩] := by
  refine of_primary (fun _ => rfl) fun next _ => .succ ?_
  refine .enter (.state fun s ahead => ?_)
  have kind : s.current.kind = .text := ahead.current_kind
  have text : s.current.text = value := ahead.current_text
  simp only [kind, text]
  exact .bind .advance fun _ => .spanFrom fun span => .pure rfl

/-- A name without arguments stands for itself. -/
theorem ident {id : Ident γ} : ReadsAt 7 (.ident id) [.name id] := by
  refine of_primary (fun _ => rfl) fun next noParen => .succ ?_
  refine .enter (.state fun s ahead => ?_)
  have kind : s.current.kind = .identifier := ahead.current_kind
  simp only [kind]
  exact .bind ident_reads fun same => .missing noParen (.pure (congrArg Expr.ident same))

end ReadsAt

/-! ## Lists of expressions -/

theorem parens_append (gs next : List Sign) :
    parens gs ++ next = word .leftParen :: (gs ++ word .rightParen :: next) := by
  rw [parens, List.cons_append, List.append_assoc]
  rfl

/-- A list between commas is read if each member is. Some lists may stop in front of a member, and the members of some
keep the fuel that the list started with, so the fuel may differ by any `k`. -/
theorem listing_reads {δ ε ζ : Type} (item : Nat → Nat → Parser ε) (list : Nat → Nat → Parser (List ε))
    (stop : TokenKind → Bool) {signs : δ → List Sign} {view : ε → ζ} {view' : δ → ζ}
    (loop : ∀ {k before good}, stop (front before) = false → Reads before (fun fuel => item k fuel >>= fun first =>
      accept .comma >>= fun more => if more then list (k + 1) fuel >>= fun rest => pure (first :: rest) else pure [first])
      next good → Reads before (list k) next good) (noComma : front next ≠ .comma) :
    ∀ {x : δ} {rest : List δ} (k : Nat), (∀ y ∈ x :: rest, ∀ k after, front after = .comma ∨ front after = front next →
        stop (front (signs y ++ after)) = false ∧ Reads (signs y ++ after) (item k) after fun z => view z = view' y) →
      Reads (commas ((x :: rest).map signs) ++ next) (list k) next fun zs => zs.map view = (x :: rest).map view'
  | x, [], k, each => by
    obtain ⟨goes, first⟩ := each x List.mem_cons_self k next (.inr rfl)
    exact loop goes (.bind first fun same => .missing noComma (.pure (congrArg (· :: []) same)))
  | x, y :: rest, k, each => by
    have shape : commas ((x :: y :: rest).map signs) ++ next =
        signs x ++ word .comma :: (commas ((y :: rest).map signs) ++ next) := List.append_assoc ..
    rw [shape]
    obtain ⟨goes, first⟩ := each x List.mem_cons_self k (word .comma :: (commas ((y :: rest).map signs) ++ next)) (.inl rfl)
    refine loop goes (.bind first fun same => .accepted (.bind (listing_reads item list stop loop noComma (k + 1) fun z member =>
      each z (List.mem_cons_of_mem x member)) fun others => .pure ?_))
    exact congrArg₂ List.cons same others

theorem mapList_eq (es : List (Expr γ)) : Expr.mapList forget es = es.map (Expr.map forget) := by
  induction es with
  | nil => rfl
  | cons e rest ih => exact congrArg (_ :: ·) ih

section

variable {wrap : Nat → Expr γ → Bool}

/-- The phrase of an expression that may have any form. -/
abbrev phrase (wrap : Nat → Expr γ → Bool) (e : Expr γ) : List Sign := parensIf (wrap 0 e) (e.layout wrap)

theorem listLayout_eq (es : List (Expr γ)) : Expr.listLayout wrap es = es.map (phrase wrap) := by
  induction es with
  | nil => rfl
  | cons e rest ih => exact congrArg (_ :: ·) ih

theorem indexList_reads {es : List (Expr γ)} (filled : es ≠ []) (each : ∀ e ∈ es, ReadsAt 0 e (phrase wrap e)) :
    Reads (commas (Expr.listLayout wrap es) ++ word .rightBracket :: next) indexList (word .rightBracket :: next)
      fun xs => Expr.mapList forget xs = Expr.mapList forget es := by
  obtain ⟨e, rest, rfl⟩ := List.exists_cons_of_ne_nil filled
  simp only [mapList_eq, listLayout_eq]
  refine listing_reads (fun _ => expr) (fun _ => indexList) (fun _ => false) (fun _ reads => .succ ?_) (ne_of_beq_false rfl) 0 fun x member k after ends =>
    ⟨rfl, ReadsAt.expr (each x member) (by rcases ends with ends | ends <;> rw [ends] <;> rfl)⟩
  simp only [indexList]
  exact .enter reads

theorem arguments_reads {es : List (Expr γ)} (each : ∀ e ∈ es, ReadsAt 0 e (phrase wrap e))
    (starts : ∀ e ∈ es, ∀ next, front (phrase wrap e ++ next) ≠ .rightParen) :
    Reads (commas (Expr.listLayout wrap es) ++ word .rightParen :: next) arguments (word .rightParen :: next)
      fun xs => Expr.mapList forget xs = Expr.mapList forget es := by
  simp only [mapList_eq, listLayout_eq]
  cases es with
  | nil =>
    refine .succ ?_
    simp only [arguments]
    exact .enter (.kind (.yes rfl (.pure rfl)))
  | cons e rest =>
    refine listing_reads (fun _ => expr) (fun _ => arguments) (· == .rightParen) (fun goes reads => .succ ?_) (ne_of_beq_false rfl) 0 fun x member k after ends =>
      ⟨beq_false_of_ne (starts x member after), ReadsAt.expr (each x member) (by rcases ends with ends | ends <;> rw [ends] <;> rfl)⟩
    exact .enter (.kind (.no (by simp [goes]) reads))

/-- Words that start an arm. -/
def startsArm (k : TokenKind) : Bool := k == .ifWord || k == .elsifWord

theorem valueArms_reads (closing : closes (front next) = true) (ends : startsArm (front next) = false) :
    ∀ {arms : List (CondValue γ)} {lead : TokenKind}, startsArm lead = true →
      (∀ arm ∈ arms, ReadsAt 0 arm.cond (phrase wrap arm.cond) ∧ ReadsAt 0 arm.value (phrase wrap arm.value)) →
      Reads (Expr.armLayout wrap lead arms ++ next) valueArms next
        fun xs => Expr.mapArms forget xs = Expr.mapArms forget arms
  | [], _, _, _ => by
    refine .succ ?_
    simp only [valueArms]
    exact .enter (.kind (.no (Bool.eq_false_iff.mp ends) (.pure rfl)))
  | .mk note test value :: rest, lead, starts, each => by
    obtain ⟨testReads, valueReads⟩ := each _ List.mem_cons_self
    have closed : closes (front (Expr.armLayout wrap .elsifWord rest ++ next)) = true := by
      cases rest with
      | nil => exact closing
      | cons arm rest =>
        cases arm
        rfl
    simp only [Expr.armLayout, List.cons_append, List.append_assoc]
    refine .succ ?_
    exact .enter (.kind (.yes starts (.position fun start => .bind .advance fun _ => .bind (testReads.expr rfl) fun tests =>
      .bind .expect fun _ => .bind (valueReads.expr closed) fun values => .spanFrom fun span =>
      .bind (valueArms_reads closing ends rfl fun arm member => each arm (List.mem_cons_of_mem _ member)) fun others =>
      .pure (congrArg₂ List.cons (congrArg₂ (CondValue.mk ()) tests values) others))))

/-! ## Every expression -/

theorem ReadsAt.index {note : γ} {x : Expr γ} {indexes : List (Expr γ)} {gs : List Sign} (operand : ReadsAt 7 x gs)
    (filled : indexes ≠ []) (each : ∀ e ∈ indexes, ReadsAt 0 e (phrase wrap e)) :
    ReadsAt 7 (.index note x indexes)
      (gs ++ word .leftBracket :: (commas (Expr.listLayout wrap indexes) ++ [word .rightBracket])) := by
  intro next after good stops goesOn
  rw [List.append_assoc, List.cons_append, List.append_assoc]
  refine operand _ _ _ rfl fun {start x'} same => .succ ?_
  exact .enter (.kind (.bind .advance fun _ => .bind (indexList_reads filled each) fun lists => .bind .expect fun _ =>
    .spanFrom fun span => goesOn (congrArg₂ (Expr.index ()) same lists)))

theorem ReadsAt.call {note : γ} {callee : Ident γ} {args : List (Expr γ)}
    (each : ∀ e ∈ args, ReadsAt 0 e (phrase wrap e))
    (starts : ∀ e ∈ args, ∀ next, front (phrase wrap e ++ next) ≠ .rightParen) :
    ReadsAt 7 (.call note callee args) (.name callee :: Sign.parens (commas (Expr.listLayout wrap args))) := by
  refine of_primary (fun _ => rfl) fun next _ => .succ ?_
  rw [List.cons_append, parens_append]
  refine .enter (.state fun s ahead => ?_)
  have kind : s.current.kind = .identifier := ahead.current_kind
  simp only [kind]
  exact .bind ident_reads fun names => .accepted (.bind (arguments_reads each starts) fun lists =>
    .bind .expect fun _ => .spanFrom fun span => .pure (congrArg₂ (Expr.call ()) names lists))

theorem ReadsAt.cond {note : γ} {arms : List (CondValue γ)} {otherwise : Expr γ} (filled : arms ≠ [])
    (each : ∀ arm ∈ arms, ReadsAt 0 arm.cond (phrase wrap arm.cond) ∧ ReadsAt 0 arm.value (phrase wrap arm.value))
    (last : ReadsAt 0 otherwise (phrase wrap otherwise)) :
    ReadsAt 7 (.cond note arms otherwise)
      (Expr.armLayout wrap .ifWord arms ++ word .elseWord :: (phrase wrap otherwise ++ [word .fiWord])) := by
  have starts (next : List Sign) : front (Expr.armLayout wrap .ifWord arms ++ next) = .ifWord := by
    obtain ⟨arm, rest, rfl⟩ := List.exists_cons_of_ne_nil filled
    cases arm
    rfl
  refine of_primary (fun next => ?_) fun next _ => .succ ?_
  · rw [List.append_assoc, starts]
    rfl
  rw [List.append_assoc, List.cons_append, List.append_assoc]
  refine .enter (.state fun s ahead => ?_)
  have kind : s.current.kind = .ifWord := ahead.current_kind.trans (starts _)
  simp only [kind]
  exact .bind (valueArms_reads rfl rfl rfl each) fun tests => .bind .expect fun _ => .bind (last.expr rfl) fun values =>
    .bind .expect fun _ => .spanFrom fun span => .pure (congrArg₂ (Expr.cond ()) tests values)

theorem front_parensIf {wanted : Bool} {gs : List Sign} (inner : ∀ next, front (gs ++ next) ≠ .rightParen)
    (next : List Sign) : front (parensIf wanted gs ++ next) ≠ .rightParen := by
  cases wanted with
  | false => exact inner next
  | true => exact ne_of_beq_false rfl

theorem front_layout : ∀ {e : Expr γ}, Writable e.nodes → ∀ next, front (e.layout wrap ++ next) ≠ .rightParen
  | .int .., _, _ | .char .., _, _ | .text .., _, _ | .ident _, _, _ | .call .., _, _ | .ref .., _, _ =>
    ne_of_beq_false rfl
  | .bool _ value, _, _ => by cases value <;> exact ne_of_beq_false rfl
  | .unary _ op _, _, _ => by cases op <;> exact ne_of_beq_false rfl
  | .binary _ _ x _, ok, _ => by
    rw [Expr.layout, List.append_assoc]
    exact front_parensIf (front_layout ok.tail.left) _
  | .cond _ arms _, ok, _ => by
    obtain ⟨⟨⟩, rest, rfl⟩ := List.exists_cons_of_ne_nil ok.head
    exact ne_of_beq_false rfl
  | .index _ x _, ok, _ => by
    rw [Expr.layout, List.append_assoc]
    exact front_parensIf (front_layout ok.tail.left) _
  | .deref _ x, ok, _ => by
    rw [Expr.layout, List.append_assoc]
    exact front_parensIf (front_layout ok.tail) _

theorem tier_le (e : Expr γ) : e.tier ≤ 7 := by
  cases e with
  | binary _ op _ _ => cases op <;> simp [Expr.tier, BinaryOp.tier]
  | _ => simp [Expr.tier]

variable (enough : ∀ n x, x.tier < n → wrap n x = true)

include enough

/-- Parentheses let an expression stand anywhere, and the tiers that need none may go without. -/
theorem ReadsAt.operand {e : Expr γ} (inside : n ≤ 7) (reads : ReadsAt e.tier e (e.layout wrap)) :
    ReadsAt n e (parensIf (wrap n e) (e.layout wrap)) := by
  cases wrapped : wrap n e with
  | true => exact (ReadsAt.parens (reads.mono (tier_le e) (Nat.zero_le _))).mono (Nat.le_refl 7) inside
  | false =>
    refine reads.mono (tier_le e) (Nat.not_lt.mp fun loose => ?_)
    rw [enough n e loose] at wrapped
    cases wrapped

mutual

/-- Every expression that can be printed is read at its tier. -/
theorem readsAt_layout : ∀ {e : Expr γ}, Writable e.nodes → ReadsAt e.tier e (e.layout wrap)
  | .int _ _, _ => .int
  | .bool _ _, _ => .bool
  | .char _ _, _ => .char
  | .text _ _, _ => .text
  | .ident _, _ => .ident
  | .unary _ _ _, ok => .unary (.operand enough (by decide) (readsAt_layout ok.tail))
  | .binary _ op _ _, ok => .binary (.operand enough (by cases op <;> decide) (readsAt_layout ok.tail.left))
    (.operand enough (by cases op <;> decide) (readsAt_layout ok.tail.right))
  | .cond _ _ _, ok => .cond ok.head (armsReadAt_layout ok.tail.left)
    (.operand enough (by decide) (readsAt_layout ok.tail.right))
  | .call _ _ _, ok => .call (fun e member => (listReadsAt_layout ok.tail.tail e member).1)
    fun e member => (listReadsAt_layout ok.tail.tail e member).2
  | .index _ _ _, ok => .index (.operand enough (by decide) (readsAt_layout ok.tail.left)) ok.head
    fun e member => (listReadsAt_layout ok.tail.right e member).1
  | .deref _ _, ok => .deref (.operand enough (by decide) (readsAt_layout ok.tail))
  | .ref _ _, ok => .ref (.operand enough (by decide) (readsAt_layout ok.tail))

theorem listReadsAt_layout : ∀ {es : List (Expr γ)}, Writable (Expr.listNodes es) → ∀ e ∈ es,
    ReadsAt 0 e (phrase wrap e) ∧ ∀ next, front (phrase wrap e ++ next) ≠ .rightParen
  | [], _, _, mem => nomatch mem
  | x :: rest, ok, e, mem => by
    cases mem with
    | head => exact ⟨.operand enough (by decide) (readsAt_layout ok.left), front_parensIf (front_layout ok.left)⟩
    | tail _ mem => exact listReadsAt_layout ok.right e mem

theorem armsReadAt_layout : ∀ {arms : List (CondValue γ)}, Writable (Expr.armNodes arms) → ∀ arm ∈ arms,
    ReadsAt 0 arm.cond (phrase wrap arm.cond) ∧ ReadsAt 0 arm.value (phrase wrap arm.value)
  | [], _, _, mem => nomatch mem
  | .mk _ test value :: rest, ok, arm, mem => by
    cases mem with
    | head => exact ⟨.operand enough (by decide) (readsAt_layout ok.tail.left.left),
      .operand enough (by decide) (readsAt_layout ok.tail.left.right)⟩
    | tail _ mem => exact armsReadAt_layout ok.tail.right arm mem

end

end

/-- An expression with parentheses around all its parts. -/
theorem signs_reads {e : Expr γ} (ok : Writable e.nodes) (closing : closes (front next) = true) :
    Reads (e.signs ++ next) expr next fun x => x.map forget = e.map forget := by
  rw [← e.layout_all]
  exact (ReadsAt.mono (tier_le e) (Nat.zero_le _) (readsAt_layout (fun _ _ _ => rfl) ok)).expr closing

theorem parens_reads {e : Expr γ} (ok : Writable e.nodes) (closing : closes (front next) = true) :
    Reads (parens e.signs ++ next) expr next fun x => x.map forget = e.map forget := by
  rw [← e.layout_all]
  have inner := ReadsAt.mono (tier_le e) (Nat.zero_le _) (readsAt_layout (fun _ _ _ => rfl) ok)
  exact (inner.parens.mono (Nat.le_refl 7) (Nat.zero_le _)).expr closing

end Parser

end LyaLang
