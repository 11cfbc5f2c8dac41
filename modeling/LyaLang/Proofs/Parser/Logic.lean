import Mathlib.Data.List.Forall2
import LyaLang.Proofs.Lexer
import LyaLang.Proofs.Parser.Parts
import LyaLang.Proofs.Tree.Blur
import LyaLang.Proofs.Tree.Nodes

/-! # What every production keeps

Three runs of a production are compared: on a state, on the same state with more fuel, and on a state over alike
tokens. More fuel changes nothing, and alike tokens give results that say the same. Along the way the productions
entered are paid for by the tokens passed, 24 for each, a failure leaves an error, and the tokens passed pay for the
nodes of the result, two for each. If no error was found, the names among them are the names of the result.
-/

namespace LyaLang

open Ast

variable {s : ParserState} {mid : Int} {cause cause' : ParseError.Cause} {wanted : TokenKind}

/-- Tokens that differ in place and spelling only. The text of a reserved word or an operator says no more than
its class. -/
structure Token.Alike (t u : Token) : Prop where
  kind : t.kind = u.kind
  literal : t.kind = .integer ∨ t.kind = .character ∨ t.kind = .text → t.text = u.text
  name : t.kind = .identifier → Text.toLower t.text = Text.toLower u.text

theorem Token.alike_iff {t u : Token} : t.Alike u ↔ t.kind = u.kind ∧
    (t.kind = .integer ∨ t.kind = .character ∨ t.kind = .text → t.text = u.text) ∧
    (t.kind = .identifier → Text.toLower t.text = Text.toLower u.text) :=
  ⟨fun same => ⟨same.kind, same.literal, same.name⟩, fun same => ⟨same.1, same.2.1, same.2.2⟩⟩

instance : DecidableRel Token.Alike := fun _ _ => decidable_of_iff _ Token.alike_iff.symm

theorem Token.Alike.refl (t : Token) : t.Alike t := ⟨rfl, fun _ => rfl, fun _ => rfl⟩

/-- Tokens other than names and the end of input. -/
def TokenKind.isMark (k : TokenKind) : Bool := k != .identifier && k != .endOfInput

theorem TokenKind.isMark_iff {k : TokenKind} : k.isMark = true ↔ k ≠ .identifier ∧ k ≠ .endOfInput := by
  simp [isMark]

/-! ## Names, in tokens and in nodes -/

/-- The name that a token is, with its place. -/
def Token.spelled (t : Token) : List (Bytes × Position) := if t.kind = .identifier then [(t.text, t.position)] else []

/-- The name that a node is, with the place where it starts. -/
def Ast.Node.spelled : Node Span → List (Bytes × Position)
  | .ident i => [(i.name, i.note.start)]
  | _ => []

/-- The names among nodes. -/
def namesOf (ns : List (Node Span)) : List (Bytes × Position) := ns.flatMap Node.spelled

@[simp] theorem namesOf_nil : namesOf [] = [] := rfl

@[simp] theorem namesOf_cons (n : Node Span) (ns : List (Node Span)) : namesOf (n :: ns) = n.spelled ++ namesOf ns := rfl

@[simp] theorem namesOf_append (ns ms : List (Node Span)) : namesOf (ns ++ ms) = namesOf ns ++ namesOf ms := by
  simp [namesOf]

theorem Token.spelled_other {t : Token} (other : t.kind ≠ .identifier) : t.spelled = namesOf [] := if_neg other

theorem Token.spelled_name {t : Token} {stop : Position} (isName : t.kind = .identifier) :
    t.spelled = namesOf [.ident ⟨⟨t.position, stop⟩, t.text⟩] := if_pos isName

/-- Nodes `ns` and `extra` more are paid for by nodes that were there and by a credit, and have the same names. -/
def Settles (had : List (Node Span)) (credit : Nat) (ns : List (Node Span)) (extra : Nat) : Prop :=
  namesOf had = namesOf ns ∧ weigh ns + extra ≤ weigh had + credit

namespace ParserState

/-- The tokens ahead end with the end of input. -/
def Terminated (s : ParserState) : Prop :=
  ∃ last, (s.peek :: s.rest).getLast? = some last ∧ last.kind = .endOfInput

/-- The tokens up to the end of input. -/
def untilEnd (ts : List Token) : List Token := ts.takeWhile fun token => token.kind != .endOfInput

/-- The number of tokens that are left before the end of input. -/
def left (s : ParserState) : Nat := (untilEnd (s.current :: s.peek :: s.rest)).length

/-- The names that are left. -/
def names (s : ParserState) : List (Bytes × Position) := (untilEnd (s.current :: s.peek :: s.rest)).flatMap Token.spelled

/-- The state with one more production entered. -/
def step (s : ParserState) : ParserState := { s with steps := s.steps + 1 }

/-- The productions entered, and 24 more for every token that is left. -/
def potential (s : ParserState) : Int := s.steps + 24 * s.left

/-- A state further on. -/
structure Onward (s s' : ParserState) : Prop where
  left : s'.left ≤ s.left
  steps : s.steps ≤ s'.steps
  errors : s.errors.length ≤ s'.errors.length

theorem Onward.refl (s : ParserState) : s.Onward s := ⟨Nat.le_refl _, Nat.le_refl _, Nat.le_refl _⟩

theorem Onward.trans {s' s'' : ParserState} (first : s.Onward s') (second : s'.Onward s'') : s.Onward s'' :=
  ⟨second.left.trans first.left, first.steps.trans second.steps, first.errors.trans second.errors⟩

/-- States over alike tokens with equally many errors. -/
structure Alike (s t : ParserState) : Prop where
  current : s.current.Alike t.current
  peek : s.peek.Alike t.peek
  rest : List.Forall₂ Token.Alike s.rest t.rest
  errors : s.errors.length = t.errors.length

theorem Alike.refl (s : ParserState) : s.Alike s :=
  ⟨.refl _, .refl _, List.forall₂_same.mpr fun t _ => .refl t, rfl⟩

theorem Alike.step {t : ParserState} (alike : s.Alike t) : s.step.Alike t.step :=
  ⟨alike.current, alike.peek, alike.rest, alike.errors⟩

theorem potential_step (s : ParserState) : s.step.potential = s.potential + 1 := by
  simp only [potential, left, step]
  omega

theorem left_eq_zero (ended : s.current.kind = .endOfInput) : s.left = 0 := by
  simp [left, untilEnd, ended]

theorem left_lt (s : ParserState) : s.left < s.rest.length + 3 :=
  Nat.lt_succ_of_le (List.takeWhile_sublist _).length_le

/-- Lexical errors are neither names nor the end of input. -/
theorem untilEnd_faults (ts : List Token) :
    (untilEnd (ts.dropWhile (·.kind == .lexicalError))).length ≤ (untilEnd ts).length ∧
      (untilEnd (ts.dropWhile (·.kind == .lexicalError))).flatMap Token.spelled = (untilEnd ts).flatMap Token.spelled := by
  induction ts with
  | nil => exact ⟨Nat.le_refl _, rfl⟩
  | cons t ts ih =>
    by_cases fault : t.kind = .lexicalError
    · have drop : (t :: ts).dropWhile (·.kind == .lexicalError) = ts.dropWhile (·.kind == .lexicalError) := by
        simp [fault]
      have take : untilEnd (t :: ts) = t :: untilEnd ts := by simp [untilEnd, fault]
      rw [drop, take]
      exact ⟨Nat.le_succ_of_le ih.1, by simp [ih.2, Token.spelled, fault]⟩
    · simp [fault]

/-- Moving on passes the lexical errors behind the next token. -/
theorem Terminated.advance (ends : s.Terminated) : s.advance.Terminated ∧
    s.errors.length ≤ s.advance.errors.length ∧ s.advance.steps = s.steps ∧ s.advance.current = s.peek ∧
    s.advance.left ≤ (untilEnd (s.peek :: s.rest)).length ∧
    s.advance.names = (untilEnd (s.peek :: s.rest)).flatMap Token.spelled ∧
    (s.rest ≠ [] → s.advance.peek :: s.advance.rest = s.rest.dropWhile (·.kind == .lexicalError)) := by
  obtain ⟨last, same, isLast⟩ := ends
  have parts := List.takeWhile_append_dropWhile (p := fun token : Token => token.kind == .lexicalError) (l := s.rest)
  have behind : s.rest.drop (s.rest.takeWhile (·.kind == .lexicalError)).length =
      s.rest.dropWhile (·.kind == .lexicalError) := by
    rw [← @List.drop_left _ (s.rest.takeWhile (·.kind == .lexicalError))
      (s.rest.dropWhile (·.kind == .lexicalError)), parts]
  have passed := untilEnd_faults s.rest
  unfold ParserState.advance
  dsimp only
  rw [behind]
  cases faults : s.rest.dropWhile (·.kind == .lexicalError) with
  | nil =>
    -- Lexical errors alone do not end with the end of input, so the token ahead is the end of input.
    have empty : s.rest = [] := by
      cases isRest : s.rest with
      | nil => rfl
      | cons token rest =>
        rw [isRest] at same
        have fault := List.dropWhile_eq_nil_iff.mp faults last (isRest ▸ List.mem_of_getLast? same)
        rw [isLast] at fault
        cases fault
    rw [empty, List.getLast?_singleton, Option.some.injEq] at same
    subst same
    refine ⟨⟨s.peek, rfl, isLast⟩, by simp, rfl, rfl, ?_, ?_, absurd empty⟩
    · simp [left, untilEnd, isLast]
    · simp [names, untilEnd, isLast]
  | cons token rest =>
    rw [faults] at parts passed
    refine ⟨⟨last, ?_, isLast⟩, by simp, rfl, rfl, ?_, ?_, fun _ => rfl⟩
    · rw [← parts, ← List.cons_append, List.getLast?_append, List.getLast?_cons] at same
      rw [List.getLast?_cons]
      exact same
    all_goals
      by_cases ended : s.peek.kind = .endOfInput
      · simp [left, names, untilEnd, ended]
      · have kept (ts : List Token) : untilEnd (s.peek :: ts) = s.peek :: untilEnd ts := by simp [untilEnd, ended]
        simp [left, names, kept, passed]

/-- Moving on from a token leaves one token less, and the names but for its own. -/
theorem left_advance (ends : s.Terminated) (more : s.current.kind ≠ .endOfInput) :
    s.advance.left + 1 ≤ s.left ∧ s.names = s.current.spelled ++ s.advance.names := by
  obtain ⟨_, _, _, _, fewer, same, _⟩ := ends.advance
  have kept : untilEnd (s.current :: s.peek :: s.rest) = s.current :: untilEnd (s.peek :: s.rest) := by
    simp [untilEnd, more]
  refine ⟨?_, by rw [names, kept, List.flatMap_cons, same]⟩
  change _ ≤ (untilEnd (s.current :: s.peek :: s.rest)).length
  rw [kept]
  exact Nat.succ_le_succ fewer

/-- Alike tokens start with equally many lexical errors. -/
theorem faults_alike {ts us : List Token} (same : List.Forall₂ Token.Alike ts us) :
    (ts.takeWhile (·.kind == .lexicalError)).length = (us.takeWhile (·.kind == .lexicalError)).length := by
  induction same with
  | nil => rfl
  | cons first _ ih =>
    rw [List.takeWhile_cons, List.takeWhile_cons, first.kind]
    split
    · exact congrArg (· + 1) ih
    · rfl

/-- Moving on keeps states alike. -/
theorem Alike.advance {t : ParserState} (alike : s.Alike t) : s.advance.Alike t.advance := by
  have faults := faults_alike alike.rest
  have behind := List.forall₂_drop (t.rest.takeWhile (·.kind == .lexicalError)).length alike.rest
  unfold ParserState.advance
  dsimp only
  rw [faults]
  generalize s.rest.drop _ = ts at behind
  generalize t.rest.drop _ = us at behind
  cases behind with
  | nil => exact ⟨alike.peek, alike.peek, .nil, by simp [alike.errors, faults]⟩
  | cons first rest => exact ⟨alike.peek, first, rest, by simp [alike.errors, faults]⟩

end ParserState

namespace Parser

variable {α β γ δ : Type} {s t : ParserState} {top φ low : Int} {deep : Nat} {had : List (Node Span)} {credit : Nat}
  {p q r : Parser α} {view : α → γ} {view' : β → δ} {parts : α → List (Node Span)} {parts' : β → List (Node Span)}
  {extra : α → Nat} {extra' : β → Nat}

/-- What a run from `s` gives, compared with a run over alike tokens. A failure leaves an error; a success stays
below `low`, and its result is paid for. -/
structure Outcome (top low : Int) (s : ParserState) (had : List (Node Span)) (credit : Nat)
    (out out' : Option α × ParserState) (view : α → γ) (parts : α → List (Node Span)) (extra : α → Nat) : Prop where
  ends : out.2.Terminated
  alike : out.2.Alike out'.2
  views : out.1.map view = out'.1.map view
  onward : s.Onward out.2
  below : out.2.potential ≤ top
  fails : out.1 = none → s.errors.length < out.2.errors.length
  gives : ∀ a, out.1 = some a → out.2.potential ≤ low ∧
    weigh (parts a) + extra a + 2 * out.2.left ≤ weigh had + credit + 2 * s.left ∧
    (out.2.errors.length = s.errors.length → namesOf had ++ s.names = namesOf (parts a) ++ out.2.names)

/-- A run that starts behind an error. -/
theorem Outcome.behind {s₀ : ParserState} {out out' : Option α × ParserState}
    (outcome : Outcome top low s had credit out out' view parts extra) (onward : s₀.Onward s)
    (grown : s₀.errors.length < s.errors.length) : Outcome top low s₀ had credit out out' view parts extra := by
  have errors := outcome.onward.errors
  refine { outcome with onward := onward.trans outcome.onward, fails := fun _ => by omega, gives := fun a isResult => ?_ }
  obtain ⟨less, worth, _⟩ := outcome.gives a isResult
  have fewer := onward.left
  exact ⟨less, by omega, fun quiet => absurd quiet (by omega)⟩

/-- Three runs from states whose potential is at most `φ` and `top`: `p` with fuel for `deep` more productions, `q`
with more fuel, and `r` over alike tokens. -/
def Spec (top : Int) (deep : Nat) (φ low : Int) (s t : ParserState) (had : List (Node Span)) (credit : Nat)
    (p q r : Parser α) (view : α → γ) (parts : α → List (Node Span)) (extra : α → Nat) : Prop :=
  s.Terminated → s.Alike t → s.potential ≤ φ → s.potential ≤ top → top ≤ deep + s.steps →
    q s = p s ∧ Outcome top low s had credit (p s) (r t) view parts extra

namespace Spec

theorem pure {a b : α} (same : view a = view b) (paid : φ ≤ low) (settles : Settles had credit (parts a) (extra a)) :
    Spec top deep φ low s t had credit (pure a) (pure a) (pure b) view parts extra := by
  intro ends alike less below _
  refine ⟨rfl, ends, alike, congrArg some same, .refl s, below, nofun, fun a' isResult => ?_⟩
  cases isResult
  exact ⟨less.trans paid, Nat.add_le_add_right settles.2 _, fun _ => congrArg (· ++ s.names) settles.1⟩

/-- What is there and the room for it may be counted in another way. -/
theorem more {had' : List (Node Span)} {credit' : Nat} {low' : Int}
    (spec : Spec top deep φ low s t had credit p q r view parts extra) (paid : low ≤ low')
    (settles : Settles had' credit' had credit) : Spec top deep φ low' s t had' credit' p q r view parts extra := by
  intro ends alike less below deeper
  obtain ⟨more, out⟩ := spec ends alike less below deeper
  refine ⟨more, { out with gives := fun a isResult => ?_ }⟩
  obtain ⟨less', worth, same⟩ := out.gives a isResult
  exact ⟨less'.trans paid, worth.trans (Nat.add_le_add_right settles.2 _), fun quiet => settles.1 ▸ same quiet⟩

theorem deepen {deep' : Nat} (spec : Spec top deep' φ low s t had credit p q r view parts extra) (more : deep ≤ deep') :
    Spec top deep φ low s t had credit p q r view parts extra :=
  fun ends alike less below deeper => spec ends alike less below (by omega)

/-- A second parser starts where a first one stopped, and has its result. -/
theorem seq {a b : α} {s' t' : ParserState} {f g h : Parser β}
    (first : Outcome top mid s [] 0 (some a, s') (some b, t') view parts extra) (deeper : top ≤ deep + s.steps)
    (second : Spec top deep mid low s' t' (had ++ parts a) (credit + extra a) f g h view' parts' extra') :
    g s' = f s' ∧ Outcome top low s had credit (f s') (h t') view' parts' extra' := by
  obtain ⟨less, worth, same⟩ := first.gives a rfl
  have onward := first.onward
  obtain ⟨more, out⟩ := second first.ends first.alike less first.below (by have := onward.steps; dsimp only at this; omega)
  refine ⟨more, out.ends, out.alike, out.views, onward.trans out.onward, out.below,
    fun isNone => Nat.lt_of_le_of_lt onward.errors (out.fails isNone), fun c isResult => ?_⟩
  obtain ⟨less', worth', same'⟩ := out.gives c isResult
  have errors := onward.errors
  have errors' := out.onward.errors
  dsimp only at worth worth' same errors errors' ⊢
  rw [weigh_append] at worth'
  refine ⟨less', by rw [weigh_nil] at worth; omega, fun quiet => ?_⟩
  have names' := same' (by omega)
  rw [namesOf_append, List.append_assoc, ← same (by omega)] at names'
  exact names'

theorem bind {f g h : α → Parser β} (first : Spec top deep φ mid s t [] 0 p q r view parts extra)
    (second : ∀ {a b s' t'}, view a = view b →
      Spec top deep mid low s' t' (had ++ parts a) (credit + extra a) (f a) (g a) (h b) view' parts' extra') :
    Spec top deep φ low s t had credit (p >>= f) (q >>= g) (r >>= h) view' parts' extra' := by
  intro ends alike less below deeper
  obtain ⟨more, out⟩ := first ends alike less below deeper
  simp only [Bind.bind, more]
  cases left : p s with
  | mk a? s' =>
    cases right : r t with
    | mk b? t' =>
      rw [left, right] at out
      cases a? with
      | none =>
        cases b? with
        | some b => cases out.views
        | none => exact ⟨rfl, out.ends, out.alike, rfl, out.onward, out.below, fun _ => out.fails rfl, nofun⟩
      | some a =>
        cases b? with
        | none => cases out.views
        | some b => exact seq out deeper (second (Option.some.inj out.views))

theorem pure_bind {a b : α} {f g h : α → Parser β}
    (next : Spec top deep φ low s t had credit (f a) (g a) (h b) view' parts' extra') :
    Spec top deep φ low s t had credit (Pure.pure a >>= f) (Pure.pure a >>= g) (Pure.pure b >>= h) view' parts' extra' :=
  next

theorem map {f : α → β} (first : Spec top deep φ low s t [] 0 p q r view parts extra)
    (images : ∀ {a b}, view a = view b → view' (f a) = view' (f b))
    (settles : ∀ a, Settles (parts a) (extra a) (parts' (f a)) (extra' (f a))) :
    Spec top deep φ low s t [] 0 (f <$> p) (f <$> q) (f <$> r) view' parts' extra' := by
  refine bind first fun {a _ _ _} same => pure (images same) le_rfl ?_
  rw [Nat.zero_add]
  exact settles a

theorem ite {p' q' r' : Parser α} {c : Prop} [Decidable c]
    (yes : c → Spec top deep φ low s t had credit p q r view parts extra)
    (no : ¬c → Spec top deep φ low s t had credit p' q' r' view parts extra) :
    Spec top deep φ low s t had credit (if c then p else p') (if c then q else q') (if c then r else r') view parts extra := by
  split
  · exact yes ‹_›
  · exact no ‹_›

/-- Two ways to a result that the same parser goes on with. -/
theorem join {p' q' r' : Parser α} {c : Prop} [Decidable c] {f g h : α → Parser β}
    (yes : c → Spec top deep φ mid s t [] 0 p q r view parts extra)
    (no : ¬c → Spec top deep φ mid s t [] 0 p' q' r' view parts extra)
    (second : ∀ {a b s' t'}, view a = view b →
      Spec top deep mid low s' t' (had ++ parts a) (credit + extra a) (f a) (g a) (h b) view' parts' extra') :
    Spec top deep φ low s t had credit (if c then p >>= f else p' >>= f) (if c then q >>= g else q' >>= g)
      (if c then r >>= h else r' >>= h) view' parts' extra' :=
  ite (fun holds => bind (yes holds) second) fun fails => bind (no fails) second

/-! ## Looking at tokens and passing them -/

/-- Out of fuel there is no potential left, so this does not happen. -/
theorem exhausted (more : φ < top) : Spec top 0 φ low s t had credit p q r view parts extra := by
  intro _ _ less _ deeper
  unfold ParserState.potential at less
  omega

theorem enter {f g h : Unit → Parser α} (more : φ < top)
    (next : Spec top deep (φ + 1) low s.step t.step had credit (f ()) (g ()) (h ()) view parts extra) :
    Spec top (deep + 1) φ low s t had credit (enter >>= f) (Parser.enter >>= g) (Parser.enter >>= h) view parts extra := by
  intro ends alike less below deeper
  have grown := s.potential_step
  have steps : s.step.steps = s.steps + 1 := rfl
  obtain ⟨more, out⟩ := next ends alike.step (by omega) (by omega) (by omega)
  exact ⟨more, out.ends, out.alike, out.views, ⟨out.onward.left, Nat.le_of_succ_le out.onward.steps, out.onward.errors⟩,
    out.below, out.fails, out.gives⟩

/-- The class of the current token is the same on both sides. -/
theorem kind {f g h : TokenKind → Parser α}
    (next : ∀ k, s.current.kind = k → Spec top deep φ low s t had credit (f k) (g k) (h k) view parts extra) :
    Spec top deep φ low s t had credit (kind >>= f) (Parser.kind >>= g) (Parser.kind >>= h) view parts extra := by
  intro ends alike less below deeper
  have run : (Parser.kind >>= h) t = h s.current.kind t := congrArg (h · t) alike.current.kind.symm
  rw [run]
  exact next _ rfl ends alike less below deeper

theorem state {f g h : ParserState → Parser α}
    (next : s.Alike t → Spec top deep φ low s t had credit (f s) (g s) (h t) view parts extra) :
    Spec top deep φ low s t had credit (state >>= f) (Parser.state >>= g) (Parser.state >>= h) view parts extra :=
  fun ends alike => next alike ends alike

theorem position {f g h : Position → Parser α}
    (next : ∀ start start', Spec top deep φ low s t had credit (f start) (g start) (h start') view parts extra) :
    Spec top deep φ low s t had credit (position >>= f) (Parser.position >>= g) (Parser.position >>= h) view parts extra :=
  next _ _

theorem spanFrom {start start' : Position} {f g h : Span → Parser α}
    (next : ∀ span span', Spec top deep φ low s t had credit (f span) (g span) (h span') view parts extra) :
    Spec top deep φ low s t had credit (spanFrom start >>= f) (Parser.spanFrom start >>= g) (Parser.spanFrom start' >>= h)
      view parts extra :=
  next _ _

/-- Passing a token pays two for nodes and 24 for productions. -/
theorem advanceThen {ns : List (Node Span)} {n : Nat} {f g h : Unit → Parser α} (more : s.current.kind ≠ .endOfInput)
    (named : s.current.spelled = namesOf ns) (paid : weigh ns + n ≤ 2)
    (next : ∀ {s' t'}, s'.current = s.peek →
      Spec top deep (φ - 24) low s' t' (had ++ ns) (credit + n) (f ()) (g ()) (h ()) view parts extra) :
    Spec top deep φ low s t had credit (advance >>= f) (advance >>= g) (advance >>= h) view parts extra := by
  intro ends alike less below deeper
  obtain ⟨ends', errors, steps, isNext, -⟩ := ends.advance
  obtain ⟨fewer, names⟩ := ParserState.left_advance ends more
  have lower : s.advance.potential + 24 ≤ s.potential := by
    unfold ParserState.potential
    omega
  have out : Outcome top (φ - 24) s [] 0 (some (), s.advance) (some (), t.advance) id (fun _ => ns) fun _ => n := by
    refine ⟨ends', alike.advance, rfl, ⟨Nat.le_of_succ_le fewer, Nat.le_of_eq steps.symm, errors⟩, ?_, nofun, fun _ _ => ?_⟩
    · dsimp only
      omega
    · exact ⟨by dsimp only; omega, by dsimp only; omega, fun _ => by rw [names, named]; rfl⟩
  have both := seq out deeper (next isNext)
  exact both

theorem advance (mark : s.current.kind.isMark = true) :
    Spec top deep φ (φ - 24) s t [] 0 advance advance advance id (fun _ => []) fun _ => 2 := by
  obtain ⟨notName, more⟩ := TokenKind.isMark_iff.mp mark
  exact advanceThen (n := 2) more (Token.spelled_other notName) le_rfl fun _ => pure rfl le_rfl ⟨rfl, le_rfl⟩

theorem report :
    Spec top deep φ φ s t [] 0 (report cause) (Parser.report cause) (Parser.report cause') id (fun _ => []) fun _ => 0 := by
  intro ends alike less below _
  refine ⟨rfl, ends, ⟨alike.current, alike.peek, alike.rest, ?_⟩, rfl, ⟨Nat.le_refl _, Nat.le_refl _, ?_⟩, below, nofun,
    fun _ _ => ⟨less, Nat.le_refl _, fun quiet => ?_⟩⟩
  · change (s.errors ++ [_]).length = (t.errors ++ [_]).length
    simp [alike.errors]
  · change s.errors.length ≤ (s.errors ++ [_]).length
    simp
  · change (s.errors ++ [_]).length = s.errors.length at quiet
    simp at quiet

/-- A failure after an error. -/
theorem fault :
    Spec top deep φ low s t had credit (Parser.report cause >>= fun _ => fail) (Parser.report cause >>= fun _ => fail)
      (Parser.report cause' >>= fun _ => fail) view parts extra := by
  intro ends alike less below deeper
  have reported : Spec top deep φ φ s t [] 0 (Parser.report cause) (Parser.report cause) (Parser.report cause') id
    (fun _ => []) fun _ => 0 := report
  obtain ⟨_, out⟩ := reported ends alike less below deeper
  refine ⟨rfl, out.ends, out.alike, rfl, out.onward, out.below, fun _ => ?_, nofun⟩
  change s.errors.length < (s.errors ++ [_]).length
  simp

theorem failWith :
    Spec top deep φ low s t had credit (failWith cause) (Parser.failWith cause) (Parser.failWith cause') view parts extra :=
  fault

theorem expected {what : String} :
    Spec top deep φ low s t had credit (reportExpected what >>= fun _ => fail) (Parser.reportExpected what >>= fun _ => fail)
      (Parser.reportExpected what >>= fun _ => fail) view parts extra :=
  fault

theorem expect (mark : wanted.isMark = true) :
    Spec top deep φ (φ - 24) s t [] 0 (expect wanted) (Parser.expect wanted) (Parser.expect wanted) id (fun _ => [])
      fun _ => 2 := by
  refine kind fun k isKind => ite (fun found => advance ?_) fun _ => expected
  rw [isKind, beq_iff_eq.mp found]
  exact mark

/-- A token that is passed if it is there. -/
theorem accept {f g h : Bool → Parser α} (mark : wanted.isMark = true)
    (yes : ∀ {s' t'}, Spec top deep (φ - 24) low s' t' had (credit + 2) (f true) (g true) (h true) view parts extra)
    (no : Spec top deep φ low s t had credit (f false) (g false) (h false) view parts extra) :
    Spec top deep φ low s t had credit (accept wanted >>= f) (Parser.accept wanted >>= g) (Parser.accept wanted >>= h) view
      parts extra := by
  unfold Parser.accept
  rw [bind_assoc, bind_assoc, bind_assoc]
  refine kind fun k isKind => ?_
  by_cases found : (k == wanted) = true
  · rw [if_pos found, bind_assoc, bind_assoc, bind_assoc]
    refine bind (advance ?_) fun _ => ?_
    · rw [isKind, beq_iff_eq.mp found]
      exact mark
    · rw [List.append_nil]
      exact yes
  · rw [if_neg found]
    exact no

/-- A token that may be passed, where what it pays for is not needed. -/
theorem passing {f g h : Bool → Parser α} (mark : wanted.isMark = true)
    (next : ∀ {s' t'} found, Spec top deep φ low s' t' had credit (f found) (g found) (h found) view parts extra) :
    Spec top deep φ low s t had credit (Parser.accept wanted >>= f) (Parser.accept wanted >>= g) (Parser.accept wanted >>= h)
      view parts extra := by
  refine accept mark (fun {s' t'} ends alike less => ?_) (next false)
  exact more (next true) le_rfl ⟨rfl, Nat.add_le_add_left (Nat.le_add_right _ _) _⟩ ends alike (by omega)

/-- A name, and the token behind it. -/
theorem identThen {f g h : Ident Span → Parser α}
    (next : ∀ {a b s' t'}, s'.current = s.peek → Ident.blur (fun _ => ()) a = Ident.blur (fun _ => ()) b →
      Spec top deep (φ - 24) low s' t' (had ++ [.ident a]) credit (f a) (g a) (h b) view parts extra) :
    Spec top deep φ low s t had credit (ident >>= f) (ident >>= g) (ident >>= h) view parts extra := by
  unfold Parser.ident
  rw [bind_assoc, bind_assoc, bind_assoc]
  refine state fun alike => ?_
  rw [← alike.current.kind]
  by_cases isName : s.current.kind = .identifier
  · rw [if_pos (beq_iff_eq.mpr isName), if_pos (beq_iff_eq.mpr isName), bind_assoc, bind_assoc, bind_assoc]
    refine advanceThen (n := 0) (isName ▸ ne_of_beq_false rfl) (Token.spelled_name isName) le_rfl fun isNext =>
      pure_bind (next isNext ?_)
    exact congrArg (Ident.mk ()) (alike.current.name isName)
  · have other : ¬(s.current.kind == .identifier) = true := fun found => isName (beq_iff_eq.mp found)
    rw [if_neg other, if_neg other]
    exact expected

theorem ident : Spec top deep φ (φ - 24) s t [] 0 ident Parser.ident Parser.ident (Ident.blur fun _ => ())
    (fun id => [.ident id]) fun _ => 0 := by
  rw [← bind_pure Parser.ident]
  exact identThen fun _ same => pure same le_rfl ⟨rfl, le_rfl⟩

/-! ## Recovering -/

/-- Skipping goes past a semicolon or up to the end of input, and passes a token unless it starts there. -/
theorem skipStatement (fuel : Nat) (enough : s.left < fuel) (ends : s.Terminated) (alike : s.Alike t) :
    ∃ s' t', skipStatement fuel s = (some (), s') ∧ Parser.skipStatement fuel t = (some (), t') ∧ s'.Terminated ∧
      s'.Alike t' ∧ s.Onward s' ∧ (s'.current.kind = .endOfInput ∧ s'.potential ≤ s.potential + 1 ∨
        s'.potential ≤ s.potential - 22) := by
  induction fuel generalizing s t with
  | zero => exact absurd enough (Nat.not_lt_zero _)
  | succ fuel ih =>
    have same := alike.current.kind
    have stepped : s.Onward s.step := ⟨Nat.le_refl _, Nat.le_succ _, Nat.le_refl _⟩
    by_cases ended : s.current.kind = .endOfInput
    · refine ⟨s.step, t.step, ?_, ?_, ends, alike.step, stepped, .inl ⟨ended, s.potential_step.le⟩⟩
      · simp [Parser.skipStatement, Bind.bind, Parser.enter, Parser.kind, ended, Pure.pure, ParserState.step]
      · simp [Parser.skipStatement, Bind.bind, Parser.enter, Parser.kind, same ▸ ended, Pure.pure, ParserState.step]
    obtain ⟨ends', errors, steps, -⟩ := ParserState.Terminated.advance (s := s.step) ends
    obtain ⟨fewer, -⟩ := ParserState.left_advance (s := s.step) ends ended
    have onward : s.Onward s.step.advance :=
      stepped.trans ⟨Nat.le_of_succ_le fewer, Nat.le_of_eq steps.symm, errors⟩
    have lower : s.step.advance.potential ≤ s.potential - 23 := by
      have := s.potential_step
      unfold ParserState.potential at this ⊢
      omega
    by_cases last : s.current.kind = .semicolon
    · refine ⟨s.step.advance, t.step.advance, ?_, ?_, ends', alike.step.advance, onward, .inr (by omega)⟩
      · simp [Parser.skipStatement, Bind.bind, Parser.enter, Parser.kind, last, Parser.advance, ParserState.step]
      · simp [Parser.skipStatement, Bind.bind, Parser.enter, Parser.kind, same ▸ last, Parser.advance, ParserState.step]
    · have next (u : ParserState) (notEnd : u.current.kind ≠ .endOfInput) (notLast : u.current.kind ≠ .semicolon) :
          Parser.skipStatement (fuel + 1) u = Parser.skipStatement fuel u.step.advance := by
        simp only [Parser.skipStatement, Bind.bind, Parser.enter, Parser.kind]
        rfl
      obtain ⟨s', t', runs, runs', others, alike', onward', lower'⟩ :=
        ih (show s.step.advance.left < fuel by have : s.step.left = s.left := rfl; omega) ends' alike.step.advance
      refine ⟨s', t', (next s ended last).trans runs, (next t (same ▸ ended) (same ▸ last)).trans runs', others, alike',
        onward.trans onward', .inr ?_⟩
      rcases lower' with ⟨_, lower'⟩ | lower' <;> omega

/-- After a failure the reader goes on at the end of input or behind a token. -/
theorem recovered {top' : Int} {f g h : Option α → Parser β} (first : Spec top' deep φ mid s t [] 0 p q r view parts extra)
    (room : φ ≤ top') (within : top' + 1 ≤ top)
    (gave : ∀ {a b s' t'}, view a = view b →
      Spec top deep mid low s' t' (had ++ parts a) (credit + extra a) (f (some a)) (g (some a)) (h (some b)) view' parts' extra')
    (ended : ∀ {s' t'}, s'.current.kind = .endOfInput →
      Spec top deep (top' + 1) low s' t' had credit (f none) (g none) (h none) view' parts' extra')
    (passed : ∀ {s' t'}, Spec top deep (top' - 22) low s' t' had credit (f none) (g none) (h none) view' parts' extra') :
    Spec top deep φ low s t had credit (recovered p >>= f) (Parser.recovered q >>= g) (Parser.recovered r >>= h) view' parts'
      extra' := by
  intro ends alike less below deeper
  obtain ⟨more, out⟩ := first ends alike less (less.trans room) (by omega)
  cases left : p s with
  | mk a? s' =>
    cases right : r t with
    | mk b? t' =>
      rw [left, right] at out
      cases a? with
      | some a =>
        cases b? with
        | none => cases out.views
        | some b =>
          simp only [Bind.bind, recovered_of_some left, recovered_of_some right, recovered_of_some (more.trans left)]
          have widened : Outcome top mid s [] 0 (some a, s') (some b, t') view parts extra :=
            { out with below := by have := out.below; omega }
          exact seq widened deeper (gave (Option.some.inj out.views))
      | none =>
        cases b? with
        | some b => cases out.views
        | none =>
          -- There is an error on both sides, so both skip.
          have grown := out.fails rfl
          obtain ⟨s'', t'', skips, skips', ends', alike', onward', lower⟩ :=
            skipStatement (s'.rest.length + 3) s'.left_lt out.ends out.alike
          rw [out.alike.rest.length_eq] at skips'
          have grown' : t.errors.length < t'.errors.length := alike.errors ▸ out.alike.errors ▸ grown
          simp only [Bind.bind, recovered_of_none left grown skips, recovered_of_none (more.trans left) grown skips,
            recovered_of_none right grown' skips']
          have onward := out.onward.trans onward'
          have errors : s.errors.length < s''.errors.length := Nat.lt_of_lt_of_le grown onward'.errors
          have below := out.below
          have steps := onward.steps
          dsimp only at below
          rcases lower with ⟨atEnd, lower⟩ | lower
          · obtain ⟨more, out⟩ := ended atEnd ends' alike' (by omega) (by omega) (by omega)
            exact ⟨more, out.behind onward errors⟩
          · obtain ⟨more, out⟩ := passed ends' alike' (by omega) (by omega) (by omega)
            exact ⟨more, out.behind onward errors⟩

end Spec
end Parser
end LyaLang
