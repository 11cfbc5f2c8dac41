import LyaLang.Proofs.Names

/-! # Where a name is defined

The check of a text, whether it finds issues or not, gives every name that it resolves a symbol that is predefined
or that one name before it declares. So from any occurrence of a symbol an editor finds the one name that declares
it, and all the others.
-/

namespace LyaLang

open Ast

/-! ## Names that were tracked -/

namespace Ast

/-- The names among some nodes. -/
def identsOf {α : Type} (ns : List (Node α)) : List (Ident α) :=
  ns.filterMap fun
    | .ident i => some i
    | _ => none

namespace Tracks

variable {known known' : List Symbol} {ns : List (Node Note)} {x y : Symbol} {i : Ident Note}

/-- A new symbol has a serial number of its own. -/
theorem distinct (tracks : Tracks known ns known') (distinct : Set.InjOn Symbol.serial {x | x ∈ known}) :
    Set.InjOn Symbol.serial {x | x ∈ known'} := by
  induction ns generalizing known with
  | nil =>
    cases tracks
    exact distinct
  | cons n ns ih =>
    cases n with
    | ident i =>
      obtain ⟨between, adds, tracks⟩ := tracks
      refine ih tracks ?_
      cases adds with
      | @declares x _ _ _ fresh =>
        intro y member z member' same
        rcases List.mem_cons.mp member with rfl | before <;> rcases List.mem_cons.mp member' with rfl | before'
        · rfl
        · exact absurd same.symm (fresh z before')
        · exact absurd same (fresh y before)
        · exact distinct before before' same
      | _ => exact distinct
    | _ => exact ih tracks distinct

/-- What a name denotes is known in the end, under the key of the name. -/
theorem denoted (tracks : Tracks known ns known') (inside : i ∈ identsOf ns) (isSymbol : i.note.symbol = some x) :
    x ∈ known' ∧ Scope.keyOf x.name = Scope.keyOf i.name := by
  induction ns generalizing known with
  | nil => cases inside
  | cons n ns ih =>
    cases n with
    | ident j =>
      obtain ⟨between, adds, tracks⟩ := tracks
      rcases List.mem_cons.mp inside with rfl | inside
      · cases adds with
        | nothing unknown => cases unknown.symm.trans isSymbol
        | declares isSymbol' _ key =>
          obtain rfl := Option.mem_unique isSymbol' isSymbol
          exact ⟨tracks.subset List.mem_cons_self, key⟩
        | uses isSymbol' _ key member =>
          obtain rfl := Option.mem_unique isSymbol' isSymbol
          exact ⟨tracks.subset member, key⟩
      · exact ih tracks inside
    | _ => exact ih tracks inside

/-- A symbol known before is not declared again. -/
theorem not_declared (tracks : Tracks known ns known') (before : x ∈ known) (inside : i ∈ identsOf ns)
    (denotes : Editor.Document.denotes x i = true) : i.note.usage ≠ some .declaration := by
  induction ns generalizing known with
  | nil => cases inside
  | cons n ns ih =>
    cases n with
    | ident j =>
      obtain ⟨between, adds, tracks⟩ := tracks
      rcases List.mem_cons.mp inside with rfl | inside
      · cases adds with
        | nothing unknown =>
          rw [Editor.Document.denotes, unknown] at denotes
          cases denotes
        | declares isSymbol _ _ fresh =>
          rw [Editor.Document.denotes, isSymbol] at denotes
          exact absurd (beq_iff_eq.mp denotes).symm (fresh x before)
        | uses _ usage => exact usage
      · exact ih tracks (adds.subset before) inside
    | _ => exact ih tracks before inside

/-- A symbol that the names add is declared by the first name that denotes it, and by no other. -/
theorem declared_once (tracks : Tracks known ns known') (distinct : Set.InjOn Symbol.serial {x | x ∈ known'})
    (after : x ∈ known') (new : x ∉ known) :
    ∃ j others, (identsOf ns).filter (Editor.Document.denotes x) = j :: others ∧ j.note.symbol = some x ∧
      j.note.usage = some .declaration ∧ ∀ k ∈ others, k.note.usage ≠ some .declaration := by
  induction ns generalizing known with
  | nil =>
    cases tracks
    exact absurd after new
  | cons n ns ih =>
    cases n with
    | ident i =>
      obtain ⟨between, adds, tracks⟩ := tracks
      -- a name that denotes another symbol is passed over
      have skip : Editor.Document.denotes x i = false → (identsOf (.ident i :: ns)).filter (Editor.Document.denotes x) =
          (identsOf ns).filter (Editor.Document.denotes x) := fun other =>
        List.filter_cons_of_neg (by rw [other]; exact Bool.false_ne_true)
      have other : ∀ {y}, i.note.symbol = some y → y ∈ known' → y ≠ x → Editor.Document.denotes x i = false := by
        intro y isSymbol member differs
        rw [Editor.Document.denotes, isSymbol]
        exact beq_false_of_ne fun same => differs (distinct member after same)
      cases adds with
      | nothing unknown =>
        rw [skip (by rw [Editor.Document.denotes, unknown]; rfl)]
        exact ih tracks new
      | @declares y isSymbol usage _ fresh =>
        by_cases same : y = x
        · subst same
          refine ⟨i, (identsOf ns).filter (Editor.Document.denotes y), List.filter_cons_of_pos ?_, isSymbol, usage, ?_⟩
          · rw [Editor.Document.denotes, isSymbol]
            exact beq_self_eq_true _
          · intro k member
            obtain ⟨inside, denotes⟩ := List.mem_filter.mp member
            exact tracks.not_declared List.mem_cons_self inside denotes
        · rw [skip (other isSymbol (tracks.subset List.mem_cons_self) same)]
          refine ih tracks fun member => ?_
          rcases List.mem_cons.mp member with rfl | member
          · exact same rfl
          · exact new member
      | uses isSymbol _ _ member =>
        rw [skip (other isSymbol (tracks.subset member) fun same => new (same ▸ member))]
        exact ih tracks new
    | _ => exact ih tracks new

end Tracks

end Ast

/-! ## Documents -/

theorem predefinedSymbols_distinct : Set.InjOn Symbol.serial {x | x ∈ predefinedSymbols} := by
  have distinct : ∀ x ∈ predefinedSymbols, ∀ y ∈ predefinedSymbols, x.serial = y.serial → x = y := by decide +kernel
  exact fun x member y member' => distinct x member y member'

theorem knows_fresh (nextLabel : Int64) :
    Check.Knows { context := { Context.fresh with nextLabel } } predefinedSymbols := by
  have holds : ∀ s ∈ Context.fresh.environment.scopes, ∀ entry ∈ s.entries,
      entry.key = Scope.keyOf entry.current.name ∧ entry.current ∈ predefinedSymbols := by decide +kernel
  have serials : ∀ x ∈ predefinedSymbols, x.serial < Context.fresh.nextSerial := by decide +kernel
  exact ⟨holds, serials⟩

namespace Editor

/-- The names of a document of a text that parses were tracked from the predefined symbols on. -/
theorem Document.tracked {uri source : Bytes} {d : Document} (clean : (parse source).2 = [])
    (analyzed : Document.analyze? uri source = some d) :
    ∃ ns known, d.idents = identsOf ns ∧ Tracks LyaLang.predefinedSymbols ns known := by
  unfold Document.analyze? at analyzed
  cases compiled : compile source with
  | error crash =>
    rw [compiled] at analyzed
    cases analyzed
  | ok made =>
    rw [compiled] at analyzed
    cases analyzed
    obtain ⟨t, check⟩ := check_of_compile clean compiled
    obtain ⟨tree, after, _, _, reserved⟩ := reserve_numbers Context.fresh (parse source).1
    rw [reserved] at check
    obtain ⟨_, progress⟩ := (Check.Program.check_yields tree).of_ok (fun _ => ready_fresh after) check
    obtain ⟨known, tracks, _⟩ := progress.tracked _ (knows_fresh after)
    exact ⟨made.tree.nodes, known, rfl, tracks⟩

/-- The name that declares a symbol, and the others that denote it. -/
structure Document.DeclaredBy (d : Document) (s : Symbol) (j : Ident Note) : Prop where
  /-- It is the only name of the document that declares the symbol. -/
  unique : (d.idents.filter fun k => k.note.usage = some .declaration ∧ k.note.symbol = some s) = [j]
  /-- An editor goes there. -/
  found : d.declaration? s = some j
  /-- All names that denote the symbol are spelled alike. -/
  spelled : ∀ k ∈ d.idents, k.note.symbol = some s → Scope.keyOf j.name = Scope.keyOf k.name
  /-- It stands before all others. -/
  first : ∀ k ∈ d.idents, k.note.symbol = some s → k ≠ j → j.note.span.start.offset < k.note.span.start.offset
  /-- The references to the symbol are this name and all others that denote it. -/
  references : d.references s =
    j :: d.idents.filter fun k => k.note.usage ≠ some .declaration ∧ k.note.symbol = some s
  /-- They come in source order. -/
  ordered : (d.references s).Pairwise fun k l => k.note.span.start.offset < l.note.span.start.offset

/-- A name that is resolved to a symbol that is not predefined has one definition, whether the text is valid or not.
Only predefined symbols have line zero, and no name declares them. -/
theorem definition_total_and_unique {uri source : Bytes} {d : Document} (clean : (parse source).2 = [])
    (analyzed : Document.analyze? uri source = some d) {i : Ident Note} (inside : i ∈ d.idents) {s : Symbol}
    (resolved : i.note.symbol = some s) :
    (s.line ≠ 0 → s ∉ LyaLang.predefinedSymbols) ∧ (s ∉ LyaLang.predefinedSymbols → ∃ j, d.DeclaredBy s j) ∧
      (s ∈ LyaLang.predefinedSymbols → d.declaration? s = none ∧
        ∀ k ∈ d.idents, k.note.symbol = some s → k.note.usage ≠ some .declaration) := by
  have lines : ∀ x ∈ LyaLang.predefinedSymbols, x.line = 0 := by decide +kernel
  obtain ⟨ns, known, names, tracks⟩ := Document.tracked clean analyzed
  have distinct := tracks.distinct predefinedSymbols_distinct
  have isKnown := (tracks.denoted (names ▸ inside) resolved).1
  have denotes : ∀ k ∈ d.idents, (Document.denotes s k = true ↔ k.note.symbol = some s) := by
    intro k member
    cases isSymbol : k.note.symbol with
    | none => simp [Document.denotes, isSymbol]
    | some x =>
      simp only [Document.denotes, isSymbol, Option.any_some, beq_iff_eq, Option.some.injEq]
      exact ⟨fun same => distinct (tracks.denoted (names ▸ member) isSymbol).1 isKnown same, fun same => by rw [same]⟩
  refine ⟨fun line predefined => line (lines s predefined), fun new => ?_, fun predefined => ⟨?_, fun k member same => ?_⟩⟩
  · obtain ⟨j, others, split, isSymbol, usage, uses⟩ := tracks.declared_once distinct isKnown new
    rw [← names] at split
    have ordered := (Document.idents_increase clean analyzed).filter (Document.denotes s)
    have selects : ∀ (P : Ident Note → Prop) [DecidablePred P],
        (d.idents.filter fun k => P k ∧ k.note.symbol = some s) = (j :: others).filter fun k => P k := by
      intro P _
      rw [← split, List.filter_filter]
      refine List.filter_congr fun k member => ?_
      rw [Bool.eq_iff_iff, Bool.and_eq_true, decide_eq_true_iff, decide_eq_true_iff, denotes k member]
    have unique : (d.idents.filter fun k => k.note.usage = some .declaration ∧ k.note.symbol = some s) = [j] := by
      rw [selects fun k => k.note.usage = some .declaration, List.filter_cons_of_pos (by simpa using usage),
        List.filter_eq_nil_iff.mpr fun k member => by simpa using uses k member]
    have inside : ∀ k ∈ j :: others, k ∈ d.idents := fun k member =>
      (List.mem_filter.mp (split ▸ member : k ∈ d.idents.filter (Document.denotes s))).1
    refine ⟨j, unique, ?_, fun k member same => ?_, fun k member same differs => ?_, ?_, ordered⟩
    · rw [Document.declaration?, ← List.head?_filter, ← List.head?_cons (a := j) (l := []), ← unique]
      refine congrArg List.head? (List.filter_congr fun k member => ?_)
      rw [Bool.eq_iff_iff, Bool.and_eq_true, denotes k member, decide_eq_true_iff, Document.declares, Bool.and_eq_true,
        beq_iff_eq]
      exact ⟨fun both => ⟨both.1.1, both.2⟩, fun both => ⟨⟨both.1, by rw [both.2]; rfl⟩, both.2⟩⟩
    · have spelled := (tracks.denoted (names ▸ inside j List.mem_cons_self) isSymbol).2
      exact spelled.symm.trans (tracks.denoted (names ▸ member) same).2
    · rw [split] at ordered
      have found : k ∈ j :: others := split ▸ List.mem_filter.mpr ⟨member, (denotes k member).mpr same⟩
      exact List.rel_of_pairwise_cons ordered ((List.mem_cons.mp found).resolve_left differs)
    · rw [selects fun k => k.note.usage ≠ some .declaration, List.filter_cons_of_neg (by simpa using usage),
        List.filter_eq_self.mpr fun k member => by simpa using uses k member]
      exact split
  · refine List.find?_eq_none.mpr fun k member both => ?_
    obtain ⟨declares, same⟩ := Bool.and_eq_true_iff.mp both
    obtain ⟨usage, _⟩ := Bool.and_eq_true_iff.mp declares
    exact tracks.not_declared predefined (names ▸ member) same (beq_iff_eq.mp usage)
  · exact tracks.not_declared predefined (names ▸ member) ((denotes k member).mpr same)

/-- In a text that redeclares a variable and assigns to an undeclared one, the value of the assignment leads to the
one name that declares the variable. -/
theorem redeclared_variable_defined_once :
    (parse "dcl x int = 1; dcl x bool; y = x;").2 = [] ∧
      ∃ d, Document.analyze? "file:///a.lya" "dcl x int = 1; dcl x bool; y = x;" = some d ∧ d.compilation.issues ≠ [] ∧
        ∃ i ∈ d.idents, ∃ s, i.note.usage = some .value ∧ i.note.symbol = some s ∧ s.line ≠ 0 ∧ ∃ j, d.DeclaredBy s j := by
  have clean : (parse "dcl x int = 1; dcl x bool; y = x;").2 = [] := by decide +kernel
  have shape : (Document.analyze? "file:///a.lya" "dcl x int = 1; dcl x bool; y = x;").any (fun d =>
      !d.compilation.issues.isEmpty && d.idents.any fun i =>
        i.note.usage == some .value && i.note.symbol.any (·.line != 0)) = true := by decide +kernel
  cases analyzed : Document.analyze? "file:///a.lya" "dcl x int = 1; dcl x bool; y = x;" with
  | none =>
    rw [analyzed] at shape
    cases shape
  | some d =>
    simp only [analyzed, Option.any_some, Bool.and_eq_true, List.any_eq_true, Option.any_eq_true, bne_iff_ne, beq_iff_eq,
      Bool.not_eq_true', List.isEmpty_eq_false_iff] at shape
    obtain ⟨issues, i, inside, usage, s, resolved, line⟩ := shape
    obtain ⟨declared, defined, _⟩ := definition_total_and_unique clean analyzed inside resolved
    exact ⟨clean, d, rfl, issues, i, inside, s, usage, resolved, line, defined (declared line)⟩

end Editor

end LyaLang
