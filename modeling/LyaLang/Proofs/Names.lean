import LyaLang.Editor.Document
import LyaLang.Proofs.Compile

/-! # The names of a document

The names of a tree, in the order of its nodes, are the names among the tokens of its text: none is left out, none
occurs twice, and their order is that of the text. Compiling keeps them, so the index of a document is complete, and
references to a symbol come in source order.
-/

namespace LyaLang

open Ast

variable {source : Bytes}

namespace Ast

theorem Program.idents_map {α β : Type} (f : α → β) (p : Program α) : (p.map f).idents = p.idents.map (Ident.map f) := by
  rw [Program.idents, Program.nodes_map, Program.idents, List.filterMap_map, List.map_filterMap]
  congr 1
  funext n
  cases n <;> rfl

theorem Program.namesOf_nodes (p : Program Span) : namesOf p.nodes = p.idents.map fun i => (i.name, i.note.start) := by
  rw [Program.idents]
  induction p.nodes with
  | nil => rfl
  | cons n rest ih => cases n <;> simp [Node.spelled, ih]

end Ast

theorem flatMap_spelled (ts : List Token) :
    ts.flatMap Token.spelled = (ts.filter (·.kind == .identifier)).map fun t => (t.text, t.position) := by
  induction ts with
  | nil => rfl
  | cons t rest ih => by_cases isName : t.kind = .identifier <;> simp [Token.spelled, isName, ih]

/-- The names of a text that parses without errors are the names among its tokens, in their order. -/
theorem idents_parse (clean : (parse source).2 = []) :
    (parse source).1.idents.map (fun i => (i.name, i.note.start)) =
      ((tokens source).filter (·.kind == .identifier)).map fun t => (t.text, t.position) := by
  rw [← Program.namesOf_nodes, parse_names clean, flatMap_spelled]

theorem Editor.Document.idents_eq {uri : Bytes} {d : Editor.Document} (clean : (parse source).2 = [])
    (analyzed : Editor.Document.analyze? uri source = some d) :
    d.idents.map (fun i => (i.name, i.note.span.start)) =
      ((tokens source).filter (·.kind == .identifier)).map fun t => (t.text, t.position) := by
  unfold Editor.Document.analyze? at analyzed
  cases compiled : compile source with
  | error crash =>
    rw [compiled] at analyzed
    cases analyzed
  | ok made =>
    rw [compiled] at analyzed
    cases analyzed
    have same := congrArg (fun p : Program Span => p.idents.map fun i => (i.name, i.note.start))
      (compile_tree ready_fresh clean compiled)
    rw [← idents_parse clean, ← same, Program.idents_map, Program.idents_map, List.map_map, List.map_map]
    rfl

/-- The names of a document come in source order. -/
theorem Editor.Document.idents_increase {uri : Bytes} {d : Editor.Document} (clean : (parse source).2 = [])
    (analyzed : Editor.Document.analyze? uri source = some d) :
    d.idents.Pairwise fun i j => i.note.span.start.offset < j.note.span.start.offset := by
  have rising : (d.idents.map fun i => (i.name, i.note.span.start)).Pairwise (·.2.offset < ·.2.offset) := by
    rw [idents_eq clean analyzed]
    exact List.pairwise_map.mpr ((tokens_increase source).filter _)
  rw [List.pairwise_map] at rising
  exact rising

open Editor in
/-- The names of the tree of a text that parses are in one-to-one and order-preserving correspondence with the name
tokens of the text: the same spellings at the same places. So they are in every document of the text, and the references to a symbol
come in source order. -/
theorem names_match_tokens (source : Bytes) (clean : (parse source).2 = []) :
    ((parse source).1.idents.map fun i => (i.name, i.note.start)) =
        ((tokens source).filter (·.kind == .identifier)).map (fun t => (t.text, t.position)) ∧
      ∀ uri d, Document.analyze? uri source = some d →
        (d.idents.map fun i => (i.name, i.note.span.start)) =
            ((tokens source).filter (·.kind == .identifier)).map (fun t => (t.text, t.position)) ∧
          ∀ symbol, (d.references symbol).Pairwise fun i j => i.note.span.start.offset < j.note.span.start.offset := by
  refine ⟨idents_parse clean, fun uri d analyzed => ⟨Document.idents_eq clean analyzed, fun symbol => ?_⟩⟩
  exact (Document.idents_increase clean analyzed).filter _

/-- A text with names of procedures, parameters, modes, variables and counters. -/
def namesEverywhere : Bytes :=
  "f: proc(a int); end; dcl x array[1:3] int; for i = 1 to 3 do x[i] = i; f(i); od;"

open Editor in
theorem namesEverywhere_match : (parse namesEverywhere).2 = [] ∧ ∃ d, Document.analyze? [] namesEverywhere = some d ∧
    (d.idents.map fun i => (i.name, i.note.span.start)) =
        ((tokens namesEverywhere).filter (·.kind == .identifier)).map (fun t => (t.text, t.position)) ∧
      ∀ symbol, (d.references symbol).Pairwise fun i j => i.note.span.start.offset < j.note.span.start.offset := by
  have clean : (parse namesEverywhere).2 = [] := by decide +kernel
  have made : (Document.analyze? [] namesEverywhere).isSome = true := by decide +kernel
  obtain ⟨d, analyzed⟩ := Option.isSome_iff_exists.mp made
  exact ⟨clean, d, analyzed, (names_match_tokens namesEverywhere clean).2 [] d analyzed⟩

end LyaLang
