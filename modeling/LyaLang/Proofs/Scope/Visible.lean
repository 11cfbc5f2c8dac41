import LyaLang.Proofs.Mode.Proper
import LyaLang.Scope.Context

/-! # Visible symbols

The scopes seen as one list of symbols, the last declared first. Looking a name up is finding the first
symbol of the list with its key; leaving a scope drops the symbols declared in it.
-/

namespace LyaLang

/-- The first symbol with the key of a name. -/
def findSymbol (symbols : List Symbol) (name : Bytes) : Option Symbol :=
  symbols.find? fun s => Scope.keyOf s.name == Scope.keyOf name

/-- The symbols of a scope, the last declared first. -/
def Scope.visible (s : Scope) : List Symbol := (s.entries.map (·.current)).reverse

/-- The symbols of all scopes, the last declared first. -/
def Environment.visible (e : Environment) : List Symbol := e.scopes.flatMap Scope.visible

/-- The entries of a scope stand under the keys of their symbols, and no two under one key. -/
structure Scope.Orderly (s : Scope) : Prop where
  keyed : ∀ e ∈ s.entries, e.key = Scope.keyOf e.current.name
  distinct : (s.entries.map (·.key)).Nodup

/-- Where at most one element satisfies a test, its place in the list does not matter. -/
private theorem find?_reverse_of_unique {α : Type} {p : α → Bool} {l : List α}
    (unique : ∀ x ∈ l, ∀ y ∈ l, p x = true → p y = true → x = y) : l.reverse.find? p = l.find? p := by
  cases found : l.find? p with
  | none =>
    rw [List.find?_eq_none] at found ⊢
    intro x member
    exact found x (List.mem_reverse.mp member)
  | some x =>
    obtain ⟨holds, member⟩ := List.find?_eq_some_iff_getElem.mp found |>.imp_right fun _ =>
      List.mem_of_find?_eq_some found
    cases found' : l.reverse.find? p with
    | none => exact absurd holds (List.find?_eq_none.mp found' x (List.mem_reverse.mpr member))
    | some y =>
      have member' := List.mem_reverse.mp (List.mem_of_find?_eq_some found')
      rw [unique y member' x member (List.find?_some found') holds]

private theorem eq_of_key_eq {entries : List ScopeEntry} (distinct : (entries.map (·.key)).Nodup) {e f : ScopeEntry}
    (left : e ∈ entries) (right : f ∈ entries) (same : e.key = f.key) : e = f := by
  induction entries with
  | nil => cases left
  | cons head rest ih =>
    obtain ⟨fresh, distinct⟩ := List.nodup_cons.mp distinct
    rcases List.mem_cons.mp left with rfl | inRest <;> rcases List.mem_cons.mp right with rfl | inRest'
    · rfl
    · exact (fresh (List.mem_map.mpr ⟨f, inRest', same.symm⟩)).elim
    · exact (fresh (List.mem_map.mpr ⟨e, inRest, same⟩)).elim
    · exact ih distinct inRest inRest'

private theorem find?_congr {α : Type} {p q : α → Bool} {l : List α} (same : ∀ x ∈ l, p x = q x) :
    l.find? p = l.find? q := by
  induction l with
  | nil => rfl
  | cons x rest ih =>
    rw [List.find?_cons, List.find?_cons, same x List.mem_cons_self,
      ih fun y member => same y (List.mem_cons_of_mem _ member)]

theorem Scope.Orderly.find?_eq {s : Scope} (orderly : s.Orderly) (name : Bytes) :
    s.find? name = findSymbol s.visible name := by
  have tests : s.entries.find? (fun e => e.key == keyOf name) =
      s.entries.find? ((fun t : Symbol => keyOf t.name == keyOf name) ∘ (·.current)) := by
    apply find?_congr
    intro e member
    simp only [orderly.keyed e member, Function.comp_apply]
  rw [find?, findSymbol, visible, ← List.map_reverse, List.find?_map, tests, find?_reverse_of_unique]
  intro e left f right first second
  simp only [Function.comp_apply, beq_iff_eq] at first second
  apply eq_of_key_eq orderly.distinct left right
  rw [orderly.keyed e left, orderly.keyed f right, first, second]

theorem findSymbol_append (front rest : List Symbol) (name : Bytes) :
    findSymbol (front ++ rest) name = (findSymbol front name).or (findSymbol rest name) := by
  simp [findSymbol, List.find?_append]

private theorem findSome?_visible {scopes : List Scope} (orderly : ∀ s ∈ scopes, s.Orderly) (name : Bytes) :
    scopes.findSome? (·.find? name) = findSymbol (scopes.flatMap Scope.visible) name := by
  induction scopes with
  | nil => rfl
  | cons s rest ih =>
    rw [List.flatMap_cons, findSymbol_append, ← ih fun t member => orderly t (List.mem_cons_of_mem _ member),
      ← (orderly s List.mem_cons_self).find?_eq, List.findSome?_cons]
    cases s.find? name <;> rfl

/-- Looking a name up finds its first visible symbol. -/
theorem Environment.lookup?_eq {e : Environment} (orderly : ∀ s ∈ e.scopes, s.Orderly) (name : Bytes) :
    e.lookup? name = findSymbol e.visible name :=
  findSome?_visible orderly name

theorem findSymbol_some {symbols : List Symbol} {name : Bytes} {s : Symbol} (found : findSymbol symbols name = some s) :
    s ∈ symbols ∧ Scope.keyOf s.name = Scope.keyOf name :=
  ⟨List.mem_of_find?_eq_some found, by simpa using List.find?_some found⟩

end LyaLang
