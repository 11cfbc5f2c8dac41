import LyaLang.Proofs.Scope.Good

/-! # Known symbols

The symbols that the scopes hold are among those declared before. A name that is looked up gives one of them, with
the same key; what is declared, reserved, entered and left keeps it so.
-/

namespace LyaLang

/-- The scopes hold symbols of a list, each under its own key. -/
def Environment.Holds (e : Environment) (known : List Symbol) : Prop :=
  ∀ s ∈ e.scopes, ∀ entry ∈ s.entries, entry.key = Scope.keyOf entry.current.name ∧ entry.current ∈ known

namespace Environment.Holds

variable {e : Environment} {known known' : List Symbol}

theorem mono (holds : e.Holds known) (more : known ⊆ known') : e.Holds known' :=
  fun s member entry inside => (holds s member entry inside).imp_right (more ·)

theorem lookup? (holds : e.Holds known) {name : Bytes} {symbol : Symbol} (found : e.lookup? name = some symbol) :
    Scope.keyOf symbol.name = Scope.keyOf name ∧ symbol ∈ known := by
  obtain ⟨s, member, found⟩ := List.exists_of_findSome?_eq_some found
  obtain ⟨entry, here, rfl⟩ := Option.map_eq_some_iff.mp found
  obtain ⟨key, isKnown⟩ := holds s member entry (List.mem_of_find?_eq_some here)
  exact ⟨by rw [← key]; simpa using List.find?_some here, isKnown⟩

private theorem insertEntry_holds {key : Bytes} {symbol : Symbol} {P : ScopeEntry → Prop}
    (new : ∀ first, P ⟨key, first, symbol⟩) {entries : List ScopeEntry} (old : ∀ entry ∈ entries, P entry) :
    ∀ entry ∈ Scope.insertEntry key symbol entries, P entry := by
  induction entries with
  | nil => exact List.forall_mem_singleton.mpr (new _)
  | cons head rest ih =>
    obtain ⟨first, others⟩ := List.forall_mem_cons.mp old
    unfold Scope.insertEntry
    split
    case isTrue same => exact List.forall_mem_cons.mpr ⟨beq_iff_eq.mp same ▸ new head.first, others⟩
    case isFalse => exact List.forall_mem_cons.mpr ⟨first, ih others⟩

theorem declareAt (holds : e.Holds known) (symbol : Symbol) (offset level : Int64) :
    (e.declareAt symbol.name symbol offset level).1.Holds ({ symbol with offset, level } :: known) := by
  have more : e.Holds ({ symbol with offset, level } :: known) := holds.mono (List.subset_cons_self _ _)
  obtain ⟨inner, outer⟩ := List.forall_mem_cons.mp more
  exact List.forall_mem_cons.mpr ⟨insertEntry_holds (fun _ => ⟨rfl, List.mem_cons_self⟩) inner, outer⟩

theorem reserve (holds : e.Holds known) (count : Int64) : (e.reserve count).1.Holds known := by
  rw [Holds, reserve_scopes]
  refine (raised_raise _ _).forall (List.forall_mem_cons.mpr ?_) fun _ _ _ => id
  exact List.forall_mem_cons.mp holds

theorem declare (holds : e.Holds known) (symbol : Symbol) :
    (e.declare symbol.name symbol).1.Holds ((e.declare symbol.name symbol).2 :: known) := by
  unfold Environment.declare
  split
  · exact (holds.reserve symbol.size).declareAt symbol _ _
  · exact holds.declareAt symbol _ _

theorem pushBlock (holds : e.Holds known) (owner : Option Symbol) : (e.pushBlock owner).Holds known :=
  List.forall_mem_cons.mpr ⟨List.forall_mem_nil _, holds⟩

theorem push (holds : e.Holds known) (owner : Option Symbol) : (e.push owner).Holds known :=
  List.forall_mem_cons.mpr ⟨List.forall_mem_nil _, holds⟩

theorem pop (holds : e.Holds known) : e.pop.Holds known := by
  unfold Environment.pop
  split
  case h_1 => exact holds
  case h_2 s rest outer =>
    have around := (List.forall_mem_cons.mp holds).2
    rw [outer] at around
    exact around

end Environment.Holds

end LyaLang
