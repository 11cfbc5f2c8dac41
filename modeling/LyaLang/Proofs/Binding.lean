import LyaLang.Proofs.Transfer

/-! # Sizes of what is bound

A name, a parameter or a result that stands for a location has the size of the location bound to it. A reference
is a word like any other: where it is copied, types are compared and sizes are not. The type tells the size of
what a reference points to unless that is an array or a string, so a reference to a short array can be copied to
one that may point to a long array only.
-/

namespace LyaLang

open Ast

variable {m : Mode}

/-! ## Sizes that types tell -/

/-- Whether all modes of a type have one size. -/
def ValueType.isSized : ValueType → Bool
  | array _ | string => false
  | _ => true

namespace Mode

theorem Proper.size_of_isSized (proper : m.Proper) (sized : m.type.isSized = true) :
    m.size = if m.type = .void then 0 else 1 := by
  induction m with
  | range base lower upper _ =>
    have basic := proper.2.1
    have some : base.type ≠ .void := by
      intro isVoid
      rw [isVoid] at basic
      exact basic
    exact (if_neg some).symm
  | named _ mode ih => exact ih proper sized
  | string | chars _ | array _ _ _ _ => cases sized
  | _ => rfl

/-- What references of two modes point to: modes of one type, and of one size if the type tells it. -/
def PointAlike (m m' : Mode) : Prop :=
  ∃ t t', m.elem? = some t ∧ m'.elem? = some t' ∧ t.type = t'.type ∧ (t.type.isSized = true → t.size = t'.size)

/-- References of one type point to modes of one type. -/
theorem Proper.pointAlike {m' : Mode} (proper : m.Proper) (proper' : m'.Proper) (types : m.type = m'.type)
    (reference : m.type.isReference = true) : m.PointAlike m' := by
  obtain ⟨t, isTarget, properTarget, type⟩ := proper.target_of_isReference reference
  obtain ⟨t', isTarget', properTarget', type'⟩ := proper'.target_of_isReference (types ▸ reference)
  have same : t.type = t'.type := ValueType.reference.inj (type.symm.trans (types.trans type'))
  refine ⟨t, t', isTarget, isTarget', same, fun sized => ?_⟩
  rw [properTarget.size_of_isSized sized, properTarget'.size_of_isSized (same ▸ sized), same]

end Mode

/-! ## Places where something is bound -/

/-- An expression is bound to a mode: as a location of its size, or as a value, which if it is a reference points
to what the mode points to as far as types tell. -/
def Ast.Expr.BoundTo (loc : Bool) (m : Mode) (e : Expr Note) : Prop :=
  ∃ m', e.note.mode = some m' ∧ m.type = m'.type ∧
    (loc = true → e.isLocation = true ∧ m.size = m'.size) ∧
    (loc = false → m.type.isReference = true → m.PointAlike m')

theorem Ast.Expr.Typed.boundTo {symbols : List Symbol} (good : ∀ s ∈ symbols, s.Good) {e : Expr Note}
    (typed : e.Typed symbols) {loc : Bool} (proper : m.Proper) (type : e.type = m.type)
    (location : loc = true → e.IsLocationOf m) : e.BoundTo loc m := by
  obtain ⟨m', isMode, proper', _⟩ := typed.hasMode good
  have types : m.type = m'.type := type.symm.trans (type_of_mode isMode)
  refine ⟨m', isMode, types, fun byLocation => ?_, fun _ => proper.pointAlike proper' types⟩
  obtain ⟨isLocation, m'', same, sizes⟩ := location byLocation
  obtain rfl := Option.mem_unique isMode same
  exact ⟨isLocation, sizes⟩

/-- What a program binds has the type it is bound to. A location has its size too. -/
structure Ast.Program.BindsTypes (p : Program Note) : Prop where
  /-- An initializer is bound to the mode of the declaration, which for an alias must have one. -/
  initials : ∀ note decls, .stmt (.declare note decls) ∈ p.nodes → ∀ d ∈ decls,
    (d.loc = true → d.init.isSome = true) ∧
      ∀ e, d.init = some e → ∃ m, d.mode.note.mode = some m ∧ e.BoundTo d.loc m
  /-- A value is bound to the mode of the target it is assigned to. -/
  assignments : ∀ note target op value, .stmt (.assign note target op value) ∈ p.nodes →
    ∃ m, target.note.mode = some m ∧ value.BoundTo false m
  /-- Each argument is bound to the mode of its parameter. -/
  arguments : ∀ note callee args q, .expr (.call note callee args) ∈ p.nodes →
    callee.note.symbol.bind (·.proc) = some q → q.builtin = none →
    args.length = q.params.length ∧ ∀ x ∈ q.params.zip args, ∃ m, x.1.mode = some m ∧ x.2.BoundTo x.1.loc m
  /-- A result is bound to the mode that the procedure around it declares. -/
  results : ∀ note e q, p.Returns note e → note.symbol.bind (·.proc) = some q → e.BoundTo q.resultLoc q.result

section

variable {source : Bytes} {p : Program Note} {code : Code}

/-- Whatever stands in a program is sound under good symbols. -/
theorem Compiled.allPlaced (compiled : Compiled source p code) : AllPlaced (Symbol.Declares Procedure.Good) p.nodes :=
  compiled.placed fun _ header => header.good

theorem Ast.InitialSound.boundTo {symbols : List Symbol} (good : ∀ s ∈ symbols, s.Good) {loc : Bool} (proper : m.Proper) {e : Expr Note} (sound : InitialSound symbols loc m (some e)) : e.BoundTo loc m := by
  obtain ⟨typed, type, location⟩ := sound
  exact typed.boundTo good proper type fun byLocation => location (.inl byLocation)

/-- Locations are bound to modes of their size, and values to modes of their type. -/
theorem locations_are_bound_to_their_size (valid : Valid source p) : p.BindsTypes := by
  obtain ⟨code, _, compiled, _⟩ := valid.compile
  constructor
  · intro note decls member d inside
    obtain ⟨frame, V, V', fine, sound⟩ := compiled.allPlaced _ member
    have good : V.Good := fun s visible => (fine.symbols s visible).1
    obtain ⟨W, W', goodW, m, typed, isMode, _, initial, _⟩ :=
      (EachSound.walk good sound fun _ _ _ _ => Declaration.Sound.good).2 d inside
    obtain ⟨m', same, proper⟩ := typed.hasMode goodW
    obtain rfl := Option.mem_unique isMode same
    constructor
    · intro loc
      cases isInit : d.init with
      | none =>
        rw [isInit] at initial
        exact absurd (loc.symm.trans initial) (by decide)
      | some e => rfl
    · intro e isInit
      rw [isInit] at initial
      exact ⟨m, isMode, initial.boundTo goodW proper⟩
  · intro note target op value member
    obtain ⟨frame, V, V', fine, rfl, sound⟩ := compiled.allPlaced _ member
    have good : ∀ s ∈ V'.symbols, s.Good := fun s visible => (fine.symbols s visible).1
    obtain ⟨m, isMode, proper, _⟩ := sound.typed.hasMode good
    obtain ⟨typed, type⟩ := sound.assigned
    exact ⟨m, isMode, typed.boundTo good proper (type.trans (type_of_mode isMode)) nofun⟩
  · intro note callee args q member called declared
    obtain ⟨symbols, fine, typedArgs, ⟨symbol, proc, found, isSymbol, _, isProc, takes, _⟩, _⟩ :=
      compiled.allPlaced _ member
    have good : ∀ s ∈ symbols, s.Good := fun s visible => (fine s visible).1
    rw [isSymbol] at called
    obtain rfl := Option.mem_unique isProc called
    obtain ⟨_, goodProc⟩ := (fine symbol (findSymbol_some found).1).2 proc isProc declared
    rw [declared] at goodProc
    rw [Procedure.Takes, declared] at takes
    refine ⟨takes.length_eq.symm, fun x pair => ?_⟩
    obtain ⟨isParam, isArg⟩ := List.of_mem_zip pair
    obtain ⟨m, isMode, type, location⟩ := (List.forall₂_iff_zip.mp takes).2 pair
    obtain ⟨m', same, proper, _⟩ := goodProc.2.1 x.1 isParam
    obtain rfl := Option.mem_unique isMode same
    exact ⟨m, isMode, (Expr.typedList_iff.mp typedArgs x.2 isArg).boundTo good proper type location⟩
  · intro note e q returns called
    have placed : ∃ V : View, V.Fine (Symbol.Declares Procedure.Good) ∧ ResultSound V note (some e) := by
      rcases returns with member | member
      · obtain ⟨_, V, _, fine, rfl, sound⟩ := compiled.allPlaced _ member
        exact ⟨_, fine, sound⟩
      · obtain ⟨_, V, _, fine, rfl, sound⟩ := compiled.allPlaced _ member
        exact ⟨_, fine, sound⟩
    obtain ⟨V, fine, f, proc, isFunction, isSymbol, isProc, values⟩ := placed
    rw [isSymbol] at called
    obtain rfl := Option.mem_unique isProc called
    obtain ⟨⟨typed, type⟩, _, location⟩ := values e rfl
    obtain ⟨goodProc, declared⟩ := fine.function f isFunction
    exact typed.boundTo (fun s visible => (fine.symbols s visible).1)
      (goodProc proc isProc (declared proc isProc)).1 type location

/-- A program that binds locations to an alias, a parameter and a result, and copies references. -/
theorem alias_parameter_and_result_are_bound : ∃ made code,
    compile "dcl x array[1:3] int; dcl y array[2:4] int loc = x; f: proc(a array[0:2] int loc) returns(int loc); return a[1]; end; dcl r ref int = ->x[1]; f(y) = 5; r = ->f(x);" =
      .ok made ∧ made.result = .ok code ∧ made.tree.BindsTypes := by
  obtain ⟨made, code, compiled, linked, _⟩ := @exists_accepted
    "dcl x array[1:3] int; dcl y array[2:4] int loc = x; f: proc(a array[0:2] int loc) returns(int loc); return a[1]; end; dcl r ref int = ->x[1]; f(y) = 5; r = ->f(x);"
    (fun _ _ => true) (by decide +kernel)
  exact ⟨made, code, compiled, linked, locations_are_bound_to_their_size (compiled_of_ok compiled linked).1⟩

end

/-- A declaration whose initial value is a reference to a mode of another size. -/
def Ast.Node.widensReference : Node Note → Bool
  | declaration d => d.init.any fun e =>
    !d.loc && e.type.isReference &&
      (d.mode.note.mode.bind Mode.elem?).map Mode.size != (e.note.mode.bind Mode.elem?).map Mode.size
  | _ => false

/-- A reference to two words is accepted where one to three words is declared. An index that passes its check then
reaches the word behind the array, which is that of another variable. -/
theorem reference_reaches_behind_array : ∃ made code,
    compile "dcl x array[1:2] int; dcl y int = 7; dcl r ref array[1:3] int = ->x; r->[3] = 99; print(y);" = .ok made ∧
      made.result = .ok code ∧ made.tree.nodes.any Node.widensReference = true ∧
      ((Machine.create 64 []).run code {} 20).1.finish = .finished ∧
      ((Machine.create 64 []).run code {} 20).2.output.toList = ("99\n") := by
  obtain ⟨made, code, compiled, linked, run⟩ := @exists_accepted
    "dcl x array[1:2] int; dcl y int = 7; dcl r ref array[1:3] int = ->x; r->[3] = 99; print(y);"
    (fun made code => made.tree.nodes.any Node.widensReference &&
      ((Machine.create 64 []).run code {} 20).1.finish == .finished &&
      ((Machine.create 64 []).run code {} 20).2.output.toList == ("99\n")) (by decide +kernel)
  obtain ⟨front, output⟩ := Bool.and_eq_true_iff.mp run
  obtain ⟨widens, finish⟩ := Bool.and_eq_true_iff.mp front
  exact ⟨made, code, compiled, linked, widens, beq_iff_eq.mp finish, beq_iff_eq.mp output⟩

end LyaLang
