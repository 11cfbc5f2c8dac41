import LyaLang.Proofs.Check.Sound
import LyaLang.Proofs.Tree.Nodes

/-! # Constructs where they stand

Soundness goes through a tree with the view that each construct sees. A property of symbols that every
declaration of the tree passes on holds of all symbols in every such view, so each construct of a sound
program is sound under symbols that have the property.
-/

namespace LyaLang

open Ast

variable {V V' : View} {count position : Nat}

variable {serial : Nat} {γ : Type} {params : List (FormalParam Note)} {spec : Option (ResultSpec Note)}

/-- A view of good symbols that have a property, the procedure around it included, which is not predefined. -/
structure View.Fine (P : Symbol → Prop) (V : View) : Prop where
  symbols : ∀ s ∈ V.symbols, s.Good ∧ P s
  function : ∀ f, V.function = some f → P f ∧ ∀ p, f.proc = some p → p.builtin = none

namespace View.Fine

variable {P : Symbol → Prop} {V : View}

theorem declare (fine : V.Fine P) {symbol : Symbol} (good : symbol.Good) (has : P (V.place { symbol with serial })) : (V.declare { symbol with serial }).Fine P where
  symbols := by
    intro s member
    rcases List.mem_cons.mp member with rfl | member
    · exact ⟨good, has⟩
    · exact fine.symbols s member
  function := fine.function

theorem declareParam (fine : V.Fine P) {symbol : Symbol} (good : symbol.Good) (has : P { symbol with serial }) : (V.declareParam { symbol with serial }).Fine P where
  symbols := by
    intro s member
    rcases List.mem_cons.mp member with rfl | member
    · exact ⟨good, has⟩
    · exact fine.symbols s member
  function := fine.function

theorem enter (fine : V.Fine P) {procedure : Symbol} (has : P procedure)
    (declared : ∀ p, procedure.proc = some p → p.builtin = none) : (V.enter procedure).Fine P where
  symbols := fine.symbols
  function := by
    intro f isFunction
    cases isFunction
    exact ⟨has, declared⟩

end View.Fine

/-- A property of symbols that the declarations among some nodes pass on: the symbol declared has it if the
symbols visible at the declaration do. -/
structure Inherited (P : Symbol → Prop) (nodes : List (Node Note)) : Prop where
  ofVariable : ∀ {V W : View} {d : Declaration Note} {m} serial id, d.nodes ⊆ nodes → V.Fine P → d.mode.Typed V.symbols →
    d.mode.note.mode = some m → P (W.place { variableSymbol d.loc m id with serial })
  ofSynonym : ∀ {V W : View} {d : SynonymDef Note} {m k} serial id, d.nodes ⊆ nodes → V.Fine P → d.value.Typed V.symbols →
    d.value.note.constant = some k → SynonymMode V.symbols d.value m d.mode → P (W.place { synonymSymbol m k id with serial })
  ofMode : ∀ {V W : View} {d : ModeDef Note} {m} serial id, d.nodes ⊆ nodes → V.Fine P → d.mode.Typed V.symbols →
    d.mode.note.mode = some m → P (W.place { modeSymbol m id with serial })
  ofCounter : ∀ {W : View} serial id, P (W.place { counterSymbol id with serial })
  ofParam : ∀ {V : View} {q : FormalParam Note} {m} count level position serial id, q.nodes ⊆ nodes → V.Fine P →
    q.mode.Typed V.symbols → q.mode.note.mode = some m → P { paramSymbol count level q.loc m position id with serial }
  ofProcedure : ∀ {V : View} {note name params spec body p} serial,
    (Stmt.proc note name params spec body).nodes ⊆ nodes → V.Fine P → HeaderSound V note.labels params spec p →
    P (V.place { procedureSymbol p name with serial })

namespace Inherited

variable {P : Symbol → Prop} {n : Node Note} {nodes more front back : List (Node Note)}

theorem mono (inherited : Inherited P more) (subset : nodes ⊆ more) : Inherited P nodes where
  ofVariable serial id within := inherited.ofVariable serial id (List.Subset.trans within subset)
  ofSynonym serial id within := inherited.ofSynonym serial id (List.Subset.trans within subset)
  ofMode serial id within := inherited.ofMode serial id (List.Subset.trans within subset)
  ofCounter := inherited.ofCounter
  ofParam count level position serial id within :=
    inherited.ofParam count level position serial id (List.Subset.trans within subset)
  ofProcedure serial within := inherited.ofProcedure serial (List.Subset.trans within subset)

theorem tail (inherited : Inherited P (n :: nodes)) : Inherited P nodes := inherited.mono (List.subset_cons_self _ _)

theorem left (inherited : Inherited P (front ++ back)) : Inherited P front :=
  inherited.mono (List.subset_append_left _ _)

theorem right (inherited : Inherited P (front ++ back)) : Inherited P back :=
  inherited.mono (List.subset_append_right _ _)

end Inherited

namespace Ast

variable {P : Symbol → Prop} {symbols : List Symbol} {nodes : List (Node Note)} {frame : Int64}

/-- A node is sound under good symbols that have a property. -/
def Node.Placed (P : Symbol → Prop) : Node Note → Prop
  | expr e => ∃ symbols, (∀ s ∈ symbols, s.Good ∧ P s) ∧ e.Typed symbols
  | stmt s => ∃ frame V V', V.Fine P ∧ s.Sound frame V V'
  | modeExpr m => ∃ symbols, (∀ s ∈ symbols, s.Good ∧ P s) ∧ m.Typed symbols
  | _ => True

/-- Nodes that are sound under good symbols that have a property. -/
def AllPlaced (P : Symbol → Prop) (nodes : List (Node Note)) : Prop := ∀ n ∈ nodes, n.Placed P

namespace AllPlaced

theorem nil : AllPlaced P [] := List.forall_mem_nil _

theorem cons {n : Node Note} (first : n.Placed P) (rest : AllPlaced P nodes) : AllPlaced P (n :: nodes) :=
  List.forall_mem_cons.mpr ⟨first, rest⟩

theorem append {front back : List (Node Note)} (first : AllPlaced P front) (second : AllPlaced P back) :
    AllPlaced P (front ++ back) := List.forall_mem_append.mpr ⟨first, second⟩

theorem flatMap {f : γ → List (Node Note)} {xs : List γ} (each : ∀ x ∈ xs, AllPlaced P (f x)) :
    AllPlaced P (xs.flatMap f) := by
  intro n member
  obtain ⟨x, inside, member⟩ := List.mem_flatMap.mp member
  exact each x inside n member

/-- Names are sound wherever they stand. -/
theorem identNodes (names : List (Ident Note)) : AllPlaced P (identNodes names) := by
  intro n member
  obtain ⟨id, _, rfl⟩ := List.mem_map.mp member
  trivial

end AllPlaced

/-! ## The procedure around a statement -/

/-- Parameters are declared, and nothing else changes. -/
theorem ParamsSound.eq_except {ps : List (FormalParam Note)} (sound : ParamsSound count V position ps V') :
    V' = { V with symbols := V'.symbols } := by
  refine sound.walk (I := fun W => W = { V with symbols := W.symbols }) rfl ?_
  intro _ _ _ _ W i id serial _ same _
  rw [same]
  rfl

theorem ForControl.Sound.function_eq {f : ForControl Note} (sound : f.Sound frame V V') : V'.function = V.function :=
  sound.walk (I := fun W => W.function = V.function) rfl (fun _ _ => rfl) fun _ same => same

/-- A statement leaves the procedure around it. -/
theorem Stmt.Sound.function_eq {s : Stmt Note} (sound : s.Sound frame V V') : V'.function = V.function :=
  sound.walk (I := fun W => W.function = V.function) rfl fun _ _ _ same _ => same

/-! ## Expressions and modes -/

mutual

theorem Expr.Typed.placed (fine : ∀ s ∈ symbols, s.Good ∧ P s) :
    ∀ {e : Expr Note}, e.Typed symbols → AllPlaced P e.nodes
  | .int _ _, typed | .bool _ _, typed | .char _ _, typed | .text _ _, typed =>
    .cons ⟨symbols, fine, typed⟩ .nil
  | .ident _, _ => .cons trivial .nil
  | .unary _ _ _, typed | .deref _ _, typed | .ref _ _, typed => .cons ⟨symbols, fine, typed⟩ (typed.1.placed fine)
  | .binary _ _ _ _, typed =>
    .cons ⟨symbols, fine, typed⟩ ((typed.1.placed fine).append (typed.2.1.placed fine))
  | .cond _ _ _, typed => .cons ⟨symbols, fine, typed⟩ ((typed.1.placed fine).append (typed.2.1.placed fine))
  | .call _ _ _, typed => .cons ⟨symbols, fine, typed⟩ (.cons trivial (typed.1.placed fine))
  | .index _ _ _, typed => .cons ⟨symbols, fine, typed⟩ ((typed.1.placed fine).append (typed.2.2.1.placed fine))

theorem Expr.TypedList.placed (fine : ∀ s ∈ symbols, s.Good ∧ P s) :
    ∀ {es : List (Expr Note)}, Expr.TypedList symbols es → AllPlaced P (Expr.listNodes es)
  | [], _ => .nil
  | _ :: _, ⟨first, rest⟩ => (first.placed fine).append (rest.placed fine)

theorem Expr.TypedArms.placed {type : ValueType} (fine : ∀ s ∈ symbols, s.Good ∧ P s) :
    ∀ {arms : List (CondValue Note)}, Expr.TypedArms symbols type arms → AllPlaced P (Expr.armNodes arms)
  | [], _ => .nil
  | .mk _ _ _ :: _, ⟨test, _, value, _, rest⟩ =>
    .cons trivial (((test.placed fine).append (value.placed fine)).append (rest.placed fine))

end

theorem Expr.placed_of_optional (fine : ∀ s ∈ symbols, s.Good ∧ P s) {x : Option (Expr Note)}
    (typed : ∀ e, x = some e → e.Typed symbols) : AllPlaced P (optionalNodes x) := by
  cases x with
  | none => exact .nil
  | some e => exact (typed e rfl).placed fine

theorem ModeName.Typed.placed (fine : ∀ s ∈ symbols, s.Good ∧ P s) {m : ModeName Note} (typed : m.Typed symbols) :
    AllPlaced P m.nodes := .cons ⟨symbols, fine, typed⟩ (.cons trivial .nil)

mutual

theorem ModeExpr.Typed.placed (fine : ∀ s ∈ symbols, s.Good ∧ P s) :
    ∀ {m : ModeExpr Note}, m.Typed symbols → AllPlaced P m.nodes
  | .name m, typed => ModeName.Typed.placed fine typed
  | .range note base lo hi, typed => by
    have here : (Node.modeExpr (.range note base lo hi)).Placed P := ⟨symbols, fine, typed⟩
    obtain ⟨_, _, _, isBase, ⟨typedLo, _⟩, ⟨typedHi, _⟩, _⟩ := typed
    have named : AllPlaced P ((base.map ModeName.nodes).getD []) := by
      cases base with
      | none => exact .nil
      | some m => exact isBase.1.placed fine
    exact .cons here ((named.append (typedLo.placed fine)).append (typedHi.placed fine))
  | .ref note elem, typed => .cons ⟨symbols, fine, typed⟩ (typed.1.placed fine)
  | .chars note len, typed => by
    have here : (Node.modeExpr (.chars note len)).Placed P := ⟨symbols, fine, typed⟩
    obtain ⟨_, ⟨typed, _⟩, _⟩ := typed
    exact .cons here (typed.placed fine)
  | .array note indexes elem, typed => by
    have here : (Node.modeExpr (.array note indexes elem)).Placed P := ⟨symbols, fine, typed⟩
    obtain ⟨typed, _, _, ranges, _⟩ := typed
    exact .cons here ((ranges.placed fine).append (typed.placed fine))

theorem ModeExpr.TypedIndexes.placed (fine : ∀ s ∈ symbols, s.Good ∧ P s) :
    ∀ {indexes : List (ModeExpr Note)} {modes : List Mode}, ModeExpr.TypedIndexes symbols indexes modes →
      AllPlaced P (ModeExpr.listNodes indexes)
  | [], _, _ => .nil
  | _ :: _, _, ⟨_, _, _, typed, _, _, _, rest⟩ =>
    (typed.placed fine).append (rest.placed fine)

end

/-! ## Declarations -/

theorem NamesSound.fine {make : Ident Note → Symbol} {names : List (Ident Note)}
    (passes : ∀ (W : View) serial id, P (W.place { make id with serial })) (fine : V.Fine P)
    (sound : NamesSound frame make V names V') : V'.Fine P :=
  (sound.walk fine fun id _ W serial fine _ good => fine.declare good (passes W serial id)).1

theorem subset_flatMap {f : γ → List (Node Note)} {xs : List γ} {x : γ} (member : x ∈ xs) :
    f x ⊆ xs.flatMap f := fun _ inside => List.mem_flatMap.mpr ⟨x, member, inside⟩

/-- Constructs that each pass a property on do so one after the other, and their nodes are placed if those of
each are. -/
theorem EachSound.placed {sound : View → γ → View → Prop} {f : γ → List (Node Note)} {xs : List γ}
    (fine : V.Fine P) (holds : EachSound sound V xs V')
    (each : ∀ x ∈ xs, ∀ V V', V.Fine P → sound V x V' → V'.Fine P ∧ AllPlaced P (f x)) :
    V'.Fine P ∧ AllPlaced P (xs.flatMap f) := by
  obtain ⟨fine', found⟩ := holds.walk fine fun x member V V' fine sound => (each x member V V' fine sound).1
  refine ⟨fine', .flatMap fun x member => ?_⟩
  obtain ⟨W, W', fine, sound⟩ := found x member
  exact (each x member W W' fine sound).2

theorem Declaration.Sound.placed (inherited : Inherited P nodes) {d : Declaration Note} (within : d.nodes ⊆ nodes) (fine : V.Fine P) (sound : d.Sound frame V V') : V'.Fine P ∧ AllPlaced P d.nodes := by
  obtain ⟨m, typed, isMode, _, initial, names⟩ := sound
  have typedInit : ∀ e, d.init = some e → e.Typed V.symbols := by
    intro e isInit
    rw [isInit] at initial
    exact initial.1
  refine ⟨names.fine (fun W serial id => inherited.ofVariable serial id within fine typed isMode) fine, ?_⟩
  exact .cons trivial (((AllPlaced.identNodes d.names).append (typed.placed fine.symbols)).append
    (Expr.placed_of_optional fine.symbols typedInit))

theorem SynonymDef.Sound.placed (inherited : Inherited P nodes) {d : SynonymDef Note} (within : d.nodes ⊆ nodes) (fine : V.Fine P) (sound : d.Sound frame V V') : V'.Fine P ∧ AllPlaced P d.nodes := by
  obtain ⟨m, k, typed, constant, isMode, names⟩ := sound
  have placedMode : AllPlaced P ((d.mode.map ModeExpr.nodes).getD []) := by
    cases given : d.mode with
    | none => exact .nil
    | some mode =>
      rw [given] at isMode
      exact isMode.1.placed fine.symbols
  refine ⟨names.fine (fun W serial id => inherited.ofSynonym serial id within fine typed constant isMode) fine, ?_⟩
  exact .cons trivial (((AllPlaced.identNodes d.names).append placedMode).append (typed.placed fine.symbols))

theorem ModeDef.Sound.placed (inherited : Inherited P nodes) {d : ModeDef Note} (within : d.nodes ⊆ nodes) (fine : V.Fine P) (sound : d.Sound frame V V') : V'.Fine P ∧ AllPlaced P d.nodes := by
  obtain ⟨m, typed, isMode, names⟩ := sound
  refine ⟨names.fine (fun W serial id => inherited.ofMode serial id within fine typed isMode) fine, ?_⟩
  exact .cons trivial ((AllPlaced.identNodes d.names).append (typed.placed fine.symbols))

/-- The body of a procedure sees what surrounds it, the procedure itself and its parameters. -/
theorem HeaderSound.fine (inherited : Inherited P nodes) {note : Note} {name : Ident Note}
    {body : List (Stmt Note)}
    (within : (Stmt.proc note name params spec body).nodes ⊆ nodes) (withinParams : ∀ q ∈ params, q.nodes ⊆ nodes)
    {W : View} {p : Procedure} (fine : V.Fine P) (header : HeaderSound V note.labels params spec p)
    (sound : ParamsSound (FormalParam.count params) ((V.declare { procedureSymbol p name with serial }).enter
      (V.place { procedureSymbol p name with serial })) 0 params W) :
    (V.declare { procedureSymbol p name with serial }).Fine P ∧ W.Fine P := by
  have good := header.goodSymbol name
  have has : P (V.place { procedureSymbol p name with serial }) := inherited.ofProcedure serial within fine header
  have declared := fine.declare good has
  have free : ∀ q, (V.place { procedureSymbol p name with serial }).proc = some q → q.builtin = none := by
    intro q isProc
    obtain rfl := Option.some.inj isProc
    exact header.builtin
  refine ⟨declared, sound.walk (declared.enter has free) ?_⟩
  intro q inside m isMode W i id serial _ fineW good
  exact fineW.declareParam good
    (inherited.ofParam _ W.level i serial id (withinParams q inside) fine (header.modes q inside) isMode)

theorem ForControl.Sound.placed (inherited : Inherited P nodes) {f : ForControl Note} (fine : V.Fine P)
    (sound : f.Sound frame V V') : V'.Fine P ∧ AllPlaced P f.nodes := by
  have fine' : V'.Fine P := sound.walk fine (fun serial good => fine.declare good (inherited.ofCounter serial f.counter))
    fun _ fine => ⟨fine.symbols, fine.function⟩
  refine ⟨fine', .cons trivial (.cons trivial (((sound.start.1.placed fine.symbols).append ?_).append
    (sound.stop.1.placed fine.symbols)))⟩
  exact Expr.placed_of_optional fine.symbols fun e isStep => (sound.step e isStep).1

/-! ## Statements -/

theorem ResultSpec.placed_of_header {labels : Option LabelBlock} {p : Procedure} (fine : V.Fine P) (header : HeaderSound V labels params spec p) :
    AllPlaced P (params.flatMap FormalParam.nodes ++ (spec.map ResultSpec.nodes).getD []) := by
  refine .append (.flatMap ?_) ?_
  · intro q member
    exact .cons trivial ((AllPlaced.identNodes q.names).append ((header.modes q member).placed fine.symbols))
  · have result := header.result
    cases spec with
    | none => exact .nil
    | some r => exact .cons trivial (result.1.placed fine.symbols)

theorem ResultSound.placed {note : Note} {value : Option (Expr Note)} (fine : V.Fine P)
    (sound : ResultSound V note value) : AllPlaced P (optionalNodes value) := by
  obtain ⟨_, _, _, _, _, typed⟩ := sound
  exact Expr.placed_of_optional fine.symbols fun e isValue => (typed e isValue).1.1

mutual

/-- The nodes of a sound statement are placed, and the view after it keeps the property. -/
theorem Stmt.Sound.placed {frame : Int64} : ∀ {s : Stmt Note} {V V' : View}, Inherited P s.nodes → V.Fine P →
    s.Sound frame V V' → V'.Fine P ∧ AllPlaced P s.nodes
  | .declare note decls, V, V', inherited, fine, sound => by
    obtain ⟨fine', placed⟩ := EachSound.placed fine sound fun d member _ _ =>
      Declaration.Sound.placed inherited.tail (subset_flatMap member)
    exact ⟨fine', .cons ⟨frame, V, V', fine, sound⟩ placed⟩
  | .synonym note defs, V, V', inherited, fine, sound => by
    obtain ⟨fine', placed⟩ := EachSound.placed fine sound fun d member _ _ =>
      SynonymDef.Sound.placed inherited.tail (subset_flatMap member)
    exact ⟨fine', .cons ⟨frame, V, V', fine, sound⟩ placed⟩
  | .modes note defs, V, V', inherited, fine, sound => by
    obtain ⟨fine', placed⟩ := EachSound.placed fine sound fun d member _ _ =>
      ModeDef.Sound.placed inherited.tail (subset_flatMap member)
    exact ⟨fine', .cons ⟨frame, V, V', fine, sound⟩ placed⟩
  | .proc note name params spec body, V, V', inherited, fine, sound => by
    obtain ⟨serial, p, words, W, W', rfl, _, _, header, _, _, paramsSound, bodySound⟩ := id sound
    have withinParams : ∀ q ∈ params, q.nodes ⊆ (Stmt.proc note name params spec body).nodes := by
      intro q member n inside
      have inside : n ∈ params.flatMap FormalParam.nodes := subset_flatMap member inside
      simp [Stmt.nodes, inside]
    obtain ⟨fine', fineW⟩ := HeaderSound.fine inherited (List.Subset.refl _) withinParams fine header paramsSound
    obtain ⟨_, placed⟩ := bodySound.placed inherited.tail.tail.right fineW
    exact ⟨fine', .cons ⟨frame, V, _, fine, sound⟩ (.cons trivial ((ResultSpec.placed_of_header fine header).append placed))⟩
  | .assign note target op value, V, V', inherited, fine, sound => by
    obtain ⟨rfl, assign⟩ := id sound
    exact ⟨fine, .cons ⟨frame, _, _, fine, sound⟩
      ((assign.typed.placed fine.symbols).append (assign.assigned.1.placed fine.symbols))⟩
  | .branch note arms otherwise, V, V', inherited, fine, sound => by
    obtain ⟨rfl, soundArms, soundElse⟩ := id sound
    rw [Stmt.nodes_branch] at inherited ⊢
    exact ⟨fine, .cons ⟨frame, _, _, fine, sound⟩ ((soundArms.placed inherited.tail.left fine).append
      (soundElse.placed inherited.tail.right fine))⟩
  | .loop note control whilst body, V, V', inherited, fine, sound => by
    obtain ⟨rfl, W, W', controlSound, typed, bodySound⟩ := id sound
    have placedControl : W.Fine P ∧ AllPlaced P ((control.map ForControl.nodes).getD []) := by
      cases control with
      | none =>
        cases controlSound
        exact ⟨fine, .nil⟩
      | some f => exact ForControl.Sound.placed inherited fine controlSound
    obtain ⟨_, placed⟩ := bodySound.placed inherited.tail.right placedControl.1
    have placedTest : AllPlaced P (optionalNodes whilst) :=
      Expr.placed_of_optional placedControl.1.symbols fun e isTest => (typed e isTest).1
    exact ⟨fine, .cons ⟨frame, _, _, fine, sound⟩ ((placedControl.2.append placedTest).append placed)⟩
  | .call note callNote callee args, V, V', inherited, fine, sound => by
    obtain ⟨rfl, typed⟩ := id sound
    exact ⟨fine, .cons ⟨frame, _, _, fine, sound⟩ (typed.placed fine.symbols)⟩
  | .ret note value, V, V', inherited, fine, sound => by
    obtain ⟨rfl, result⟩ := id sound
    exact ⟨fine, .cons ⟨frame, _, _, fine, sound⟩ (result.placed fine)⟩
  | .result note value, V, V', inherited, fine, sound => by
    obtain ⟨rfl, result⟩ := id sound
    exact ⟨fine, .cons ⟨frame, _, _, fine, sound⟩ (result.placed fine)⟩

theorem Stmt.SoundList.placed {frame : Int64} : ∀ {ss : List (Stmt Note)} {V V' : View},
    Inherited P (Stmt.listNodes ss) → V.Fine P → Stmt.SoundList frame V ss V' →
    V'.Fine P ∧ AllPlaced P (Stmt.listNodes ss)
  | [], _, _, _, fine, sound => by
    cases sound
    exact ⟨fine, .nil⟩
  | s :: rest, V, V', inherited, fine, ⟨W, first, sound⟩ => by
    obtain ⟨fineW, placed⟩ := first.placed inherited.left fine
    obtain ⟨fine', placedRest⟩ := sound.placed inherited.right fineW
    exact ⟨fine', placed.append placedRest⟩

theorem Stmt.SoundElse.placed {frame : Int64} : ∀ {body : Option (List (Stmt Note))} {V : View},
    Inherited P (Stmt.elseNodes body) → V.Fine P → Stmt.SoundElse frame V body → AllPlaced P (Stmt.elseNodes body)
  | none, _, _, _, _ => .nil
  | some _, _, inherited, fine, ⟨_, sound⟩ => (sound.placed inherited fine).2

theorem Stmt.SoundArms.placed {frame : Int64} : ∀ {arms : List (CondBranch Note)} {V : View},
    Inherited P (Stmt.armNodes arms) → V.Fine P → Stmt.SoundArms frame V arms → AllPlaced P (Stmt.armNodes arms)
  | [], _, _, _, _ => .nil
  | .mk _ _ _ :: _, _, inherited, fine, ⟨typed, ⟨_, sound⟩, rest⟩ =>
    .cons trivial (((typed.1.placed fine.symbols).append (sound.placed inherited.tail.left.right fine).2).append
      (rest.placed inherited.tail.right fine))

end

/-- Every construct of a sound program is sound under symbols that have an inherited property. -/
theorem Program.Sound.placed {p : Program Note} (inherited : Inherited P p.nodes) (fine : V.Fine P)
    (sound : p.Sound V) : AllPlaced P p.nodes := by
  obtain ⟨words, W, _, _, sound⟩ := sound
  exact .cons trivial (sound.placed inherited.tail fine).2

end Ast

end LyaLang
