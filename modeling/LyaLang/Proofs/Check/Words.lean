import LyaLang.Proofs.Check.Void
import LyaLang.Proofs.Emit.Balance
import LyaLang.Proofs.Emit.Linking

/-! # Words that are passed

What a program has to keep so that its calls pass words: the label of a procedure tells its arguments, every
array that is passed or returned by value is one word long, and nothing is stored where the mode is that of
nothing. The first holds of every valid program; the others follow from what the program declares.
-/

namespace LyaLang

open Ast

variable {note : Note} {params : List (FormalParam Note)} {spec : Option (ResultSpec Note)} {P : Procedure → Prop}

/-! ## Arguments of the procedure at a label -/

/-- The entry of a procedure with the number of its arguments. -/
def Ast.Node.entry? : Node Note → Option (Int64 × Int)
  | .stmt (.proc note _ params _ _) => some (note.firstLabel, FormalParam.count params)
  | _ => none

/-- The number of arguments of the procedure of a program at a label. -/
def Ast.Program.arity (p : Program Note) (l : Int64) : Int := numberAt (p.nodes.filterMap Node.entry?) l

theorem Ast.Node.entry?_eq_some {node : Node Note} {entry : Int64 × Int} (isEntry : node.entry? = some entry) :
    ∃ note name params spec body, node = .stmt (.proc note name params spec body) ∧
      entry = (note.firstLabel, (FormalParam.count params : Int)) := by
  cases node with
  | stmt s =>
    cases s with
    | proc note name params spec body => exact ⟨note, name, params, spec, body, rfl, (Option.some.inj isEntry).symm⟩
    | _ => cases isEntry
  | _ => cases isEntry

/-- The entries of procedures are labels of their own. -/
theorem entries_sublist (nodes : List (Node Note)) : ((nodes.filterMap Node.entry?).map Prod.fst).Sublist
    (nodes.flatMap fun n => labelRun n.note.firstLabel n.labelBudget) := by
  induction nodes with
  | nil => exact .slnil
  | cons node rest others =>
    cases isEntry : node.entry? with
    | none =>
      rw [List.filterMap_cons_none isEntry]
      exact others.trans (List.sublist_append_right _ _)
    | some entry =>
      obtain ⟨note, name, params, spec, body, rfl, rfl⟩ := Node.entry?_eq_some isEntry
      have run : labelRun note.firstLabel 3 = note.firstLabel :: [note.firstLabel + 1, note.firstLabel + 2] := by
        simp [labelRun, List.range_succ]
      change (note.firstLabel :: _).Sublist (labelRun note.firstLabel 3 ++ _)
      rw [run]
      exact (others.trans (List.sublist_append_right _ _)).cons_cons _

/-- The label of a procedure tells the number of its arguments. -/
theorem Compiled.arity_eq {source : Bytes} {p : Program Note} {code : Code} (compiled : Compiled source p code)
    (short : source.length < 2 ^ 63) {name : Ident Note} {body : List (Stmt Note)}
    (member : .stmt (.proc note name params spec body) ∈ p.nodes) :
    p.arity note.firstLabel = FormalParam.count params := by
  refine numberAt_of_mem ((entries_sublist _).nodup (Multiset.coe_nodup.mp (compiled.claims_nodup short))) ?_
  exact List.mem_filterMap.mpr ⟨_, member, rfl⟩

/-! ## Properties of procedures -/

/-- The procedures that a program declares have a property. -/
def Symbol.Declares (P : Procedure → Prop) (s : Symbol) : Prop := ∀ p, s.proc = some p → p.builtin = none → P p

theorem Symbol.declares_predefined (P : Procedure → Prop) : ∀ s ∈ predefinedSymbols, s.Declares P := by
  intro s member p isProc free
  have builtin : ∀ s ∈ predefinedSymbols, s.proc.all (·.builtin.isSome) = true := by decide +kernel
  have fixed := builtin s member
  rw [isProc, Option.all_some, free] at fixed
  cases fixed

/-- A property of the procedures among some nodes is inherited. -/
theorem declares_inherited {nodes : List (Node Note)}
    (declared : ∀ {V : View} {note name params spec body q}, (Stmt.proc note name params spec body).nodes ⊆ nodes →
      HeaderSound V note.labels params spec q → P q) : Inherited (Symbol.Declares P) nodes := by
  have plain : ∀ {s : Symbol}, s.proc = none → s.Declares P := by
    intro s none q isProc
    cases none.symm.trans isProc
  constructor
  case ofVariable => exact fun _ _ _ _ _ _ => plain rfl
  case ofSynonym => exact fun _ _ _ _ _ _ _ => plain rfl
  case ofMode => exact fun _ _ _ _ _ _ => plain rfl
  case ofCounter => exact fun _ _ => plain rfl
  case ofParam => exact fun _ _ _ _ _ _ _ _ _ => plain rfl
  case ofProcedure =>
    intro V note name params spec body q serial within _ header r isProc _
    obtain rfl := Option.some.inj isProc
    exact declared within header

/-- What the first statement of a program sees has a property that the predefined symbols have. -/
theorem View.fine_initial {P : Symbol → Prop} (predefined : ∀ s ∈ predefinedSymbols, P s) : View.initial.Fine P where
  symbols s member := ⟨View.good_initial s member, predefined s member⟩
  function _ isFunction := by cases isFunction

section

variable {source : Bytes} {p : Program Note} {code : Code}

/-- A property of the procedures that a program declares holds of all that its nodes see. -/
theorem Compiled.placed (compiled : Compiled source p code) (declared : ∀ {V : View} {note name params spec body q}, (Stmt.proc note name params spec body).nodes ⊆ p.nodes →
      HeaderSound V note.labels params spec q → P q) : AllPlaced (Symbol.Declares P) p.nodes :=
  compiled.sound.placed (declares_inherited declared) (View.fine_initial (Symbol.declares_predefined P))

/-- The label of a procedure that is called tells the number of its parameters. -/
theorem Compiled.counted (compiled : Compiled source p code) (short : source.length < 2 ^ 63) :
    AllPlaced (Symbol.Declares fun q => q.Good ∧ p.arity q.entry = q.params.length) p.nodes := by
  refine compiled.placed ?_
  intro V note name params spec body q within header
  have entry : q.entry = note.firstLabel := header.entry
  have count : FormalParam.count params = q.params.length := by
    rw [count_eq_sum, header.params]
    simp
  refine ⟨header.good, ?_⟩
  rw [entry, compiled.arity_eq short (within List.mem_cons_self), count]

/-! ## Transfers by value -/

namespace Ast

/-- The value of an expression takes one word. -/
def Expr.isWord (e : Expr Note) : Bool := e.width == 1

/-- The value that an action returns takes one word, unless a location is returned. -/
def Expr.isReturnedWord (note : Note) (e : Expr Note) : Bool :=
  (note.symbol.bind (·.proc)).all fun p => p.resultLoc || e.isWord

/-- What a node passes or returns by value takes one word. -/
def Node.transfersWords : Node Note → Bool
  | expr (.call _ callee args) =>
    (callee.note.symbol.bind (·.proc)).all fun p => p.builtin.isSome || (p.params.zip args).all fun x => x.1.loc || x.2.isWord
  | stmt (.ret note value) => value.all (·.isReturnedWord note)
  | stmt (.result note value) => value.isReturnedWord note
  | _ => true

/-- A node that declares that an array is passed or returned by value. -/
def Node.transfersArray : Node Note → Bool
  | formalParam q => !q.loc && q.mode.note.mode.any Mode.isArray
  | resultSpec r => !r.loc && r.mode.note.mode.any Mode.isArray
  | _ => false

end Ast

theorem forall₂_of_zip {R : Parameter → Expr Note → Prop} {ps : List Parameter} {args : List (Expr Note)}
    (same : ps.length = args.length) (each : ∀ x ∈ ps.zip args, R x.1 x.2) : List.Forall₂ R ps args :=
  List.forall₂_iff_zip.mpr ⟨same, fun member => each _ member⟩

/-- A call passes words if what it passes by value takes one. -/
theorem Compiled.passes (compiled : Compiled source p code) (short : source.length < 2 ^ 63) {n : Node Note}
    (member : n ∈ p.nodes) (words : n.transfersWords = true) : n.Passes p.arity := by
  cases n with
  | expr e =>
    cases e with
    | call note callee args =>
      intro q called declared
      obtain ⟨symbols, fine, _, ⟨symbol, proc, found, isSymbol, _, isProc, takes, _⟩, _⟩ := compiled.counted short _ member
      rw [Node.transfersWords, called, Option.all_some, declared] at words
      rw [isSymbol] at called
      obtain rfl := Option.mem_unique isProc called
      refine ⟨((fine symbol (findSymbol_some found).1).2 proc isProc declared).2, ?_⟩
      rw [Procedure.Takes, declared] at takes
      refine forall₂_of_zip takes.length_eq fun x inside byValue => ?_
      have word := List.all_eq_true.mp words x inside
      rw [byValue] at word
      exact eq_of_beq word
    | _ => trivial
  | _ => trivial

/-- The value that an action returns is something. -/
theorem returnsWord_of_isReturnedWord {V : View} (goods : ∀ q, P q → q.Good)
    (fine : V.Fine (Symbol.Declares P)) {value : Option (Expr Note)} (sound : ResultSound V note value)
    {e : Expr Note} (isValue : value = some e) (word : e.isReturnedWord note = true) : ReturnsWord note e := by
  obtain ⟨f, q, isFunction, isSymbol, isProc, values⟩ := sound
  obtain ⟨⟨_, type⟩, notVoid, _⟩ := values e isValue
  obtain ⟨has, declared⟩ := fine.function f isFunction
  have free := declared q isProc
  obtain ⟨proper, good⟩ := goods q (has q isProc free)
  rw [free] at good
  intro r called direct
  rw [isSymbol] at called
  obtain rfl := Option.mem_unique isProc called
  rw [Expr.isReturnedWord, isSymbol, Option.bind_some, isProc, Option.all_some, direct] at word
  have size : q.result.size = 1 := (good.2.2 direct).resolve_left notVoid
  have some : q.result.size ≠ 0 := by simp [size]
  exact ⟨eq_of_beq word, type ▸ proper.type_ne_void some⟩

/-! ## Programs without arrays by value -/

/-- What a procedure takes and gives by value is no array. -/
structure Procedure.Single (q : Procedure) : Prop where
  params : ∀ r ∈ q.params, r.loc = false → ∀ m, r.mode = some m → m.isArray = false
  result : q.resultLoc = false → q.result.isArray = false

theorem Ast.HeaderSound.single {V : View} {name : Ident Note} {body : List (Stmt Note)} {q : Procedure}
    (header : HeaderSound V note.labels params spec q)
    (scalar : ∀ n ∈ (Stmt.proc note name params spec body).nodes, n.transfersArray = false) : q.Single := by
  constructor
  · intro r member byValue m isMode
    rw [header.params] at member
    obtain ⟨group, inside, member⟩ := List.mem_flatMap.mp member
    obtain ⟨_, _, rfl⟩ := List.mem_map.mp member
    have param : .formalParam group ∈ params.flatMap FormalParam.nodes := List.mem_flatMap.mpr ⟨group, inside, List.mem_cons_self⟩
    have free := scalar (.formalParam group) (by simp [Stmt.nodes, param])
    have direct : group.loc = false := byValue
    have ofGroup : group.mode.note.mode = some m := isMode
    rw [Node.transfersArray, direct, ofGroup] at free
    exact free
  · intro direct
    have result := header.result
    have loc := header.resultLoc
    cases spec with
    | none =>
      rw [show q.result = .void from result]
      rfl
    | some r =>
      have byValue : r.loc = false := loc.symm.trans direct
      have free := scalar (.resultSpec r) (by simp [Stmt.nodes, ResultSpec.nodes])
      rw [Node.transfersArray, byValue, result.2] at free
      exact free

/-- What is no array takes one word. -/
theorem Ast.Expr.isWord_of_type {e : Expr Note} {m : Mode} (type : e.type = m.type) (single : m.isArray = false) :
    e.isWord = true := beq_iff_eq.mpr (Expr.width_eq_one (type ▸ single))

/-- Transfers by value are of one word if the program declares none of arrays. -/
theorem Compiled.transfersWords (compiled : Compiled source p code)
    (scalar : ∀ n ∈ p.nodes, n.transfersArray = false) : ∀ n ∈ p.nodes, n.transfersWords = true := by
  have placed : AllPlaced (Symbol.Declares Procedure.Single) p.nodes :=
    compiled.placed fun within header => header.single fun n member => scalar n (within member)
  have returned : ∀ {V : View} {note : Note} {value : Option (Expr Note)}, V.Fine (Symbol.Declares Procedure.Single) →
      ResultSound V note value → ∀ e, value = some e → e.isReturnedWord note = true := by
    intro V note value fine sound e isValue
    obtain ⟨f, q, isFunction, isSymbol, isProc, values⟩ := sound
    obtain ⟨⟨_, type⟩, _⟩ := values e isValue
    obtain ⟨has, declared⟩ := fine.function f isFunction
    rw [Expr.isReturnedWord, isSymbol, Option.bind_some, isProc, Option.all_some]
    cases direct : q.resultLoc with
    | true => rfl
    | false => exact Expr.isWord_of_type type ((has q isProc (declared q isProc)).result direct)
  intro n member
  have here := placed n member
  cases n with
  | expr e =>
    cases e with
    | call note callee args =>
      obtain ⟨symbols, fine, _, ⟨symbol, proc, found, isSymbol, _, isProc, takes, _⟩, _⟩ := here
      rw [Node.transfersWords, isSymbol, Option.bind_some, isProc, Option.all_some]
      cases declared : proc.builtin with
      | some b => rfl
      | none =>
        have single := (fine symbol (findSymbol_some found).1).2 proc isProc declared
        rw [Procedure.Takes, declared] at takes
        refine List.all_eq_true.mpr fun x inside => ?_
        obtain ⟨m, isMode, type, _⟩ := (List.forall₂_iff_zip.mp takes).2 inside
        cases byValue : x.1.loc with
        | true => rfl
        | false => exact Expr.isWord_of_type type (single.params x.1 (List.of_mem_zip inside).1 byValue m isMode)
    | _ => rfl
  | stmt s =>
    cases s with
    | ret note value =>
      obtain ⟨frame, V, V', fine, rfl, sound⟩ := here
      exact (Option.all_eq_true _ _).mpr (returned fine sound)
    | result note value =>
      obtain ⟨frame, V, V', fine, rfl, sound⟩ := here
      exact returned fine sound value rfl
    | _ => rfl
  | _ => rfl

/-- Statements store something and transfer words in a program that does not name `void` and transfers words. -/
theorem Compiled.allWords (compiled : Compiled source p code) (short : source.length < 2 ^ 63)
    (unnamed : ∀ n ∈ p.nodes, n.isVoid = false) (words : ∀ n ∈ p.nodes, n.transfersWords = true) :
    AllWords p.arity p.nodes := by
  refine ⟨fun n member => compiled.passes short member (words n member), fun n member => ?_⟩
  have free : AllPlaced Symbol.VoidFree p.nodes :=
    compiled.sound.placed (voidFree_inherited unnamed) (View.fine_initial Symbol.voidFree_predefined)
  have placed := compiled.counted short n member
  have word := words n member
  cases n with
  | stmt s =>
    cases s with
    | assign note target op value =>
      obtain ⟨frame, V, V', fine, rfl, sound⟩ := free _ member
      exact sound.typed.holds (fun s member => (fine.symbols s member).1) (fun s member => (fine.symbols s member).2)
        sound.location
    | ret note value =>
      obtain ⟨frame, V, V', fine, rfl, sound⟩ := placed
      intro e isValue
      exact returnsWord_of_isReturnedWord (fun q has => has.1) fine sound isValue ((Option.all_eq_true _ _).mp word e isValue)
    | result note value =>
      obtain ⟨frame, V, V', fine, rfl, sound⟩ := placed
      exact returnsWord_of_isReturnedWord (fun q has => has.1) fine sound rfl word
    | _ => trivial
  | _ => trivial

end

end LyaLang
