import LyaLang.Proofs.Check.Words
import LyaLang.Proofs.Tree.Subtree

/-! # Words passed and returned by value

The value of an argument or of a result takes as many words as the mode of the expression has, whatever mode the
procedure declares. A procedure takes and gives single words, and the types that are compared where it is called
do not tell how long an array is: what is passed is one word exactly if the expression is no longer than that.
-/

namespace LyaLang

open Ast

/-- Code that pushes a number of words, from whatever height it starts. -/
def Pushes (arity : Int64 → Int) (drafts : List Draft) (count : Int) : Prop :=
  ∀ h, 0 ≤ h → ∃ labels hs, Rises labels arity h (asSegments drafts) hs (h + count)

theorem Pushes.of_rising {arity : Int64 → Int} {ss : List Segment} {count : Int}
    (rising : ∀ h, 0 ≤ h → Rising arity [] h ss (h + count)) (distinct : (definedLabels (codeOf ss)).Nodup) :
    Pushes arity (codeOf ss) count := by
  intro h nonneg
  obtain ⟨labels, hs, rises⟩ := (rising h nonneg).exists_labels distinct
  exact ⟨labels, hs, rises.flatten⟩

namespace Ast

theorem Expr.nodes_sublist {args : List (Expr Note)} {a : Expr Note} (member : a ∈ args) :
    a.nodes.Sublist (Expr.listNodes args) := by
  induction args with
  | nil => cases member
  | cons b rest ih =>
    rcases List.mem_cons.mp member with rfl | member
    · exact List.sublist_append_left _ _
    · exact (ih member).trans (List.sublist_append_right _ _)

end Ast

section

variable {source : Bytes} {p : Program Note} {code : Code}

/-- Nodes of a program have labels that are all different. -/
theorem Compiled.claims_of_sublist (compiled : Compiled source p code) (short : source.length < 2 ^ 63)
    {nodes : List (Node Note)} (inside : nodes.Sublist p.nodes) : (claims nodes).Nodup :=
  (List.Sublist.flatMap inside _).nodup (Multiset.coe_nodup.mp (compiled.claims_nodup short))

/-- The value of an expression pushes its width. -/
theorem Compiled.pushes_value (compiled : Compiled source p code) (short : source.length < 2 ^ 63) {symbols : List Symbol}
    (good : ∀ s ∈ symbols, s.Good) {e : Expr Note} (typed : e.Typed symbols) (inside : e.nodes.Sublist p.nodes)
    (words : ∀ n ∈ e.nodes, n.transfersWords = true) (known : e.type ≠ .void) : Pushes p.arity e.valueCode e.width := by
  have passes : AllPass p.arity e.nodes :=
    fun n member => compiled.passes short (inside.subset member) (words n member)
  rw [← e.codeOf_valueSegments]
  refine .of_rising (fun h nonneg => typed.rising good passes known [] nonneg) ?_
  rw [e.codeOf_valueSegments]
  change (defines e.valueCode).Nodup
  rw [Expr.defines_valueCode good typed]
  exact compiled.claims_of_sublist short inside

/-- The arguments of a call push a word for each parameter. -/
theorem Compiled.pushes_arguments (compiled : Compiled source p code) (short : source.length < 2 ^ 63)
    {symbols : List Symbol} (good : ∀ s ∈ symbols, s.Good) {args : List (Expr Note)}
    (typed : Expr.TypedList symbols args) (inside : (Expr.listNodes args).Sublist p.nodes)
    (words : ∀ n ∈ Expr.listNodes args, n.transfersWords = true) {ps : List Parameter}
    (takes : List.Forall₂ Parameter.Takes ps args) (carries : (Passing.params ps).Carries args) :
    Pushes p.arity (Expr.argumentsCode (.params ps) args) ps.length := by
  have passes : AllPass p.arity (Expr.listNodes args) :=
    fun n member => compiled.passes short (inside.subset member) (words n member)
  have fits : Passing.Fits args (.params ps) := takes
  rw [← codeOf_argumentSegments]
  refine .of_rising (fun h nonneg => typed.argumentsRising good passes fits carries [] nonneg) ?_
  rw [codeOf_argumentSegments]
  change (defines (Expr.argumentsCode (.params ps) args)).Nodup
  rw [Expr.defines_argumentsCode good typed fits]
  exact compiled.claims_of_sublist short inside

/-- An action of a program returns a value. -/
def Ast.Program.Returns (p : Program Note) (note : Note) (e : Expr Note) : Prop :=
  .stmt (.ret note (some e)) ∈ p.nodes ∨ .stmt (.result note e) ∈ p.nodes

/-- Arguments and results by value push as many words as they are wide, if the calls inside them pass words. -/
structure Ast.Program.PushesWidths (p : Program Note) : Prop where
  /-- A call passes an argument for each parameter, and one word for each if no value is wider. -/
  arguments : ∀ note callee args q, .expr (.call note callee args) ∈ p.nodes →
    callee.note.symbol.bind (·.proc) = some q → q.builtin = none → (∀ n ∈ Expr.listNodes args, n.transfersWords = true) →
    args.length = q.params.length ∧
    callCode callee (fun how => Expr.argumentsCode how args) =
      .op1 .alc 1 :: (Expr.argumentsCode (.params q.params) args ++ [.op1 .cfu q.entry]) ∧
    (∀ x ∈ q.params.zip args, x.1.loc = false → Pushes p.arity x.2.valueCode x.2.width) ∧
    ((∀ x ∈ q.params.zip args, x.1.loc = false → x.2.width = 1) →
      Pushes p.arity (Expr.argumentsCode (.params q.params) args) q.params.length)
  /-- A result is pushed before it is stored. -/
  results : ∀ note e q, p.Returns note e → note.symbol.bind (·.proc) = some q → q.resultLoc = false →
    (∀ n ∈ e.nodes, n.transfersWords = true) →
    resultCode note (some e) = e.valueCode ++ [.op2 .stv q.level (-(q.arity.number + 3))] ∧
    Pushes p.arity e.valueCode e.width

/-- A by-value parameter takes something. -/
theorem Parameter.Takes.type_ne_void {q : Parameter} {a : Expr Note} (takes : q.Takes a) (good : q.Good)
    (byValue : q.loc = false) : a.type ≠ .void := by
  obtain ⟨m, isMode, type, _⟩ := takes
  obtain ⟨m', same, proper, sized⟩ := good
  obtain rfl := Option.mem_unique isMode same
  have some : m.size ≠ 0 := by simp [sized byValue]
  exact type ▸ proper.type_ne_void some

/-- The value that an action returns is sound where the action stands. -/
theorem Compiled.resultSound (compiled : Compiled source p code) (short : source.length < 2 ^ 63) {note : Note}
    {e : Expr Note} (returns : p.Returns note e) :
    ∃ V : View, V.Fine (Symbol.Declares fun q => q.Good ∧ p.arity q.entry = q.params.length) ∧
      ResultSound V note (some e) ∧ e.nodes.Sublist p.nodes := by
  rcases returns with member | member
  · obtain ⟨frame, V, V', fine, rfl, sound⟩ := compiled.counted short _ member
    exact ⟨V', fine, sound, (List.sublist_cons_self _ _).trans (p.nested.sublist member)⟩
  · obtain ⟨frame, V, V', fine, rfl, sound⟩ := compiled.counted short _ member
    exact ⟨V', fine, sound, (List.sublist_cons_self _ _).trans (p.nested.sublist member)⟩

/-- What a program passes and returns by value takes the words of the value. -/
theorem by_value_transfers_push_width (short : source.length < 2 ^ 63) (valid : Valid source p) : p.PushesWidths := by
  obtain ⟨code, _, compiled, _⟩ := valid.compile
  constructor
  · intro note callee args q member called declared words
    obtain ⟨symbols, fine, typedArgs, ⟨symbol, proc, found, isSymbol, _, isProc, takes, _⟩, _⟩ :=
      compiled.counted short _ member
    have good : ∀ s ∈ symbols, s.Good := fun s inside => (fine s inside).1
    have same : symbol.proc = some q := by
      rw [isSymbol] at called
      exact called
    obtain rfl := Option.mem_unique isProc same
    obtain ⟨_, goodProc⟩ := ((fine symbol (findSymbol_some found).1).2 proc isProc declared).1
    rw [declared] at goodProc
    rw [Procedure.Takes, declared] at takes
    have inside : (Expr.listNodes args).Sublist p.nodes :=
      ((List.sublist_cons_self _ _).trans (List.sublist_cons_self _ _)).trans (p.nested.sublist member)
    refine ⟨takes.length_eq.symm, ?_, ?_, ?_⟩
    · rw [callCode, called]
      dsimp only
      rw [declared]
    · intro x pair byValue
      obtain ⟨isParam, isArg⟩ := List.of_mem_zip pair
      have part := Expr.nodes_sublist isArg
      refine compiled.pushes_value short good (Expr.typedList_iff.mp typedArgs x.2 isArg) (part.trans inside)
        (fun n below => words n (part.subset below)) ?_
      exact ((List.forall₂_iff_zip.mp takes).2 pair).type_ne_void (goodProc.2.1 x.1 isParam) byValue
    · intro single
      refine compiled.pushes_arguments short good typedArgs inside words takes ?_
      exact carries_of_takes goodProc.2.1 takes (forall₂_of_zip takes.length_eq single)
  · intro note e q returns called direct words
    obtain ⟨V, fine, sound, inside⟩ := compiled.resultSound short returns
    obtain ⟨f, proc, isFunction, isSymbol, isProc, values⟩ := sound
    obtain ⟨⟨typed, type⟩, notVoid, _⟩ := values e rfl
    have same : f.proc = some q := by
      rw [isSymbol] at called
      exact called
    obtain rfl := Option.mem_unique isProc same
    obtain ⟨has, declared⟩ := fine.function f isFunction
    obtain ⟨proper, goodProc⟩ := (has proc isProc (declared proc isProc)).1
    rw [declared proc isProc] at goodProc
    have size : proc.result.size = 1 := (goodProc.2.2 direct).resolve_left notVoid
    have some : proc.result.size ≠ 0 := by simp [size]
    refine ⟨?_, compiled.pushes_value short (fun s member => (fine.symbols s member).1) typed inside words
      (type ▸ proper.type_ne_void some)⟩
    unfold resultCode
    rw [called]
    dsimp only
    rw [direct]
    rfl

/-- A program that passes a value and a location, and returns a conditional value. -/
theorem value_and_location_push_width : ∃ made code,
    compile "f: proc(a int, b array[1:2] int loc) returns(int); return if a < b[1] then a else b[2] fi; end; dcl x array[1:2] int; print(f(3, x));" =
      .ok made ∧ made.result = .ok code ∧ made.tree.PushesWidths ∧
      ∀ n ∈ made.tree.nodes, n.transfersWords = true := by
  obtain ⟨made, code, compiled, linked, words⟩ := @exists_accepted
    "f: proc(a int, b array[1:2] int loc) returns(int); return if a < b[1] then a else b[2] fi; end; dcl x array[1:2] int; print(f(3, x));"
    (fun made _ => made.tree.nodes.all Node.transfersWords) (by decide +kernel)
  obtain ⟨valid, _⟩ := compiled_of_ok compiled linked
  exact ⟨made, code, compiled, linked, by_value_transfers_push_width (by decide +kernel) valid,
    List.all_eq_true.mp words⟩

/-- The value of a by-value argument can take more than a word. -/
def Ast.Node.passesBlock : Node Note → Bool
  | expr (.call _ callee args) =>
    (callee.note.symbol.bind (·.proc)).any fun q => (q.params.zip args).any fun x => !x.1.loc && 1 < x.2.width
  | _ => false

/-- An array of three words is accepted for a parameter of one word. Two of the words it pushes are never removed, so
the program ends with them on the stack. -/
theorem array_argument_pushes_three_words : ∃ made code,
    compile "f: proc(a array[1:1] int); end; dcl x array[1:3] int; f(x);" = .ok made ∧ made.result = .ok code ∧
      made.tree.nodes.any Node.passesBlock = true ∧
      ((Machine.create 64 []).run code {} 20).1.finish = .finished ∧ ((Machine.create 64 []).run code {} 20).2.sp = 1 := by
  obtain ⟨made, code, compiled, linked, run⟩ := @exists_accepted
    "f: proc(a array[1:1] int); end; dcl x array[1:3] int; f(x);"
    (fun made code => made.tree.nodes.any Node.passesBlock &&
      ((Machine.create 64 []).run code {} 20).1.finish == .finished && ((Machine.create 64 []).run code {} 20).2.sp == 1)
    (by decide +kernel)
  obtain ⟨front, sp⟩ := Bool.and_eq_true_iff.mp run
  obtain ⟨passes, finish⟩ := Bool.and_eq_true_iff.mp front
  exact ⟨made, code, compiled, linked, passes, beq_iff_eq.mp finish, beq_iff_eq.mp sp⟩

end

end LyaLang
