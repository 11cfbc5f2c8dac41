import LyaLang.Proofs.Check.Sound
import LyaLang.Proofs.Emit.Expr

/-! # What the generator reads

The generator follows the tree and reads the notes on its way: the symbol and the mode of a name, the mode of
an expression, the procedure of a call, the counter and the words of a counted loop, the procedure around a
`return`, and the labels of whatever branches. All of it is there once a tree is sound and has its labels.
-/

namespace LyaLang.Ast

variable {symbols : List Symbol}

variable {frame : Int64} {V V' : View}

mutual

/-- What the generator reads on an expression is there. -/
def Expr.Annotated : Expr Note → Prop
  | int note _ | bool note _ | char note _ | text note _ => note.mode.isSome = true
  | ident id => id.note.symbol.isSome = true ∧ id.note.mode.isSome = true
  | unary note _ x | deref note x | ref note x => note.mode.isSome = true ∧ x.Annotated
  | binary note _ x y => note.mode.isSome = true ∧ x.Annotated ∧ y.Annotated
  | cond note arms otherwise =>
    note.mode.isSome = true ∧ note.labels.isSome = true ∧ Expr.AnnotatedArms arms ∧ otherwise.Annotated
  | call note callee args =>
    note.mode.isSome = true ∧ (callee.note.symbol.bind (·.proc)).isSome = true ∧ Expr.AnnotatedList args
  | index note x indexes => note.mode.isSome = true ∧ x.Annotated ∧ Expr.AnnotatedList indexes

/-- What the generator reads on expressions is there. -/
def Expr.AnnotatedList : List (Expr Note) → Prop
  | [] => True
  | e :: rest => e.Annotated ∧ Expr.AnnotatedList rest

/-- What the generator reads on the arms of a conditional expression is there. -/
def Expr.AnnotatedArms : List (CondValue Note) → Prop
  | [] => True
  | .mk _ test value :: rest => test.Annotated ∧ value.Annotated ∧ Expr.AnnotatedArms rest

end

/-- What the generator reads on a counting clause is there. -/
structure ForControl.Annotated (f : ForControl Note) : Prop where
  counter : ∃ symbol, f.note.symbol = some symbol ∧ symbol.mode.isSome = true
  slots : f.note.slots.isSome = true
  start : f.start.Annotated
  step : ∀ e, f.step = some e → e.Annotated
  stop : f.stop.Annotated

/-- What the generator reads on a declaration is there. -/
structure Declaration.Annotated (d : Declaration Note) : Prop where
  names : ∀ id ∈ d.names, ∃ symbol, id.note.symbol = some symbol ∧ symbol.mode.isSome = true
  init : ∀ e, d.init = some e → e.Annotated

mutual

/-- What the generator reads on a statement is there. -/
def Stmt.Annotated : Stmt Note → Prop
  | declare _ decls => ∀ d ∈ decls, d.Annotated
  | synonym _ _ | modes _ _ => True
  | proc note _ _ _ body =>
    (note.symbol.bind (·.proc)).isSome = true ∧ note.labels.isSome = true ∧ note.frame.isSome = true ∧
      Stmt.AnnotatedList body
  | assign _ target _ value => target.Annotated ∧ value.Annotated
  | branch note arms otherwise => note.labels.isSome = true ∧ Stmt.AnnotatedArms arms ∧ Stmt.AnnotatedElse otherwise
  | loop note control whilst body =>
    note.labels.isSome = true ∧ (∀ f, control = some f → f.Annotated) ∧ (∀ e, whilst = some e → e.Annotated) ∧
      Stmt.AnnotatedList body
  | call _ callNote callee args => (Expr.call callNote callee args).Annotated
  | ret note value => (note.symbol.bind (·.proc)).isSome = true ∧ ∀ e, value = some e → e.Annotated
  | result note value => (note.symbol.bind (·.proc)).isSome = true ∧ value.Annotated

/-- What the generator reads on statements is there. -/
def Stmt.AnnotatedList : List (Stmt Note) → Prop
  | [] => True
  | s :: rest => s.Annotated ∧ Stmt.AnnotatedList rest

/-- What the generator reads on an optional body is there. -/
def Stmt.AnnotatedElse : Option (List (Stmt Note)) → Prop
  | none => True
  | some body => Stmt.AnnotatedList body

/-- What the generator reads on the arms of an `if` chain is there. -/
def Stmt.AnnotatedArms : List (CondBranch Note) → Prop
  | [] => True
  | .mk _ test body :: rest => test.Annotated ∧ Stmt.AnnotatedList body ∧ Stmt.AnnotatedArms rest

end

/-- What the generator reads on a program is there. -/
structure Program.Annotated (p : Program Note) : Prop where
  frame : p.note.frame.isSome = true
  stmts : Stmt.AnnotatedList p.stmts

/-! ## Expressions -/

theorem CallTyped.isSome_proc {callee : Ident Note} {args : List (Expr Note)} {result : Option Mode}
    (typed : CallTyped symbols callee args result) : (callee.note.symbol.bind (·.proc)).isSome = true := by
  obtain ⟨symbol, proc, _, isSymbol, _, isProc, _⟩ := typed
  rw [isSymbol]
  exact Option.isSome_iff_exists.mpr ⟨proc, isProc⟩

/-- A node that needs labels has some. -/
private theorem isSome_of_own {note : Note} {first : Int64} {count : Nat}
    (own : note.origin.labels = if count = 0 then none else some ⟨first, count⟩) (needed : count ≠ 0) :
    note.labels.isSome = true := by
  rw [if_neg needed] at own
  exact Option.isSome_iff_exists.mpr ⟨_, own⟩

theorem Expr.Typed.isSome_mode (good : ∀ s ∈ symbols, s.Good) {e : Expr Note} (typed : e.Typed symbols) :
    e.note.mode.isSome = true := by
  obtain ⟨m, isMode, _⟩ := typed.hasMode good
  exact Option.isSome_iff_exists.mpr ⟨m, isMode⟩

mutual

theorem Expr.Typed.annotated (good : ∀ s ∈ symbols, s.Good) :
    ∀ {e : Expr Note}, e.Typed symbols → Labeled (e.map Note.origin).nodes → e.Annotated
  | .int _ _, typed, _ | .bool _ _, typed, _ | .char _ _, typed, _ | .text _ _, typed, _ => typed.isSome_mode good
  | .ident id, typed, _ => by
    refine ⟨?_, typed.isSome_mode good⟩
    obtain ⟨symbol, _, isSymbol, _⟩ := typed
    exact Option.isSome_iff_exists.mpr ⟨symbol, isSymbol⟩
  | .unary _ _ _, typed, labeled | .deref _ _, typed, labeled | .ref _ _, typed, labeled =>
    ⟨typed.isSome_mode good, typed.1.annotated good labeled.tail⟩
  | .binary _ _ _ _, typed, labeled =>
    ⟨typed.isSome_mode good, typed.1.annotated good labeled.tail.left, typed.2.1.annotated good labeled.tail.right⟩
  | .cond _ _ _, typed, labeled => by
    obtain ⟨⟨first, own⟩, labeled⟩ := labeled_cons.mp labeled
    exact ⟨typed.isSome_mode good, isSome_of_own own (Nat.succ_ne_zero _), typed.1.annotated good labeled.left,
      typed.2.1.annotated good labeled.right⟩
  | .call _ _ _, typed, labeled =>
    ⟨typed.isSome_mode good, typed.2.1.isSome_proc, typed.1.annotated good labeled.tail.tail⟩
  | .index _ _ _, typed, labeled =>
    ⟨typed.isSome_mode good, typed.1.annotated good labeled.tail.left, typed.2.2.1.annotated good labeled.tail.right⟩

theorem Expr.TypedList.annotated (good : ∀ s ∈ symbols, s.Good) : ∀ {es : List (Expr Note)}, Expr.TypedList symbols es →
    Labeled (Expr.listNodes (Expr.mapList Note.origin es)) → Expr.AnnotatedList es
  | [], _, _ => trivial
  | _ :: _, typed, labeled => ⟨typed.1.annotated good labeled.left, typed.2.annotated good labeled.right⟩

theorem Expr.TypedArms.annotated (good : ∀ s ∈ symbols, s.Good) {type : ValueType} : ∀ {arms : List (CondValue Note)},
    Expr.TypedArms symbols type arms → Labeled (Expr.armNodes (Expr.mapArms Note.origin arms)) → Expr.AnnotatedArms arms
  | [], _, _ => trivial
  | .mk _ _ _ :: _, typed, labeled => by
    obtain ⟨test, _, value, _, rest⟩ := typed
    exact ⟨test.annotated good labeled.tail.left.left, value.annotated good labeled.tail.left.right,
      rest.annotated good labeled.tail.right⟩

end

/-! ## Statements -/

theorem NamesSound.annotated {make : Ident Note → Symbol} {names : List (Ident Note)} (sound : NamesSound frame make V names V') :
    ∀ id ∈ names, ∃ symbol, id.note.symbol = some symbol ∧ symbol.mode.isSome = true := by
  intro id member
  obtain ⟨W, serial, _, isSymbol, m, isMode, _⟩ := (sound.walk (I := fun _ => True) trivial fun _ _ _ _ _ _ _ => trivial).2 id member
  exact ⟨_, isSymbol, Option.isSome_iff_exists.mpr ⟨m, isMode⟩⟩

theorem Declaration.Sound.annotated {d : Declaration Note} (good : V.Good)
    (sound : d.Sound frame V V') (labeled : Labeled (d.map Note.origin).nodes) : d.Annotated := by
  obtain ⟨m, _, _, _, initial, names⟩ := sound
  refine ⟨names.annotated, fun e isInit => ?_⟩
  rw [isInit] at initial
  exact initial.1.annotated good (labeled.tail.right.optional isInit)

theorem ForControl.Sound.annotated {f : ForControl Note} (good : V.Good)
    (sound : f.Sound frame V V') (labeled : Labeled (f.map Note.origin).nodes) : f.Annotated := by
  have clauses := labeled.tail.tail
  obtain ⟨symbol, W, isSymbol, _, counter, _, slots⟩ := sound.counter
  refine ⟨⟨symbol, isSymbol, ?_⟩, ?_, sound.start.1.annotated good clauses.left.left,
    fun e isStep => (sound.step e isStep).1.annotated good (clauses.left.right.optional isStep),
    sound.stop.1.annotated good clauses.right⟩
  · rcases counter with ⟨found, _⟩ | ⟨serial, _, rfl, _⟩
    · obtain ⟨m, isMode, _⟩ := good symbol (findSymbol_some found).1
      exact Option.isSome_iff_exists.mpr ⟨m, isMode⟩
    · rfl
  · split at slots
    · rw [slots.2.1]
      rfl
    · rw [slots.1]
      rfl

private theorem declarations_annotated (good : V.Good) {ds : List (Declaration Note)}
    (sound : EachSound (Declaration.Sound frame) V ds V')
    (labeled : Labeled ((ds.map (Declaration.map Note.origin)).flatMap Declaration.nodes)) : ∀ d ∈ ds, d.Annotated := by
  induction ds generalizing V with
  | nil => exact List.forall_mem_nil _
  | cons d rest ih =>
    obtain ⟨W, first, sound⟩ := sound
    exact List.forall_mem_cons.mpr ⟨first.annotated good labeled.left, ih (first.good good) sound labeled.right⟩

theorem ResultSound.annotated {note : Note} {value : Option (Expr Note)} (good : V.Good)
    (sound : ResultSound V note value) (labeled : Labeled (optionalNodes (value.map (Expr.map Note.origin)))) :
    (note.symbol.bind (·.proc)).isSome = true ∧ ∀ e, value = some e → e.Annotated := by
  obtain ⟨f, p, _, isSymbol, isProc, result⟩ := sound
  refine ⟨?_, fun e isValue => (result e isValue).1.1.annotated good (labeled.optional isValue)⟩
  rw [isSymbol]
  exact Option.isSome_iff_exists.mpr ⟨p, isProc⟩

mutual

theorem Stmt.Sound.annotated {frame : Int64} :
    ∀ {s : Stmt Note} {V V' : View}, V.Good → s.Sound frame V V' → Labeled (s.map Note.origin).nodes → s.Annotated
  | .declare _ _, _, _, good, sound, labeled => declarations_annotated good sound labeled.tail
  | .synonym _ _, _, _, _, _, _ | .modes _ _, _, _, _, _, _ => trivial
  | .proc note name params spec body, V, V', good, sound, labeled => by
    obtain ⟨⟨first, own⟩, labeled⟩ := labeled_cons.mp labeled
    obtain ⟨serial, p, words, W, W', rfl, isSymbol, _, header, isFrame, _, paramsSound, sound⟩ := sound
    have goodBody : W.Good := paramsSound.good ((good.declare (header.goodSymbol name) serial).enter _)
    refine ⟨?_, isSome_of_own own (Nat.succ_ne_zero _), ?_, sound.annotated goodBody labeled.tail.right⟩
    · rw [isSymbol]
      rfl
    · rw [isFrame]
      rfl
  | .assign _ _ _ _, _, _, good, sound, labeled =>
    ⟨sound.2.typed.annotated good labeled.tail.left, sound.2.assigned.1.annotated good labeled.tail.right⟩
  | .branch note arms otherwise, V, V', good, sound, labeled => by
    have nodes := Stmt.nodes_branch (note.origin) (Stmt.mapArms Note.origin arms) (Stmt.mapElse Note.origin otherwise)
    obtain ⟨⟨first, own⟩, labeled⟩ := labeled_cons.mp (nodes ▸ labeled)
    exact ⟨isSome_of_own own (Nat.succ_ne_zero _), sound.2.1.annotated good labeled.left,
      sound.2.2.annotated good labeled.right⟩
  | .loop note control whilst body, V, V', good, sound, labeled => by
    obtain ⟨⟨first, own⟩, labeled⟩ := labeled_cons.mp labeled
    obtain ⟨_, W, W', controlled, tested, sound⟩ := sound
    have goodBody : W.Good := View.Good.inLoop good controlled
    refine ⟨isSome_of_own own (Nat.succ_ne_zero _), ?_, ?_, sound.annotated goodBody labeled.right⟩
    · rintro f rfl
      exact controlled.annotated good labeled.left.left
    · rintro e rfl
      exact (tested e rfl).1.annotated goodBody labeled.left.right
  | .call _ _ _ _, _, _, good, sound, labeled | .ret _ _, _, _, good, sound, labeled =>
    sound.2.annotated good labeled.tail
  | .result _ value, _, _, good, sound, labeled => by
    obtain ⟨isProc, annotated⟩ := sound.2.annotated good labeled.tail
    exact ⟨isProc, annotated value rfl⟩

theorem Stmt.SoundList.annotated {frame : Int64} : ∀ {ss : List (Stmt Note)} {V V' : View}, V.Good →
    Stmt.SoundList frame V ss V' → Labeled (Stmt.listNodes (Stmt.mapList Note.origin ss)) → Stmt.AnnotatedList ss
  | [], _, _, _, _, _ => trivial
  | _ :: _, _, _, good, sound, labeled => by
    obtain ⟨W, first, sound⟩ := sound
    exact ⟨first.annotated good labeled.left, sound.annotated (first.good good) labeled.right⟩

theorem Stmt.SoundElse.annotated {frame : Int64} : ∀ {otherwise : Option (List (Stmt Note))} {V : View}, V.Good →
    Stmt.SoundElse frame V otherwise → Labeled (Stmt.elseNodes (Stmt.mapElse Note.origin otherwise)) →
    Stmt.AnnotatedElse otherwise
  | none, _, _, _, _ => trivial
  | some _, _, good, sound, labeled => by
    obtain ⟨W, sound⟩ := sound
    exact sound.annotated good labeled

theorem Stmt.SoundArms.annotated {frame : Int64} : ∀ {arms : List (CondBranch Note)} {V : View}, V.Good →
    Stmt.SoundArms frame V arms → Labeled (Stmt.armNodes (Stmt.mapArms Note.origin arms)) → Stmt.AnnotatedArms arms
  | [], _, _, _, _ => trivial
  | .mk _ _ _ :: _, V, good, sound, labeled => by
    obtain ⟨typed, ⟨W, sound⟩, rest⟩ := sound
    exact ⟨typed.1.annotated good labeled.tail.left.left, sound.annotated good labeled.tail.left.right,
      rest.annotated good labeled.tail.right⟩

end

theorem Program.Sound.annotated {p : Program Note} (good : V.Good) (sound : p.Sound V)
    (labeled : Labeled (p.map Note.origin).nodes) : p.Annotated := by
  obtain ⟨words, W, isFrame, _, sound⟩ := sound
  exact ⟨Option.isSome_iff_exists.mpr ⟨words, isFrame⟩, sound.annotated good labeled.tail⟩

end LyaLang.Ast
