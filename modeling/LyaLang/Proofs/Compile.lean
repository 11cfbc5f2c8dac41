import LyaLang.Compile
import LyaLang.Proofs.Check.Stmt
import LyaLang.Proofs.Emit.Occurs
import LyaLang.Proofs.Emit.Stmt
import LyaLang.Proofs.Parser.Parse

/-! # Accepted texts

A text that parses and checks without a fault has a sound tree with consecutive labels, and generating
code for it never fails: the code is the draft of the tree, with its strings in the pool. Whether the
text is accepted then depends on the labels of the code alone.
-/

namespace LyaLang

open Ast

variable {p : Program Note} {source : Bytes} {code : Code} {c : Context} {made : Compilation} {t : CheckState}

/-! ## The predefined names -/

/-- The predefined symbols, the newest first. -/
def predefinedSymbols : List Symbol :=
  (Context.predefined.zipIdx.map fun (s, serial) => { s with serial }).reverse

/-- What the first statement of a program sees. -/
def View.initial : View := ⟨predefinedSymbols, 0, 0, none⟩

theorem visible_fresh : Context.fresh.environment.visible = predefinedSymbols := by decide +kernel

private theorem good_predefinedProcedure {s : Symbol} (predefined : s ∈ Context.predefinedProcedures) : s.Good := by
  have member := predefined
  simp only [Context.predefinedProcedures, List.mem_cons, List.not_mem_nil, or_false] at member
  rcases member with rfl | rfl | rfl | rfl | rfl | rfl | rfl <;>
    exact ⟨_, rfl, trivial, _, rfl, ⟨trivial, _, predefined, rfl⟩, rfl⟩

private theorem good_predefinedMode {m : Mode} (predefined : m ∈ Context.predefinedModes) :
    (Context.predefinedMode m).Good := by
  simp only [Context.predefinedModes, List.mem_cons, List.not_mem_nil, or_false] at predefined
  rcases predefined with rfl | rfl | rfl | rfl | rfl <;> exact ⟨_, rfl, trivial, trivial⟩

theorem View.good_initial : View.initial.Good := by
  intro s member
  simp only [View.initial, predefinedSymbols, List.mem_reverse, List.mem_map, Prod.exists] at member
  obtain ⟨t, serial, indexed, rfl⟩ := member
  have good : t.Good := by
    rcases List.mem_append.mp (List.fst_mem_of_mem_zipIdx indexed) with isMode | isProcedure
    · obtain ⟨m, isPredefined, same⟩ := List.mem_map.mp isMode
      have same : Context.predefinedMode m = t := same
      exact same ▸ good_predefinedMode isPredefined
    · exact good_predefinedProcedure isProcedure
  exact good

theorem good_fresh : Context.fresh.environment.Good where
  orderly := by
    refine List.forall_mem_singleton.mpr ⟨?_, ?_⟩ <;> decide +kernel
  symbols := by
    rw [visible_fresh]
    exact View.good_initial
  framed := ⟨Context.fresh.environment.inner, List.mem_cons_self, by decide +kernel⟩
  frames := by
    exact List.forall_mem_singleton.mpr (by decide +kernel)

/-! ## Rendered code -/

/-- The place of a string in the pool of a program, as an operand. -/
def Code.pool (c : Code) (s : Bytes) : Int64 := Int64.ofNat ((placeOf? c.strings s).getD 0)

/-- The instructions of a program are those of a draft, whose strings make up the pool. -/
structure Code.Renders (c : Code) (drafts : List Draft) : Prop where
  instructions : c.instructions.toList = drafts.map (·.resolve c.pool)
  strings : c.strings = withTexts #[] drafts
  texts : ∀ d ∈ drafts, ∀ s, d.text = some s → (placeOf? c.strings s).isSome = true

/-- Generating code for a sound program succeeds. -/
theorem Ast.Program.generate_renders {V : View} (good : V.Good) (sound : p.Sound V)
    (labeled : Labeled (p.map Note.origin).nodes) : ∃ code, p.generate = .ok (code, []) ∧ code.Renders p.code := by
  obtain ⟨st, ran, grows⟩ := sound.emits good labeled {}
  have agrees : Agrees st.code.pool st.code.strings := by
    intro s i placed
    rw [Code.pool, placed]
    rfl
  refine ⟨st.code, ?_, grows.instructions _ agrees, grows.strings, grows.texts⟩
  rw [generate, ran]
  exact congrArg (fun errors => Except.ok (st.code, errors)) grows.errors

/-! ## Valid texts -/

/-- A text parses without an error, and checking its tree with labels finds no issue. -/
structure ValidIn (c : Context) (source : Bytes) (p : Program Note) : Prop where
  parsed : (parse source).2 = []
  checked : ((c.reserveProgram (parse source).1).1.check (c.reserveProgram (parse source).1).2).2 = .ok ⟨p, []⟩

/-- A text is valid on its own. -/
def Valid (source : Bytes) (p : Program Note) : Prop := ValidIn Context.fresh source p

/-- What is known about the tree and the code of a valid text. -/
structure Compiled (source : Bytes) (p : Program Note) (code : Code) : Prop where
  tree : (p.map Note.origin).map Origin.span = (parse source).1
  numbered : ∃ after, Numbers 0 (p.map Note.origin).nodes after
  sound : p.Sound View.initial
  renders : code.Renders p.code

/-- The code as an outcome of compilation, after its labels have been checked. -/
def Code.linked (c : Code) : Except CompileError Code :=
  match c.checkLabels with
  | .error e => .error (.labels e)
  | .ok () => .ok c

/-- A check of a labelled tree that finds nothing makes it sound, and its code can be generated. -/
theorem check_renders {tree : Program Origin} {s : CheckState} (ready : Check.Ready s)
    (clean : s.issues = []) (labeled : Labeled tree.nodes) (check : (tree.map Origin.note).check s = .ok p t) :
    p.map Note.origin = tree ∧ (p.note.isValid = true ↔ t.issues = []) ∧
      (p.note.isValid = true → p.Sound s.view ∧ ∃ code, p.generate = .ok (code, []) ∧ code.Renders p.code) := by
  obtain ⟨shape, progress⟩ := (Check.Program.check_yields tree).of_ok (fun _ => ready) check
  obtain ⟨all, own, issues, owns, silent⟩ := progress.adds
  have judged : Check.judge _ s = .ok p t := check
  have none : own = [] := List.append_right_eq_self.mp (owns.symm.trans (Check.judge_own judged))
  have valid : p.note.isValid = true ↔ all = [] := by
    rw [silent]
    simp [none]
  have isClean : p.note.isValid = true ↔ t.issues = [] := valid.trans (by rw [issues, clean, List.nil_append])
  refine ⟨shape, isClean, fun isValid => ?_⟩
  obtain ⟨_, sound⟩ := (progress.sound (isClean.mp isValid)).sound _ (Int64.le_refl _)
  exact ⟨sound, Program.generate_renders ready.good sound (shape.symm ▸ labeled)⟩

/-- Reserving labels in a context. -/
theorem reserve_numbers (c : Context) (tree : Program Span) :
    ∃ (labeled : Program Origin) (after : Int64), labeled.map Origin.span = tree ∧
      Numbers c.nextLabel labeled.nodes after ∧
      c.reserveProgram tree = ({ c with nextLabel := after }, labeled.map Origin.note) := by
  obtain ⟨labeled, after, run, spans, numbers⟩ := tree.reserved c.nextLabel
  refine ⟨labeled, after, spans, numbers, ?_⟩
  rw [Context.reserveProgram, run]

/-- Compiling a text that parses. -/
theorem compile_of_parsed (c : Context) (parsed : (parse source).2 = []) : ∃ labels, (c.compile source).2 = do
      let checked ← ((c.reserveProgram (parse source).1).1.check (c.reserveProgram (parse source).1).2).2
      if !checked.isValid then
        return { tree := checked.tree, issues := checked.issues, labels,
                 result := .error (.semantic checked.issues) }
      return { tree := checked.tree, issues := checked.issues, labels, result := ← generateCode checked.tree } := by
  revert parsed
  unfold Context.compile
  generalize parse source = result
  obtain ⟨tree, errors⟩ := result
  rintro rfl
  exact ⟨_, rfl⟩

theorem generateCode_eq (generated : p.generate = .ok (code, [])) :
    generateCode p = .ok code.linked := by
  have run : generateCode p = match code.checkLabels with
      | .error e => .ok (.error (.labels e))
      | .ok () => .ok (.ok code) := by
    rw [generateCode, generated]
    rfl
  rw [run, Code.linked]
  cases code.checkLabels <;> rfl

private theorem check_eq_ok {checked : Checked}
    (run : (c.check p).2 = .ok checked) : ∃ t, p.check { context := c } = .ok checked.tree t ∧ t.issues = checked.issues := by
  unfold Context.check at run
  cases check : p.check { context := c } with
  | error crash t =>
    rw [check] at run
    cases run
  | ok q t =>
    rw [check] at run
    cases run
    exact ⟨t, rfl, rfl⟩

/-- A valid text in a context: its tree is sound, and compiling it depends on the labels of its code. -/
private theorem ValidIn.compile (ready : ∀ nextLabel, Check.Ready { context := { c with nextLabel } }) (valid : ValidIn c source p) :
    ∃ (code : Code) (labels : Option Int64) (after : Int64), (p.map Note.origin).map Origin.span = (parse source).1 ∧
      Numbers c.nextLabel (p.map Note.origin).nodes after ∧
      p.Sound (CheckState.view { context := { c with nextLabel := after } }) ∧ code.Renders p.code ∧
      (c.compile source).2 = .ok { tree := p, labels, result := code.linked } := by
  obtain ⟨tree, after, spans, numbers, reserved⟩ := reserve_numbers c (parse source).1
  obtain ⟨labels, compiled⟩ := compile_of_parsed c valid.parsed
  have checked := valid.checked
  rw [compiled, checked]
  rw [reserved] at checked
  obtain ⟨t, check, issues⟩ := check_eq_ok checked
  obtain ⟨shape, isValid, renders⟩ := check_renders (ready after) rfl numbers.labeled check
  have isValid : p.note.isValid = true := isValid.mpr issues
  obtain ⟨sound, code, generated, renders⟩ := renders isValid
  refine ⟨code, labels, after, by rw [shape, spans], by rw [shape]; exact numbers, sound, renders, ?_⟩
  change (if !p.note.isValid then _ else _) = _
  rw [isValid, generateCode_eq generated]
  rfl

/-- A compilation of a text that parses has the tree that its check gave, and code only if that is valid. -/
theorem compile_checked (parsed : (parse source).2 = [])
    (compiled : (c.compile source).2 = .ok made) : ∃ checked : Checked,
      ((c.reserveProgram (parse source).1).1.check (c.reserveProgram (parse source).1).2).2 = .ok checked ∧
        made.tree = checked.tree ∧ ∀ code, made.result = .ok code → checked.isValid = true := by
  obtain ⟨labels, run⟩ := compile_of_parsed c parsed
  rw [run] at compiled
  cases checks : ((c.reserveProgram (parse source).1).1.check (c.reserveProgram (parse source).1).2).2 with
  | error crash =>
    rw [checks] at compiled
    cases compiled
  | ok checked =>
    rw [checks] at compiled
    have compiled : (if !checked.isValid then _ else _) = _ := compiled
    refine ⟨checked, rfl, ?_⟩
    cases valid : checked.isValid with
    | false =>
      rw [valid] at compiled
      cases compiled
      exact ⟨rfl, nofun⟩
    | true =>
      rw [valid] at compiled
      cases generated : generateCode checked.tree with
      | error crash =>
        rw [generated] at compiled
        cases compiled
      | ok result =>
        rw [generated] at compiled
        cases compiled
        exact ⟨rfl, fun _ _ => rfl⟩

/-- The tree of a compilation of a text that parses is that of its check. -/
theorem check_of_compile (parsed : (parse source).2 = []) (compiled : (c.compile source).2 = .ok made) :
    ∃ t, (c.reserveProgram (parse source).1).2.check { context := (c.reserveProgram (parse source).1).1 } =
      .ok made.tree t := by
  obtain ⟨checked, checks, same, -⟩ := compile_checked parsed compiled
  obtain ⟨t, check, -⟩ := check_eq_ok checks
  exact ⟨t, same ▸ check⟩

/-- The tree of a compilation is the parsed tree with new notes, which keep the spans. -/
theorem compile_tree (ready : ∀ nextLabel, Check.Ready { context := { c with nextLabel } }) (parsed : (parse source).2 = [])
    (compiled : (c.compile source).2 = .ok made) : (made.tree.map Note.origin).map Origin.span = (parse source).1 := by
  obtain ⟨t, check⟩ := check_of_compile parsed compiled
  obtain ⟨tree, after, spans, -, reserved⟩ := reserve_numbers c (parse source).1
  rw [reserved] at check
  rw [((Check.Program.check_yields tree).of_ok (fun _ => ready after) check).1, spans]

/-- A text that compiles to code is valid. -/
private theorem ValidIn.of_compile (ready : ∀ nextLabel, Check.Ready { context := { c with nextLabel } }) (compiled : (c.compile source).2 = .ok made)
    (linked : made.result = .ok code) : ValidIn c source made.tree := by
  by_cases parsed : (parse source).2 = []
  · obtain ⟨checked, checks, same, valid⟩ := compile_checked parsed compiled
    obtain ⟨tree, after, spans, numbers, reserved⟩ := reserve_numbers c (parse source).1
    refine ⟨parsed, checks.trans ?_⟩
    rw [reserved] at checks
    obtain ⟨t, check, issues⟩ := check_eq_ok checks
    obtain ⟨_, isValid, _⟩ := check_renders (ready after) rfl numbers.labeled check
    rw [same, ← issues.symm.trans (isValid.mp (valid code linked))]
  · have run : (c.compile source).2 = .ok
        { tree := plainTree (parse source).1, parseErrors := (parse source).2,
          result := .error (.parse (parse source).2) } := by
      revert parsed
      unfold Context.compile
      generalize parse source = result
      obtain ⟨tree, errors⟩ := result
      intro some
      cases errors with
      | nil => exact absurd rfl some
      | cons _ _ => rfl
    rw [run] at compiled
    cases compiled
    cases linked

/-! ## Texts on their own -/

private theorem ready_outside (good : c.environment.Good) (outside : c.functions = [])
    (nextLabel : Int64) : Check.Ready { context := { c with nextLabel } } := by
  refine ⟨good, fun f isFunction => ?_⟩
  rw [outside] at isFunction
  cases isFunction

theorem ready_fresh (nextLabel : Int64) : Check.Ready { context := { Context.fresh with nextLabel } } :=
  ready_outside good_fresh (by decide +kernel) nextLabel

private theorem view_outside (outside : c.functions = []) (nextLabel : Int64) :
    CheckState.view { context := { c with nextLabel } } =
      ⟨c.environment.visible, c.environment.inner.next, c.environment.inner.level, none⟩ := by
  have none : c.functions.head? = none := by rw [outside]; rfl
  exact congrArg (View.mk _ _ _) none

private theorem view_fresh (nextLabel : Int64) :
    CheckState.view { context := { Context.fresh with nextLabel } } = View.initial := by
  have place : Context.fresh.environment.inner.next = 0 ∧ Context.fresh.environment.inner.level = 0 := by decide +kernel
  rw [view_outside (by decide +kernel), visible_fresh, place.1, place.2, View.initial]

/-- A valid text compiles to the code of its tree if the labels of the code can be resolved, and otherwise
the label error is all that is wrong. -/
theorem Valid.compile (valid : Valid source p) : ∃ (code : Code) (labels : Option Int64), Compiled source p code ∧
      compile source = .ok { tree := p, labels, result := code.linked } := by
  obtain ⟨code, labels, after, tree, numbers, sound, renders, compiled⟩ := ValidIn.compile ready_fresh valid
  rw [view_fresh] at sound
  exact ⟨code, labels, ⟨tree, ⟨after, numbers⟩, sound, renders⟩, compiled⟩

theorem Code.linked_eq_ok {c : Code} : c.linked = .ok code ↔ c = code ∧ c.checkLabels = .ok () := by
  unfold Code.linked
  cases c.checkLabels with
  | error e => simp
  | ok u => simp

/-- The code that a text compiles to is that of a valid tree, and its labels can be resolved. -/
theorem compiled_of_ok (compiled : compile source = .ok made) (linked : made.result = .ok code) :
    Valid source made.tree ∧ Compiled source made.tree code ∧ code.checkLabels = .ok () := by
  have valid : Valid source made.tree := ValidIn.of_compile ready_fresh compiled linked
  obtain ⟨code', labels, known, run⟩ := valid.compile
  rw [compiled, Except.ok.injEq] at run
  rw [run] at linked
  obtain ⟨rfl, resolved⟩ := Code.linked_eq_ok.mp linked
  exact ⟨valid, known, resolved⟩

/-! ## The check of a text -/

/-- The check of the tree of a text with its labels, on its own. -/
def checkText (source : Bytes) : EStateM.Result Crash CheckState (Program Note) :=
  (Context.fresh.reserveProgram (parse source).1).2.check { context := (Context.fresh.reserveProgram (parse source).1).1 }

/-- The check of a text is that of a tree with labels, in scopes that it can rely on. -/
theorem checkText_eq (source : Bytes) :
    ∃ (tree : Program Origin) (s : CheckState), Check.Ready s ∧ s.issues = [] ∧
      checkText source = (tree.map Origin.note).check s := by
  obtain ⟨tree, after, _, _, reserved⟩ := reserve_numbers Context.fresh (parse source).1
  refine ⟨tree, _, ready_fresh after, rfl, ?_⟩
  rw [checkText, reserved]

private theorem check_of_ok {q : Program Note} (ran : p.check { context := c } = .ok q t) :
    (c.check p).2 = .ok { tree := q, issues := t.issues } := by
  rw [Context.check, ran]

/-- A check that comes to its end finds the tree valid exactly if it finds no issue. -/
theorem isValid_iff_of_checkText (ran : checkText source = .ok p t) : p.note.isValid = true ↔ t.issues = [] := by
  obtain ⟨tree, after, _, numbers, reserved⟩ := reserve_numbers Context.fresh (parse source).1
  rw [checkText, reserved] at ran
  exact (check_renders (ready_fresh after) rfl numbers.labeled ran).2.1

theorem valid_of_checkText (parsed : (parse source).2 = [])
    (ran : checkText source = .ok p t) (clean : t.issues = []) : Valid source p := by
  refine ⟨parsed, ?_⟩
  rw [check_of_ok ran, clean]

/-- The weight of the tree of a compiled text is at most twice the length of the text. -/
theorem Compiled.weigh_le (compiled : Compiled source p code) : weigh p.nodes ≤ 2 * source.length := by
  have parsed := weigh_parse source
  rw [← compiled.tree, Program.nodes_map, weigh_map, Program.nodes_map, weigh_map] at parsed
  exact parsed

/-- The predefined names have no labels and no storage. -/
theorem View.linked_initial (defined : Int64 → Prop) (f : Frame) : View.initial.Linked defined [] f := by
  have builtin : ∀ s ∈ predefinedSymbols, s.proc.all (·.builtin.isSome) = true ∧ s.category.hasStorage = false := by
    decide +kernel
  refine ⟨fun s member => ⟨View.good_initial s member, fun p isProc free => ?_, fun stored => ?_⟩, by decide,
    fun g p isFunction => by cases isFunction⟩
  · have fixed := (builtin s member).1
    rw [isProc, Option.all_some, free] at fixed
    cases fixed
  · cases (builtin s member).2.symm.trans stored

/-- What occurs in the code of a compiled text, each instruction inside its frames. -/
theorem Compiled.framed_occurs (compiled : Compiled source p code) :
    ∀ x ∈ p.framedCode, x.2.Occurs (· ∈ definedLabels p.code) p.nodes x.1 :=
  Program.code_occurs (View.linked_initial _ _) compiled.sound fun _ member => member

theorem Compiled.occurs (compiled : Compiled source p code) {d : Draft}
    (member : d ∈ p.code) : ∃ fs, d.Occurs (· ∈ definedLabels p.code) p.nodes fs := by
  rw [← p.map_framedCode] at member
  obtain ⟨x, isFramed, rfl⟩ := List.mem_map.mp member
  exact ⟨x.1, compiled.framed_occurs x isFramed⟩

/-- The compilation of a text with its code, if the text is accepted. -/
def accepted? (source : Bytes) : Option (Compilation × Code) :=
  match compile source with
  | .error _ => none
  | .ok made =>
    match made.result with
    | .error _ => none
    | .ok code => some (made, code)

/-- A text whose compilation passes a test is accepted. -/
theorem exists_accepted {P : Compilation → Code → Bool}
    (passes : (accepted? source).any (fun accepted => P accepted.1 accepted.2) = true) :
    ∃ made code, compile source = .ok made ∧ made.result = .ok code ∧ P made code = true := by
  unfold accepted? at passes
  cases compiled : compile source with
  | error crash => simp [compiled] at passes
  | ok made =>
    cases linked : made.result with
    | error e => simp [compiled, linked] at passes
    | ok code => exact ⟨made, code, rfl, linked, by simpa [compiled, linked] using passes⟩

end LyaLang
