import LyaLang.Proofs.Check.Typed
import LyaLang.Proofs.Emit.Code
import LyaLang.Proofs.Tree.Labels

/-! # Emitting expressions

Emitting a typed expression with its labels never fails, and appends the code of the expression.
-/

namespace LyaLang

open Ast Emit

variable {m : Mode} {symbols : List Symbol}

theorem labeled_cons {node : Node Origin} {rest : List (Node Origin)} :
    Labeled (node :: rest) ↔
      (∃ first, node.note.labels = if node.labelBudget = 0 then none else some ⟨first, node.labelBudget⟩) ∧
        Labeled rest :=
  List.forall_mem_cons

theorem labeled_append {front rest : List (Node Origin)} :
    Labeled (front ++ rest) ↔ Labeled front ∧ Labeled rest :=
  List.forall_mem_append

namespace Labeled

variable {node : Node Origin} {front rest : List (Node Origin)}

theorem tail (labeled : Labeled (node :: rest)) : Labeled rest := (List.forall_mem_cons.mp labeled).2

theorem left (labeled : Labeled (front ++ rest)) : Labeled front := (List.forall_mem_append.mp labeled).1

theorem right (labeled : Labeled (front ++ rest)) : Labeled rest := (List.forall_mem_append.mp labeled).2

theorem optional {e : Expr Note} {o : Option (Expr Note)}
    (labeled : Labeled (optionalNodes (o.map (Expr.map Note.origin)))) (isSome : o = some e) :
    Labeled (e.map Note.origin).nodes := by
  subst isSome
  exact labeled

end Labeled

namespace Ast

/-- A construct with labels has a first one. -/
theorem firstLabel_emits {note : Note} {block : LabelBlock} (labels : note.labels = some block) :
    Emits (firstLabel note) note.firstLabel [] := by
  have same : note.firstLabel = block.first := by rw [Note.firstLabel, labels]; rfl
  rw [same]
  exact (required_emits labels).bind (.pure _)

theorem loadIndirect_emits (m : Mode) : Emits (loadIndirect (some m)) () m.indirectCode := by
  unfold loadIndirect Mode.indirectCode
  dsimp only
  split
  · exact .pure ()
  · split
    · exact .one
    · exact .one

theorem loadSymbol_emits (s : Symbol) : Emits (loadSymbol s) () s.code := by
  unfold loadSymbol Symbol.code
  split
  · exact constant_emits _
  · cases s.mode with
    | none => exact .one
    | some m =>
      dsimp only
      split
      · exact .one
      · split
        · exact .step .one
        · exact .one

/-- One index of an array. -/
theorem emitElement_emits_elem {elem : Mode} (array : m.isString = false) (isElem : m.elem? = some elem) :
    Emits (emitElement (some m)) elem m.elementCode := by
  refine (required_emits rfl).bind ?_
  rw [array, isElem]
  refine .step (.step (.step ?_))
  exact (required_emits rfl).bind (.step (.pure elem))

/-- One index can be applied to a mode that another mode stands under. -/
theorem emitElement_emits {r : Mode} {count : Nat} (proper : m.Proper) (indexed : m.indexed? (count + 1) = some r) :
    ∃ elem, m.element? = some elem ∧ elem.Proper ∧ elem.indexed? count = some r ∧
      Emits (emitElement (some m)) elem m.elementCode := by
  unfold Mode.indexed? at indexed
  by_cases array : m.isArray
  · rw [if_pos array] at indexed
    have text : m.isString = false := by
      rw [Mode.isArray] at array
      rw [Mode.isString]
      revert array
      cases m.type <;> simp [ValueType.isArray]
    obtain ⟨elem, isElem, properElem, _⟩ := proper.elem_of_isArray array
    rw [isElem] at indexed
    refine ⟨elem, ?_, properElem, indexed, emitElement_emits_elem text isElem⟩
    rw [Mode.element?, text, isElem]
    rfl
  · rw [if_neg array] at indexed
    by_cases text : m.isString
    · rw [if_pos text] at indexed
      refine ⟨.char, ?_, trivial, indexed, ?_⟩
      · rw [Mode.element?, if_pos text]
      · rw [Mode.elementCode, if_pos text]
        refine (required_emits rfl).bind ?_
        rw [if_pos text]
        exact .step (.step (.step
          (.step (.pure Mode.char))))
    · rw [if_neg text] at indexed
      cases indexed

/-- How arguments fit the way they are passed. -/
def Passing.Fits (args : List (Expr Note)) : Passing → Prop
  | .read => ∀ a ∈ args, Readable a
  | .print => ∀ a ∈ args, Printable a
  | .operand => ∃ a, args = [a]
  | .params ps => List.Forall₂ Parameter.Takes ps args

theorem emitCall_emits {callee : Ident Note} {args : List (Expr Note)} {result : Option Mode}
    {pass : Passing → Emit Unit} {code : Passing → List Draft} (typed : CallTyped symbols callee args result)
    (passes : ∀ how : Passing, how.Fits args → Emits (pass how) () (code how)) :
    Emits (emitCall callee args.length pass) (callLeaves callee) (callCode callee code) := by
  obtain ⟨symbol, proc, _, isSymbol, _, isProc, takes, _⟩ := typed
  have found := bind_proc isSymbol isProc
  unfold emitCall callCode callLeaves
  simp only [found, Option.any_some]
  unfold Procedure.Takes at takes
  cases builtin : proc.builtin with
  | none =>
    simp only [builtin] at takes ⊢
    refine .step ((passes (.params proc.params) takes).andThen (.step ?_))
    exact .pure true
  | some b =>
    cases b with
    | read =>
      simp only [builtin] at takes ⊢
      exact ((passes .read takes).andThen (.pure false)).draft_eq (List.append_nil _)
    | print =>
      simp only [builtin] at takes ⊢
      refine (passes .print takes).andThen ?_
      exact ((pooled_emits ("\n") (fun a => { op := .prc, a }) rfl fun _ => rfl).andThen (.pure false))
    | operation code accepts =>
      simp only [builtin] at takes ⊢
      obtain ⟨a, rfl, _⟩ := takes
      exact (passes .operand ⟨a, rfl⟩).andThen (.step (.pure true))

theorem loadCallResult_emits {callee : Ident Note} {args : List (Expr Note)}
    {result : Option Mode} (typed : CallTyped symbols callee args result) :
    Emits (loadCallResult callee) () (callResultCode callee) := by
  obtain ⟨symbol, proc, _, isSymbol, _, isProc, _⟩ := typed
  have found := bind_proc isSymbol isProc
  unfold loadCallResult callResultCode
  rw [found, isSymbol]
  cases loc : proc.resultLoc with
  | true =>
    refine (required_emits isProc).bind ?_
    rw [loc]
    exact loadIndirect_emits _
  | false =>
    refine (required_emits isProc).bind ?_
    rw [loc]
    exact .pure ()

theorem emitRead_emits {a : Expr Note} {address : Emit Unit} {code : List Draft}
    (typed : a.Typed symbols) (mode : a.note.mode = some m) (addressed : Emits address () code) :
    Emits (emitRead a address) () (readCode a code) := by
  unfold emitRead readCode
  simp only [mode]
  split
  · exact addressed.andThen (.step (.pure ()))
  · cases a with
    | ident id =>
      obtain ⟨symbol, _, isSymbol, _⟩ := typed
      dsimp only
      rw [isSymbol]
      exact .step ((required_emits rfl).bind .one)
    | _ => exact addressed.andThen (.step .one)

theorem emitPrint_emits {a : Expr Note} {value address : Emit Unit} {code code' : List Draft}
    (mode : a.note.mode = some m) (valued : Emits value () code)
    (addressed : m.isArray = true → Emits address () code') :
    Emits (emitPrint a value address) () (printCode a code code') := by
  cases a with
  | text note s => exact pooled_emits s (fun a => { op := .prc, a }) rfl fun _ => rfl
  | _ =>
    unfold emitPrint printCode
    simp only [mode, Mode.optionIsString, Mode.optionIsArray, Option.any_some]
    split
    · exact valued.andThen .one
    · split
      case isTrue array =>
        refine (required_emits rfl).bind ((addressed array).andThen (.step .one))
      case isFalse => exact valued.andThen .one

variable {symbols : List Symbol}

mutual

/-- Emitting a typed expression pushes its value. -/
theorem Expr.Typed.emits (good : ∀ s ∈ symbols, s.Good) :
    ∀ {e : Expr Note}, e.Typed symbols → Labeled (e.map Note.origin).nodes →
    Emits e.emitValue () e.valueCode
  | .int _ _, _, _ | .bool _ _, _, _ | .char _ _, _, _ => .one
  | .text _ s, _, _ => pooled_emits s (fun a => { op := .lsc, a }) rfl fun _ => rfl
  | .ident id, typed, _ => by
    obtain ⟨symbol, _, isSymbol, _⟩ := typed
    rw [Expr.emitValue, Expr.valueCode, isSymbol]
    exact loadSymbol_emits symbol
  | .unary _ _ _, typed, labeled => (typed.1.emits good labeled.tail).andThen .one
  | .binary _ _ _ _, typed, labeled =>
    (typed.1.emits good labeled.tail.left).andThen ((typed.2.1.emits good labeled.tail.right).andThen .one)
  | .cond note arms otherwise, typed, labeled => by
    obtain ⟨⟨first, own⟩, labeled⟩ := labeled_cons.mp labeled
    refine (firstLabel_emits (if_neg (Nat.succ_ne_zero _) ▸ own)).bind ?_
    exact (typed.1.emits good labeled.left _ _).andThen ((typed.2.1.emits good labeled.right).andThen .one)
  | .call _ callee args, typed, labeled => by
    obtain ⟨typedArgs, call, _⟩ := typed
    exact (emitCall_emits call fun how fits => typedArgs.emitsArguments good labeled.tail.tail fits).bind
      (loadCallResult_emits call)
  | .index note x indexes, typed, labeled => by
    obtain ⟨m, r, isMode, proper, result, indexed⟩ := typed.index_modes good
    obtain ⟨typedX, location, typedIndexes, _⟩ := typed
    rw [Expr.emitValue, Expr.valueCode, isMode, result]
    exact (typedX.emitsAddress good location labeled.tail.left).andThen
      ((typedIndexes.emitsIndexes good labeled.tail.right proper indexed).andThen (loadIndirect_emits r))
  | .deref note x, typed, labeled => by
    obtain ⟨m, isMode, _⟩ := Expr.Typed.hasMode good typed
    have isMode : note.mode = some m := isMode
    rw [Expr.emitValue, Expr.valueCode, isMode]
    exact (typed.1.emits good labeled.tail).andThen (loadIndirect_emits m)
  | .ref _ _, typed, labeled => typed.1.emitsAddress good typed.2.1 labeled.tail

/-- Emitting the address of a typed location pushes it. -/
theorem Expr.Typed.emitsAddress (good : ∀ s ∈ symbols, s.Good) :
    ∀ {e : Expr Note}, e.Typed symbols → e.isLocation = true →
    Labeled (e.map Note.origin).nodes → Emits e.emitAddress () e.addressCode
  | .int _ _, _, location, _ | .bool _ _, _, location, _ | .char _ _, _, location, _ | .text _ _, _, location, _
  | .unary _ _ _, _, location, _ | .binary _ _ _ _, _, location, _ | .cond _ _ _, _, location, _
  | .ref _ _, _, location, _ => by cases location
  | .ident id, typed, _, _ => by
    obtain ⟨symbol, _, isSymbol, _⟩ := typed
    rw [Expr.emitAddress, Expr.addressCode, isSymbol]
    exact .one
  | .call _ callee args, typed, _, labeled => by
    obtain ⟨typedArgs, call, _⟩ := typed
    refine ((emitCall_emits call fun how fits => ?_).bind (.pure ())).draft_eq (List.append_nil _)
    exact typedArgs.emitsArguments good labeled.tail.tail fits
  | .index note x indexes, typed, _, labeled => by
    obtain ⟨m, r, isMode, proper, result, indexed⟩ := typed.index_modes good
    obtain ⟨typedX, location, typedIndexes, _⟩ := typed
    rw [Expr.emitAddress, Expr.addressCode, isMode]
    exact (typedX.emitsAddress good location labeled.tail.left).andThen
      (typedIndexes.emitsIndexes good labeled.tail.right proper indexed)
  | .deref _ _, typed, _, labeled => typed.1.emits good labeled.tail

/-- Emitting indexes turns an address into that of an element. -/
theorem Expr.TypedList.emitsIndexes (good : ∀ s ∈ symbols, s.Good) :
    ∀ {indexes : List (Expr Note)}, Expr.TypedList symbols indexes →
    Labeled (Expr.listNodes (Expr.mapList Note.origin indexes)) → ∀ {m r : Mode}, m.Proper →
    m.indexed? indexes.length = some r → Emits (Expr.emitIndexes (some m) indexes) () (Expr.indexesCode (some m) indexes)
  | [], _, _, _, _, _, _ => .pure ()
  | _ :: _, typed, labeled, m, r, proper, indexed => by
    obtain ⟨elem, isElem, properElem, indexedElem, emits⟩ := emitElement_emits proper indexed
    rw [Expr.emitIndexes, Expr.indexesCode, isElem]
    exact (typed.1.emits good labeled.left).andThen
      (emits.bind (typed.2.emitsIndexes good labeled.right properElem indexedElem))

theorem Expr.TypedArms.emits (good : ∀ s ∈ symbols, s.Good) {type : ValueType} :
    ∀ {arms : List (CondValue Note)}, Expr.TypedArms symbols type arms →
    Labeled (Expr.armNodes (Expr.mapArms Note.origin arms)) → ∀ exit label,
    Emits (Expr.emitArms exit label arms) () (Expr.armsCode exit label arms)
  | [], _, _, _, _ => .pure ()
  | .mk _ _ _ :: _, typed, labeled, exit, label => by
    obtain ⟨test, _, value, _, rest⟩ := typed
    exact (test.emits good labeled.tail.left.left).andThen (.step ((value.emits good labeled.tail.left.right).andThen
      (.step (.step (rest.emits good labeled.tail.right exit (label + 1))))))

theorem Expr.TypedList.emitsArguments (good : ∀ s ∈ symbols, s.Good) :
    ∀ {args : List (Expr Note)}, Expr.TypedList symbols args →
    Labeled (Expr.listNodes (Expr.mapList Note.origin args)) → ∀ {how : Passing}, how.Fits args →
    Emits (Expr.emitArguments how args) () (Expr.argumentsCode how args)
  | [], _, _, how, fits => by
    cases how with
    | params ps =>
      cases fits
      exact .pure ()
    | _ => exact .pure ()
  | a :: rest, typed, labeled, how, fits => by
    obtain ⟨typed, typedRest⟩ := typed
    obtain ⟨m, isMode, _⟩ := typed.hasMode good
    have value := typed.emits good labeled.left
    have address : a.isLocation = true → Emits a.emitAddress () a.addressCode :=
      (typed.emitsAddress good · labeled.left)
    cases how with
    | read =>
      obtain ⟨readable, fits⟩ := List.forall_mem_cons.mp fits
      exact (emitRead_emits typed isMode (address readable.1)).andThen (typedRest.emitsArguments good labeled.right fits)
    | print =>
      obtain ⟨printable, fits⟩ := List.forall_mem_cons.mp fits
      refine (emitPrint_emits isMode value fun array => address (printable.2 ?_).2).andThen
        (typedRest.emitsArguments good labeled.right fits)
      rw [Expr.type, type_of_mode isMode]
      exact array
    | operand => exact value
    | params ps =>
      cases fits with
      | @cons p _ ps _ takes fits =>
        obtain ⟨_, _, _, byLocation⟩ := takes
        have fits : (Passing.params ps).Fits rest := fits
        have others := typedRest.emitsArguments good labeled.right fits
        rw [Expr.emitArguments, Expr.argumentsCode]
        cases loc : p.loc with
        | true => exact (address (byLocation loc).1).andThen others
        | false => exact value.andThen others

end

end Ast

end LyaLang
