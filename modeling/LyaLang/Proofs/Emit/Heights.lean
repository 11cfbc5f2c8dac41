import LyaLang.Proofs.Check.Placed
import LyaLang.Proofs.Emit.Expr
import LyaLang.Proofs.Emit.Rising

/-! # Heights of expressions

The value of a typed expression takes one word, or as many as its mode has if it is an array; its address takes
one. The code of an expression raises the height by just that, as long as every array that a call in it passes
by value is one word long.
-/

namespace LyaLang

open Ast

variable {p : Procedure} {m : Mode} {t : ValueType} {e : Expr Note} {h : Int} {note : Note}

/-- The words that a value of a mode takes on the stack. -/
def Mode.width (m : Mode) : Int := if m.isArray then m.size.toInt else 1

/-- Whether an instruction belongs to the flow of control, and the words it takes and leaves. -/
def Instruction.moves (arity : Int64 → Int) (i : Instruction) : Bool × Int × Int :=
  (i.op.isFlow, i.pops arity, i.pushes)

namespace Rising

variable {arity : Int64 → Int} {needs : List (Int64 × Int)} {h k h' : Int} {d : Draft}

theorem cons {s : Segment} {rest : List Segment} (first : Rising arity needs h [s] k)
    (second : Rising arity needs k rest h') : Rising arity needs h (s :: rest) h' := first.append second

/-- An instruction that exchanges words on top of some others. -/
theorem exchange {b p q : Int} (nonneg : 0 ≤ b) (moves : d.instruction.moves arity = (false, p, q)) (before : b + p = h)
    (after : b + q = h') : Rising arity needs h [.draft d] h' := by
  obtain ⟨flat, words⟩ := Prod.mk.inj moves
  obtain ⟨takes, leaves⟩ := Prod.mk.inj words
  refine .plain flat ?_ ?_
  · omega
  · rw [Instruction.effect]
    omega

/-- An instruction that takes nothing and leaves a word. -/
theorem push (nonneg : 0 ≤ h) (moves : d.instruction.moves arity = (false, 0, 1)) :
    Rising arity needs h [.draft d] (h + 1) := exchange nonneg moves (Int.add_zero h) rfl

/-- An instruction that takes nothing and leaves nothing. -/
theorem idle (nonneg : 0 ≤ h) (moves : d.instruction.moves arity = (false, 0, 0)) : Rising arity needs h [.draft d] h :=
  exchange nonneg moves (Int.add_zero h) (Int.add_zero h)

/-- An instruction that replaces a word. -/
theorem keep (nonneg : 0 ≤ h) (moves : d.instruction.moves arity = (false, 1, 1)) :
    Rising arity needs (h + 1) [.draft d] (h + 1) := exchange nonneg moves rfl rfl

/-- An instruction that replaces two words by one. -/
theorem merge (nonneg : 0 ≤ h) (moves : d.instruction.moves arity = (false, 2, 1)) :
    Rising arity needs (h + 1 + 1) [.draft d] (h + 1) := exchange nonneg moves (Int.add_assoc h 1 1).symm rfl

/-- An instruction that takes a word. -/
theorem drop (nonneg : 0 ≤ h) (moves : d.instruction.moves arity = (false, 1, 0)) :
    Rising arity needs (h + 1) [.draft d] h := exchange nonneg moves rfl (Int.add_zero h)

/-- An instruction that takes two words. -/
theorem dropTwo (nonneg : 0 ≤ h) (moves : d.instruction.moves arity = (false, 2, 0)) :
    Rising arity needs (h + 1 + 1) [.draft d] h := exchange nonneg moves (Int.add_assoc h 1 1).symm (Int.add_zero h)

/-! ## Symbols and modes -/

theorem loadDraft (nonneg : 0 ≤ h) (s : Symbol) : Rising arity needs h [.draft s.loadDraft] (h + 1) := by
  unfold Symbol.loadDraft
  split <;> exact push nonneg rfl

theorem addressDraft (nonneg : 0 ≤ h) (s : Symbol) : Rising arity needs h [.draft s.addressDraft] (h + 1) := by
  unfold Symbol.addressDraft
  split <;> exact push nonneg rfl

theorem storeDraft (nonneg : 0 ≤ h) (s : Symbol) : Rising arity needs (h + 1) [.draft s.storeDraft] h := by
  unfold Symbol.storeDraft
  split <;> exact drop nonneg rfl

theorem constant (nonneg : 0 ≤ h) (k : Word) : Rising arity needs h [.draft (.constant k)] (h + 1) := by
  unfold Draft.constant
  split <;> exact push nonneg rfl

/-- The words of a block in the place of its address. -/
theorem loadBlock (nonneg : 0 ≤ h) (size : Int64) :
    Rising arity needs (h + 1) [.draft (.op1 .lmv size)] (h + size.toInt) :=
  exchange nonneg rfl rfl rfl

theorem not_isArray_of_isString (text : m.isString = true) : m.isArray = false := by
  rw [Mode.isString, beq_iff_eq] at text
  rw [Mode.isArray, text]
  rfl

/-- What replaces an address by the value there. -/
theorem indirectCode (nonneg : 0 ≤ h) (m : Mode) :
    Rising arity needs (h + 1) (asSegments m.indirectCode) (h + m.width) := by
  unfold Mode.indirectCode Mode.width
  by_cases text : m.isString
  · rw [if_pos text, not_isArray_of_isString text]
    exact nil _
  · rw [if_neg text]
    by_cases array : m.isArray
    · rw [if_pos array, if_pos array]
      exact loadBlock nonneg m.size
    · rw [if_neg array, if_neg array]
      exact keep nonneg rfl

theorem elementCode (nonneg : 0 ≤ h) (m : Mode) :
    Rising arity needs (h + 1 + 1) (asSegments m.elementCode) (h + 1) := by
  have one : 0 ≤ h + 1 := by omega
  have two : 0 ≤ h + 1 + 1 := by omega
  unfold Mode.elementCode
  split
  all_goals
    refine .cons (keep one rfl) (.cons (push two rfl) (.cons (merge one rfl) ?_))
    exact merge nonneg rfl

end Rising

/-- Predefined operations replace a word by another, and take scalars. -/
theorem Procedure.Good.operation_scalar (good : p.Good) {op : Opcode} {accepts : List ValueType}
    (operation : p.builtin = some (.operation op accepts)) :
    (∀ arity, Instruction.moves arity { op } = (false, 1, 1)) ∧ ∀ t ∈ accepts, t.IsBasic := by
  obtain ⟨_, predefined⟩ := good
  rw [operation] at predefined
  obtain ⟨symbol, member, isProc⟩ := predefined
  simp only [Context.predefinedProcedures, List.mem_cons, List.not_mem_nil, or_false] at member
  rcases member with rfl | rfl | rfl | rfl | rfl | rfl | rfl <;> cases isProc <;> cases operation
  all_goals
    refine ⟨fun _ => rfl, ?_⟩
    simp [ValueType.IsBasic]

/-- Reading and printing give nothing, and predefined operations a word. -/
theorem Procedure.Good.predefined_result (good : p.Good) {b : Builtin} (builtin : p.builtin = some b) :
    p.resultLoc = false ∧ (p.result = .void ∨ p.result.width = 1 ∧ b ≠ .read ∧ b ≠ .print) := by
  obtain ⟨_, predefined⟩ := good
  rw [builtin] at predefined
  obtain ⟨symbol, member, isProc⟩ := predefined
  simp only [Context.predefinedProcedures, List.mem_cons, List.not_mem_nil, or_false] at member
  rcases member with rfl | rfl | rfl | rfl | rfl | rfl | rfl <;> cases isProc <;> cases builtin
  case inl | inr.inl | inr.inr.inl | inr.inr.inr.inl | inr.inr.inr.inr.inl =>
    refine ⟨rfl, .inr ⟨rfl, ?_, ?_⟩⟩ <;>
    · intro same
      cases same
  all_goals exact ⟨rfl, .inl rfl⟩

/-- A result that is not a location takes one word, if it takes any. -/
theorem Procedure.Good.result_width (good : p.Good) (direct : p.resultLoc = false)
    (known : p.result.type ≠ .void) : p.result.width = 1 := by
  cases builtin : p.builtin with
  | some b =>
    rcases (good.predefined_result builtin).2 with nothing | ⟨word, _⟩
    · rw [nothing] at known
      exact absurd rfl known
    · exact word
  | none =>
    obtain ⟨_, declared⟩ := good
    rw [builtin] at declared
    rcases declared.2.2 direct with nothing | word
    · rw [nothing] at known
      exact absurd rfl known
    · unfold Mode.width
      rw [word]
      split <;> rfl

/-- A procedure with a result leaves a word. -/
theorem Procedure.Good.leaves (good : p.Good) (result : p.resultLoc = true ∨ p.result.type ≠ .void) :
    (p.builtin != some .read && p.builtin != some .print) = true := by
  cases builtin : p.builtin with
  | none => rfl
  | some b =>
    obtain ⟨direct, kind⟩ := good.predefined_result builtin
    have known : p.result.type ≠ .void := result.resolve_left (by simp [direct])
    rcases kind with nothing | ⟨_, notRead, notPrint⟩
    · rw [nothing] at known
      exact absurd rfl known
    · simp [notRead, notPrint]

/-- A mode with words is not that of nothing. -/
theorem Mode.Proper.type_ne_void (proper : m.Proper) (size : m.size ≠ 0) : m.type ≠ .void := by
  induction m with
  | void => exact absurd rfl size
  | range base lower upper _ =>
    intro isVoid
    have basic := proper.2.1
    rw [show base.type = .void from isVoid] at basic
    exact basic
  | named _ mode ih => exact ih proper size
  | _ => simp [type]

theorem ValueType.IsBasic.single (basic : t.IsBasic) : t.isArray = false ∧ t ≠ .void := by
  cases t with
  | int | bool | char | string => exact ⟨rfl, by simp⟩
  | _ => exact basic.elim

theorem ValueType.single_of_isReference (reference : t.isReference = true) :
    t.isArray = false ∧ t ≠ .void := by
  cases t with
  | reference target => exact ⟨rfl, by simp⟩
  | _ => cases reference

namespace Ast

variable {arity : Int64 → Int} {needs : List (Int64 × Int)} {symbols : List Symbol}

/-- The words that the value of an expression takes on the stack. -/
def Expr.width (e : Expr Note) : Int := (e.note.mode.map Mode.width).getD 1

theorem Expr.width_of_mode (isMode : e.note.mode = some m) : e.width = m.width := by
  rw [Expr.width, isMode]
  rfl

theorem Expr.width_eq_one (single : e.type.isArray = false) : e.width = 1 := by
  cases isMode : e.note.mode with
  | none => rw [Expr.width, isMode]; rfl
  | some m =>
    rw [Expr.type, type_of_mode isMode] at single
    rw [Expr.width_of_mode isMode, Mode.width, Mode.isArray, single]
    rfl

/-- By-value arguments take one word each, and the procedure at the label takes all of them. -/
def CallPasses (arity : Int64 → Int) (callee : Ident Note) (args : List (Expr Note)) : Prop :=
  ∀ p, callee.note.symbol.bind (·.proc) = some p → p.builtin = none → arity p.entry = p.params.length ∧
    List.Forall₂ (fun (q : Parameter) (a : Expr Note) => q.loc = false → a.width = 1) p.params args

/-- What a node says about the words that calls take. -/
def Node.Passes (arity : Int64 → Int) : Node Note → Prop
  | expr (.call _ callee args) => CallPasses arity callee args
  | _ => True

/-- The words that passing arguments leaves on the stack. -/
def Passing.words : Passing → Int
  | .read | .print => 0
  | .operand => 1
  | .params ps => ps.length

/-- The values that are passed take one word each. -/
def Passing.Carries (args : List (Expr Note)) : Passing → Prop
  | .read | .print => True
  | .operand => ∀ a ∈ args, a.width = 1 ∧ a.type ≠ .void
  | .params ps => List.Forall₂ (fun (q : Parameter) (a : Expr Note) => q.loc = false → a.width = 1 ∧ a.type ≠ .void) ps args

/-- A by-value argument is a value, since its parameter takes a word. -/
theorem carries_of_takes {ps : List Parameter} {args : List (Expr Note)} (good : ∀ q ∈ ps, q.Good)
    (takes : List.Forall₂ Parameter.Takes ps args)
    (single : List.Forall₂ (fun q (a) => q.loc = false → a.width = 1) ps args) :
    (Passing.params ps).Carries args := by
  induction takes with
  | nil => exact .nil
  | @cons q a ps args taken _ ih =>
    obtain ⟨goodQ, good⟩ := List.forall_mem_cons.mp good
    obtain ⟨first, rest⟩ := List.forall₂_cons.mp single
    refine .cons ?_ (ih good rest)
    intro byValue
    obtain ⟨m, isMode, type, _⟩ := taken
    obtain ⟨m', same, proper, sized⟩ := goodQ
    obtain rfl := Option.mem_unique isMode same
    have word : m.size ≠ 0 := by simp [sized byValue]
    exact ⟨first byValue, type ▸ proper.type_ne_void word⟩

/-- The code of a call, given that of its arguments. -/
theorem callSegments_rising (good : ∀ s ∈ symbols, s.Good) {callee : Ident Note} {args : List (Expr Note)}
    {result : Option Mode} (typed : CallTyped symbols callee args result) (passes : CallPasses arity callee args)
    {pass : Passing → List Segment}
    (passed : ∀ how : Passing, how.Fits args → how.Carries args → ∀ h, 0 ≤ h →
      Rising arity needs h (pass how) (h + how.words))
    (nonneg : 0 ≤ h) :
    Rising arity needs h (callSegments callee pass) (h + if callLeaves callee then 1 else 0) := by
  obtain ⟨proc, called, fine, takes, _⟩ := typed.procedure good
  unfold Procedure.Takes at takes
  unfold callSegments callLeaves
  rw [called]
  cases builtin : proc.builtin with
  | none =>
    rw [builtin] at takes
    obtain ⟨counted, single⟩ := passes proc called builtin
    have goodParams := fine.2
    rw [builtin] at goodParams
    have carries := carries_of_takes goodParams.2.1 takes single
    have one : 0 ≤ h + 1 := by omega
    have fits : Passing.Fits args (.params proc.params) := takes
    simp only [Option.any_some, builtin]
    refine .cons (.push nonneg rfl) (.append (passed _ fits carries (h + 1) one) ?_)
    exact .exchange one (congrArg (fun n => (false, n, 0)) counted) rfl (Int.add_zero _)
  | some b =>
    rw [builtin] at takes
    cases b with
    | read =>
      have fits : Passing.Fits args .read := takes
      simp only [Option.any_some, builtin]
      exact passed .read fits trivial h nonneg
    | print =>
      have fits : Passing.Fits args .print := takes
      have printed := passed .print fits trivial h nonneg
      simp only [Option.any_some, builtin]
      rw [Passing.words, Int.add_zero] at printed
      exact printed.append (.exchange nonneg rfl (Int.add_zero h) rfl)
    | operation op accepts =>
      obtain ⟨a, rfl, accepted⟩ := takes
      obtain ⟨keeps, scalar⟩ := fine.operation_scalar builtin
      obtain ⟨single, known⟩ := (scalar a.type accepted).single
      have carries : Passing.Carries [a] .operand :=
        List.forall_mem_singleton.mpr ⟨Expr.width_eq_one single, known⟩
      simp only [Option.any_some, builtin]
      exact (passed .operand ⟨a, rfl⟩ carries h nonneg).append (.keep nonneg (keeps arity))

/-- A value among other segments. -/
theorem value_part (rising : Rising arity needs h e.valueSegments (h + e.width))
    (single : e.width = 1) : Rising arity needs h [.part (.value e)] (h + 1) := by
  rw [single] at rising
  exact .part rising

/-- A value that is no array, among other segments. -/
theorem single_part (rising : Rising arity needs h e.valueSegments (h + e.width))
    (single : e.type.isArray = false) : Rising arity needs h [.part (.value e)] (h + 1) :=
  value_part rising (Expr.width_eq_one single)

/-- The code that reads into a location. -/
theorem readSegments_rising {a : Expr Note} (nonneg : 0 ≤ h) (typed : a.Typed symbols)
    (isMode : a.note.mode = some m) (addressed : Rising arity needs h [.part (.address a)] (h + 1)) :
    Rising arity needs h (readSegments a) h := by
  unfold readSegments
  rw [isMode]
  dsimp only
  split
  · exact .cons addressed (.drop nonneg rfl)
  · cases a with
    | ident id =>
      obtain ⟨symbol, _, isSymbol, _⟩ := typed
      dsimp only
      rw [isSymbol]
      exact .cons (.push nonneg rfl) (.storeDraft nonneg symbol)
    | _ =>
      have one : 0 ≤ h + 1 := by omega
      exact .cons addressed (.cons (.push one rfl) (.dropTwo nonneg rfl))

/-- The code that prints an argument. -/
theorem printSegments_rising {a : Expr Note} (nonneg : 0 ≤ h) (isMode : a.note.mode = some m)
    (valued : m.isArray = false → Rising arity needs h [.part (.value a)] (h + 1))
    (addressed : m.isArray = true → Rising arity needs h [.part (.address a)] (h + 1)) :
    Rising arity needs h (printSegments a) h := by
  cases a with
  | text note s => exact .idle nonneg rfl
  | _ =>
    unfold printSegments
    simp only [isMode]
    split
    case isTrue text => exact .cons (valued (Rising.not_isArray_of_isString text)) (.drop nonneg rfl)
    case isFalse =>
      split
      case isTrue array =>
        refine .cons (addressed array) (.cons (.loadBlock nonneg m.size) ?_)
        exact .exchange nonneg rfl rfl (Int.add_zero h)
      case isFalse single => exact .cons (valued (Bool.eq_false_of_not_eq_true single)) (.drop nonneg rfl)

/-- The operation of an operator on operands of a type replaces two words by one. -/
theorem BinaryOp.operation_merges {o : BinaryOp} (defined : o.definedOn t = true) :
    Instruction.moves arity { op := if t == .string then o.stringOpcode else o.opcode } = (false, 2, 1) := by
  by_cases text : t = .string
  · subst text
    cases o <;> simp [BinaryOp.definedOn] at defined <;> rfl
  · rw [if_neg (by simpa using text)]
    cases o <;> rfl

/-- An operator on one operand replaces it. -/
theorem UnaryOp.opcode_keeps (o : UnaryOp) : Instruction.moves arity { op := o.opcode } = (false, 1, 1) := by
  cases o <;> rfl

theorem Expr.Typed.isBasic_unary {o : UnaryOp} {x : Expr Note}
    (typed : (Expr.unary note o x).Typed symbols) : (Expr.unary note o x).type.IsBasic := by
  obtain ⟨_, defined, mode, _⟩ := typed
  have basic := UnaryOp.isBasic_of_definedOn defined
  obtain ⟨r, result, _, type⟩ := Mode.ofScalar?_of_isBasic basic
  rw [show (Expr.unary note o x).type = r.type from type_of_mode (mode.trans result), type]
  exact basic

theorem Expr.Typed.isBasic_binary {o : BinaryOp} {x y : Expr Note}
    (typed : (Expr.binary note o x y).Typed symbols) : (Expr.binary note o x y).type.IsBasic := by
  obtain ⟨_, _, _, defined, mode, _⟩ := typed
  have basic := BinaryOp.isBasic_of_definedOn defined
  obtain ⟨r, result, _, type⟩ := Mode.ofScalar?_of_isBasic basic
  split at mode
  · rw [show (Expr.binary note o x y).type = .bool from type_of_mode mode]
    trivial
  · rw [show (Expr.binary note o x y).type = r.type from type_of_mode (mode.trans result), type]
    exact basic

/-- A conditional expression is no array. -/
theorem Expr.Typed.width_cond {arms : List (CondValue Note)} {otherwise : Expr Note}
    (typed : (Expr.cond note arms otherwise).Typed symbols) : (Expr.cond note arms otherwise).width = 1 := by
  obtain ⟨_, _, single, _, mode, _⟩ := typed
  split at mode
  · exact Expr.width_of_mode (e := .cond note arms otherwise) mode
  · have same : (Expr.cond note arms otherwise).note.mode = otherwise.note.mode := mode
    rw [← Expr.width_eq_one single, Expr.width, Expr.width, same]

/-- Among the nodes of a construct, calls pass words. -/
def AllPass (arity : Int64 → Int) (nodes : List (Node Note)) : Prop := ∀ n ∈ nodes, n.Passes arity

namespace AllPass

variable {n : Node Note} {front back : List (Node Note)}

theorem tail (passes : AllPass arity (n :: back)) : AllPass arity back := (List.forall_mem_cons.mp passes).2

theorem left (passes : AllPass arity (front ++ back)) : AllPass arity front := (List.forall_mem_append.mp passes).1

theorem right (passes : AllPass arity (front ++ back)) : AllPass arity back := (List.forall_mem_append.mp passes).2

end AllPass

/-- The value of a name. -/
theorem symbolCode_rising {s : Symbol} (nonneg : 0 ≤ h) (good : s.Good) (isMode : s.mode = some m) :
    Rising arity needs h (asSegments s.code) (h + m.width) := by
  obtain ⟨m', same, _, rest⟩ := good
  obtain rfl := Option.mem_unique isMode same
  unfold Symbol.code Mode.width
  by_cases synonym : s.category = .synonym
  · rw [if_pos (beq_iff_eq.mpr synonym)]
    rw [synonym] at rest
    rw [Mode.isArray, rest.isBasic.single.1]
    exact .constant nonneg _
  · rw [if_neg (by simpa using synonym), isMode]
    dsimp only
    by_cases text : m.isString
    · rw [if_pos text, Rising.not_isArray_of_isString text]
      exact .addressDraft nonneg s
    · rw [if_neg text]
      by_cases array : m.isArray
      · rw [if_pos array, if_pos array]
        exact .cons (.addressDraft nonneg s) (.loadBlock nonneg m.size)
      · rw [if_neg array, if_neg array]
        exact .loadDraft nonneg s

mutual

/-- The value of an expression raises the height by its width. -/
theorem Expr.Typed.rising (good : ∀ s ∈ symbols, s.Good) : ∀ {e : Expr Note}, e.Typed symbols → AllPass arity e.nodes →
    e.type ≠ .void → ∀ (needs : List (Int64 × Int)) {h : Int}, 0 ≤ h →
      Rising arity needs h e.valueSegments (h + e.width)
  | .int _ _, typed, _, _, _, _, nonneg | .bool _ _, typed, _, _, _, _, nonneg | .char _ _, typed, _, _, _, _, nonneg
  | .text _ _, typed, _, _, _, _, nonneg => by
    simp only [Expr.width, Expr.note, typed.1, Option.map_some, Option.getD_some]
    exact .push nonneg rfl
  | .ident name, typed, _, _, _, _, nonneg => by
    obtain ⟨symbol, found, isSymbol, _, sameMode, _⟩ := typed
    have goodSymbol := good symbol (findSymbol_some found).1
    obtain ⟨m, isMode, _⟩ := id goodSymbol
    rw [Expr.width_of_mode (e := .ident name) (sameMode.trans isMode), Expr.valueSegments, isSymbol]
    exact symbolCode_rising nonneg goodSymbol isMode
  | .unary note o x, typed, passes, _, needs, _, nonneg => by
    have single := typed.isBasic_unary.single.1
    obtain ⟨typedX, defined, _⟩ := typed
    obtain ⟨singleX, knownX⟩ := (UnaryOp.isBasic_of_definedOn defined).single
    have operand := typedX.rising good passes.tail knownX needs nonneg
    rw [Expr.width_eq_one single]
    exact .cons (single_part operand singleX) (.keep nonneg o.opcode_keeps)
  | .binary note o x y, typed, passes, _, needs, h, nonneg => by
    have single := typed.isBasic_binary.single.1
    obtain ⟨typedX, typedY, sameType, defined, _⟩ := typed
    obtain ⟨singleX, knownX⟩ := (BinaryOp.isBasic_of_definedOn defined).single
    have one : 0 ≤ h + 1 := by omega
    have left := typedX.rising good passes.tail.left knownX needs nonneg
    have right := typedY.rising good passes.tail.right (sameType ▸ knownX) needs one
    rw [Expr.width_eq_one single]
    refine .cons (single_part left singleX)
      (.cons (single_part right (sameType ▸ singleX)) ?_)
    exact .merge nonneg (BinaryOp.operation_merges defined)
  | .cond note arms otherwise, typed, passes, _, needs, h, nonneg => by
    rw [typed.width_cond]
    obtain ⟨typedArms, typedElse, singleElse, knownElse, _⟩ := typed
    -- The exit stands behind the last value, one word above the height before the arms.
    have before : Expr.valueSegments (.cond note arms otherwise) =
        (valueArmSegments (note.firstLabel + Int64.ofNat arms.length) note.firstLabel arms ++ [.part (.value otherwise)]) ++
          .draft (.op1 .lbl (note.firstLabel + Int64.ofNat arms.length)) :: [] := by
      rw [List.append_assoc]
      rfl
    rw [before]
    have above : 0 ≤ h + 1 := by omega
    refine .join above (.append (typedArms.rising good singleElse knownElse passes.tail.left _ List.mem_cons_self nonneg) ?_)
      (.nil _)
    exact single_part (typedElse.rising good passes.tail.right knownElse _ nonneg) singleElse
  | .call note callee args, typed, passes, known, needs, h, nonneg => by
    obtain ⟨typedArgs, call, _⟩ := typed
    obtain ⟨proc, called, fine, _, isResult⟩ := call.procedure good
    have known : proc.result.type ≠ .void := by
      rw [← type_of_mode isResult]
      exact known
    have left := callSegments_rising good call (passes _ List.mem_cons_self)
      (fun _ fits carries _ => typedArgs.argumentsRising good passes.tail.tail fits carries needs) nonneg
    have leaves : callLeaves callee = true := by
      rw [callLeaves, called]
      exact fine.leaves (.inr known)
    rw [leaves] at left
    rw [Expr.width_of_mode (e := .call note callee args) isResult]
    refine .append left ?_
    unfold callResultCode
    rw [called]
    dsimp only
    cases direct : proc.resultLoc with
    | true => exact .indirectCode nonneg proc.result
    | false =>
      rw [fine.result_width direct known]
      exact .nil _
  | .index note x indexes, typed, passes, _, needs, h, nonneg => by
    obtain ⟨m, r, isMode, proper, result, indexed⟩ := typed.index_modes good
    obtain ⟨typedX, location, typedIndexes, ints, _⟩ := typed
    rw [Expr.width_of_mode (e := .index note x indexes) result, Expr.valueSegments, isMode, result]
    refine .cons (.part (typedX.addressRising good location passes.tail.left _ nonneg)) (.append ?_ (.indirectCode nonneg r))
    exact typedIndexes.indexesRising good ints passes.tail.right proper indexed _ nonneg
  | .deref note x, typed, passes, _, needs, h, nonneg => by
    obtain ⟨m, isMode, _⟩ := Expr.Typed.hasMode good typed
    have isMode : note.mode = some m := isMode
    obtain ⟨typedX, reference, _⟩ := typed
    obtain ⟨singleX, knownX⟩ := ValueType.single_of_isReference reference
    have pointer := typedX.rising good passes.tail knownX needs nonneg
    rw [Expr.width_of_mode (e := .deref note x) isMode, Expr.valueSegments, isMode]
    exact .cons (single_part pointer singleX) (.indirectCode nonneg m)
  | .ref note x, typed, passes, _, needs, h, nonneg => by
    obtain ⟨typedX, location, mode, _⟩ := typed
    obtain ⟨m, isMode, _⟩ := typedX.hasMode good
    rw [isMode] at mode
    rw [Expr.width_of_mode (e := .ref note x) mode]
    exact .part (typedX.addressRising good location passes.tail _ nonneg)

/-- The address of a location raises the height by one. -/
theorem Expr.Typed.addressRising (good : ∀ s ∈ symbols, s.Good) : ∀ {e : Expr Note}, e.Typed symbols →
    e.isLocation = true → AllPass arity e.nodes → ∀ (needs : List (Int64 × Int)) {h : Int}, 0 ≤ h →
      Rising arity needs h e.addressSegments (h + 1)
  | .int _ _, _, location, _, _, _, _ | .bool _ _, _, location, _, _, _, _ | .char _ _, _, location, _, _, _, _
  | .text _ _, _, location, _, _, _, _ | .unary _ _ _, _, location, _, _, _, _
  | .binary _ _ _ _, _, location, _, _, _, _ | .cond _ _ _, _, location, _, _, _, _
  | .ref _ _, _, location, _, _, _, _ => by cases location
  | .ident name, typed, _, _, _, _, nonneg => by
    obtain ⟨symbol, _, isSymbol, _⟩ := typed
    rw [Expr.addressSegments, isSymbol]
    exact .addressDraft nonneg symbol
  | .call note callee args, typed, location, passes, needs, h, nonneg => by
    obtain ⟨typedArgs, call, _⟩ := typed
    obtain ⟨proc, called, fine, _⟩ := call.procedure good
    have left := callSegments_rising good call (passes _ List.mem_cons_self)
      (fun _ fits carries _ => typedArgs.argumentsRising good passes.tail.tail fits carries needs) nonneg
    have leaves : callLeaves callee = true := by
      rw [Expr.isLocation, called] at location
      rw [callLeaves, called]
      exact fine.leaves (.inl location)
    rw [leaves] at left
    exact left
  | .index note x indexes, typed, _, passes, needs, h, nonneg => by
    obtain ⟨m, r, isMode, proper, result, indexed⟩ := typed.index_modes good
    obtain ⟨typedX, location, typedIndexes, ints, _⟩ := typed
    rw [Expr.addressSegments, isMode]
    refine .cons (.part (typedX.addressRising good location passes.tail.left _ nonneg)) ?_
    exact typedIndexes.indexesRising good ints passes.tail.right proper indexed _ nonneg
  | .deref note x, typed, _, passes, needs, h, nonneg => by
    obtain ⟨typedX, reference, _⟩ := typed
    obtain ⟨singleX, knownX⟩ := ValueType.single_of_isReference reference
    have pointer := typedX.rising good passes.tail knownX needs nonneg
    exact single_part pointer singleX

/-- Indexes turn an address into another. -/
theorem Expr.TypedList.indexesRising (good : ∀ s ∈ symbols, s.Good) : ∀ {indexes : List (Expr Note)},
    Expr.TypedList symbols indexes → (∀ i ∈ indexes, i.type = .int) → AllPass arity (Expr.listNodes indexes) →
    ∀ {m r : Mode}, m.Proper → m.indexed? indexes.length = some r → ∀ (needs : List (Int64 × Int)) {h : Int}, 0 ≤ h →
      Rising arity needs (h + 1) (indexSegments (some m) indexes) (h + 1)
  | [], _, _, _, _, _, _, _, _, _, _ => .nil _
  | i :: rest, typed, ints, passes, m, r, proper, indexed, needs, h, nonneg => by
    obtain ⟨isInt, ints⟩ := List.forall_mem_cons.mp ints
    obtain ⟨elem, isElem, properElem, indexedElem, _⟩ := emitElement_emits proper indexed
    have one : 0 ≤ h + 1 := by omega
    have known : i.type ≠ .void := by simp [isInt]
    have single : i.type.isArray = false := by rw [isInt]; rfl
    have offset := typed.1.rising good passes.left known needs one
    rw [indexSegments, isElem]
    refine .cons (single_part offset single) (.append (.elementCode nonneg m) ?_)
    exact typed.2.indexesRising good ints passes.right properElem indexedElem _ nonneg

/-- The arms of a conditional expression leave the height alone where they are passed, and jump to the exit one
word above. -/
theorem Expr.TypedArms.rising (good : ∀ s ∈ symbols, s.Good) {type : ValueType} : ∀ {arms : List (CondValue Note)},
    Expr.TypedArms symbols type arms → type.isArray = false → type ≠ .void → AllPass arity (Expr.armNodes arms) →
    ∀ {exit label : Int64} (needs : List (Int64 × Int)) {h : Int}, (exit, h + 1) ∈ needs → 0 ≤ h →
      Rising arity needs h (valueArmSegments exit label arms) h
  | [], _, _, _, _, _, _, _, _, _, _ => .nil _
  | .mk _ test value :: rest, typed, single, known, passes, exit, label, needs, h, exits, nonneg => by
    obtain ⟨typedTest, isBool, typedValue, rfl, typedRest⟩ := typed
    have tested := typedTest.rising good passes.tail.left.left (by simp [isBool]) ((label, h) :: needs) nonneg
    have valued := typedValue.rising good passes.tail.left.right known ((label, h) :: needs) nonneg
    have singleTest : test.type.isArray = false := by rw [isBool]; rfl
    have up : h + 1 - 1 = h := by omega
    have skips : (label, h + 1 - 1) ∈ (label, h) :: needs := by simp [up]
    have above : 1 ≤ h + 1 := by omega
    have branches : Rising arity ((label, h) :: needs) (h + 1) [.draft (.op1 .jof label)] (h + 1 - 1) :=
      .branch above skips
    rw [up] at branches
    have arm : Rising arity ((label, h) :: needs) h [.part (.value test), .draft (.op1 .jof label), .part (.value value),
        .draft (.op1 .jmp exit)] h := by
      refine .cons (single_part tested singleTest) (.cons branches ?_)
      refine .cons (single_part valued single) (.jump ?_ (List.mem_cons_of_mem _ exits) h)
      omega
    exact arm.join nonneg
      (typedRest.rising good single known passes.tail.right _ (List.mem_cons_of_mem _ exits) nonneg)

/-- Arguments leave what they pass. -/
theorem Expr.TypedList.argumentsRising (good : ∀ s ∈ symbols, s.Good) : ∀ {args : List (Expr Note)},
    Expr.TypedList symbols args → AllPass arity (Expr.listNodes args) → ∀ {how : Passing}, how.Fits args →
    how.Carries args → ∀ (needs : List (Int64 × Int)) {h : Int}, 0 ≤ h →
      Rising arity needs h (argumentSegments how args) (h + how.words)
  | [], _, _, how, fits, _, _, h, _ => by
    cases how with
    | params ps =>
      cases fits
      rw [show h + Passing.words (.params []) = h from Int.add_zero h]
      exact .nil h
    | operand =>
      obtain ⟨_, none⟩ := fits
      cases none
    | _ =>
      rw [Passing.words, Int.add_zero]
      exact .nil h
  | a :: rest, typed, passes, how, fits, carries, needs, h, nonneg => by
    obtain ⟨typedA, typedRest⟩ := typed
    obtain ⟨m, isMode, _⟩ := typedA.hasMode good
    have typeA : a.type = m.type := type_of_mode isMode
    cases how with
    | read =>
      obtain ⟨readable, fits⟩ := List.forall_mem_cons.mp fits
      have fits : Passing.Fits rest .read := fits
      have addressed := Rising.part (k := .address a) (typedA.addressRising good readable.1 passes.left needs nonneg)
      exact .append (readSegments_rising nonneg typedA isMode addressed)
        (typedRest.argumentsRising good passes.right fits trivial _ nonneg)
    | print =>
      obtain ⟨printable, fits⟩ := List.forall_mem_cons.mp fits
      have fits : Passing.Fits rest .print := fits
      refine .append (printSegments_rising nonneg isMode (fun single => ?_) (fun array => ?_))
        (typedRest.argumentsRising good passes.right fits trivial _ nonneg)
      · exact value_part (typedA.rising good passes.left printable.1 _ nonneg)
          (Expr.width_eq_one (typeA ▸ single))
      · exact .part (typedA.addressRising good (printable.2 (typeA ▸ array)).2 passes.left _ nonneg)
    | operand =>
      obtain ⟨single, known⟩ := carries a List.mem_cons_self
      exact value_part (typedA.rising good passes.left known _ nonneg) single
    | params ps =>
      cases fits with
      | @cons p _ ps _ takes fits =>
        obtain ⟨word, carries⟩ := List.forall₂_cons.mp carries
        obtain ⟨_, _, _, located⟩ := takes
        have fits : Passing.Fits rest (.params ps) := fits
        have one : 0 ≤ h + 1 := by omega
        have others := typedRest.argumentsRising good passes.right fits carries needs one
        have words : h + Passing.words (.params (p :: ps)) = h + 1 + Passing.words (.params ps) := by
          simp only [Passing.words, List.length_cons, Nat.cast_add, Nat.cast_one]
          omega
        rw [words]
        refine .cons ?_ others
        cases loc : p.loc with
        | true => exact .part (typedA.addressRising good (located loc).1 passes.left _ nonneg)
        | false =>
          obtain ⟨single, known⟩ := word loc
          exact value_part (typedA.rising good passes.left known _ nonneg) single

end

end Ast

end LyaLang
