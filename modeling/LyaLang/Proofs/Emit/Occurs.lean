import LyaLang.Proofs.Check.Sound
import LyaLang.Proofs.Emit.Expr
import LyaLang.Proofs.Emit.Frames
import LyaLang.Proofs.Machine.Canonical

/-! # What occurs in compiled code

The instructions of sound code, as far as control, frames and strings go: a jump or a call has a label that the
code defines, frames are not negative, words are stored one at a time, a procedure removes as many arguments as it
has parameters, a word is addressed where one of the frames around the instruction holds it, and a string is one
that the program writes down. The level of a procedure is the number of frames around its own.
-/

namespace LyaLang

open Ast

variable {d : Draft} {symbol : Symbol} {id : Ident Note} {value : Expr Note}

/-- The operations that address a word of a frame. -/
def Opcode.isAccess : Opcode → Bool
  | .ldv | .ldr | .stv | .lrv | .srv => true
  | _ => false

/-- The operations that have nothing to do with labels, strings, frames and the extent of blocks to store. -/
def Opcode.isOrdinary : Opcode → Bool
  | .alc | .dlc | .smv | .enf | .ret | .jmp | .jof | .cfu | .lbl => false
  | op => !op.isAccess && !op.usesPool

/-- A draft of an ordinary operation in canonical form. -/
def Draft.isOrdinary (d : Draft) : Bool :=
  d.instruction.op.isOrdinary && d.instruction.isCanonical && d.text.isNone

theorem Draft.op_isOrdinary (ordinary : d.isOrdinary = true) : d.instruction.op.isOrdinary = true :=
  (Bool.and_eq_true_iff.mp (Bool.and_eq_true_iff.mp ordinary).1).1

/-- The nodes that can stand for a string: strings, names and operators. -/
def Ast.Node.isTextual : Node Note → Bool
  | .ident _ | .expr (.text _ _) | .expr (.binary _ _ _ _) => true
  | _ => false

/-- The strings of a program: those that its nodes stand for, and the end of a printed line. -/
def Written (nodes : List (Node Note)) (s : Bytes) : Prop :=
  s = "\n" ∨ ∃ n ∈ nodes, n.isTextual = true ∧ n.note.constant = some (.ofText s)

/-- Nodes that stand among others, in their order. -/
def Within (nodes part : List (Node Note)) : Prop := part.Sublist nodes

namespace Within

variable {nodes front rest : List (Node Note)} {n : Node Note}

theorem head (within : Within nodes (n :: rest)) : n ∈ nodes := within.subset List.mem_cons_self

theorem tail (within : Within nodes (n :: rest)) : Within nodes rest := (List.sublist_cons_self _ _).trans within

theorem left (within : Within nodes (front ++ rest)) : Within nodes front := (List.sublist_append_left _ _).trans within

theorem right (within : Within nodes (front ++ rest)) : Within nodes rest := (List.sublist_append_right _ _).trans within

theorem optional {e : Expr Note} {o : Option (Expr Note)} (within : Within nodes (optionalNodes o)) (isSome : o = some e) :
    Within nodes e.nodes := by
  subst isSome
  exact within

theorem weigh_le (within : Within nodes rest) : weigh rest ≤ weigh nodes :=
  (within.map Node.weight).sum_le_sum fun _ _ => Nat.zero_le _

end Within

/-- What occurs inside frames in the code of a tree that defines certain labels. -/
inductive Draft.Occurs (defined : Int64 → Prop) (nodes : List (Node Note)) (fs : List Frame) : Draft → Prop where
  | ordinary {d : Draft} (ordinary : d.isOrdinary = true) : Occurs defined nodes fs d
  | access {op : Opcode} {level offset : Int64} (isAccess : op.isAccess = true) (reaches : Reaches fs op level offset) :
    Occurs defined nodes fs (.op2 op level offset)
  | string {op : Opcode} {s : Bytes} {b : Int64} (isPooled : op.usesPool = true)
    (canonical : ({ op, b } : Instruction).isCanonical = true) (written : Written nodes s) :
    Occurs defined nodes fs (.pooled op s b)
  | store : Occurs defined nodes fs (.op1 .smv 1)
  | reserve {words : Int64} (nonneg : 0 ≤ words) : Occurs defined nodes fs (.op1 .alc words)
  | release {words : Int64} (nonneg : 0 ≤ words) : Occurs defined nodes fs (.op1 .dlc words)
  | enter {outer : List Frame} {f : Frame} (innermost : fs = outer ++ [f]) :
    Occurs defined nodes fs (.op1 .enf (Int64.ofNat outer.length))
  | leave {outer : List Frame} {f : Frame} (innermost : fs = outer ++ [f]) (few : 2 * f.params + 5 ≤ weigh nodes) :
    Occurs defined nodes fs (.op2 .ret (Int64.ofNat outer.length) (Int64.ofNat f.params))
  | label {l : Int64} (isDefined : defined l) : Occurs defined nodes fs (.op1 .lbl l)
  | jump {l : Int64} (isDefined : defined l) : Occurs defined nodes fs (.op1 .jmp l)
  | branch {l : Int64} (isDefined : defined l) : Occurs defined nodes fs (.op1 .jof l)
  | call {l : Int64} (isDefined : defined l) : Occurs defined nodes fs (.op1 .cfu l)

/-- The label that a draft defines. -/
def Draft.label? (d : Draft) : Option Int64 := if d.instruction.op == .lbl then some d.instruction.a else none

/-- The labels that drafts define, in their order. -/
def definedLabels (drafts : List Draft) : List Int64 := drafts.filterMap Draft.label?

@[simp] theorem definedLabels_nil : definedLabels [] = [] := rfl

@[simp] theorem definedLabels_append (front rest : List Draft) :
    definedLabels (front ++ rest) = definedLabels front ++ definedLabels rest := List.filterMap_append

theorem definedLabels_cons (d : Draft) (rest : List Draft) :
    definedLabels (d :: rest) = d.label?.toList ++ definedLabels rest := by
  rw [definedLabels, List.filterMap_cons]
  cases d.label? <;> rfl

@[simp] theorem definedLabels_label (l : Int64) (rest : List Draft) :
    definedLabels (.op1 .lbl l :: rest) = l :: definedLabels rest := rfl

theorem mem_definedLabels {l : Int64} {drafts : List Draft} (member : .op1 .lbl l ∈ drafts) :
    l ∈ definedLabels drafts := List.mem_filterMap.mpr ⟨_, member, rfl⟩

/-- Drafts inside frames that occur in code that defines their labels. -/
def Closed (defined : Int64 → Prop) (nodes : List (Node Note)) (code : List (List Frame × Draft)) : Prop :=
  (∀ l ∈ definedLabels (code.map Prod.snd), defined l) → ∀ x ∈ code, x.2.Occurs defined nodes x.1

namespace Closed

variable {defined : Int64 → Prop} {nodes : List (Node Note)} {fs : List Frame} {front rest : List (List Frame × Draft)}

theorem nil : Closed defined nodes [] := by
  intro _ x member
  cases member

theorem append (first : Closed defined nodes front) (second : Closed defined nodes rest) :
    Closed defined nodes (front ++ rest) := by
  intro labels
  rw [List.map_append, definedLabels_append] at labels
  obtain ⟨inFront, inRest⟩ := List.forall_mem_append.mp labels
  exact List.forall_mem_append.mpr ⟨first inFront, second inRest⟩

/-- A draft that occurs wherever its own label is defined. -/
theorem single (occurs : (∀ l, d.label? = some l → defined l) → d.Occurs defined nodes fs) :
    Closed defined nodes [(fs, d)] := by
  intro labels
  refine List.forall_mem_singleton.mpr (occurs fun l isLabel => labels l ?_)
  rw [List.map_singleton, definedLabels_cons, isLabel]
  exact List.mem_cons_self

theorem cons (occurs : d.Occurs defined nodes fs) (closed : Closed defined nodes rest) :
    Closed defined nodes ((fs, d) :: rest) :=
  (single fun _ => occurs).append closed

theorem label (l : Int64) (closed : Closed defined nodes rest) : Closed defined nodes ((fs, .op1 .lbl l) :: rest) :=
  append (single fun isDefined => .label (isDefined l rfl)) closed

theorem ordinary (ordinary : d.isOrdinary = true := by rfl) : Closed defined nodes [(fs, d)] :=
  single fun _ => .ordinary ordinary

/-- Drafts inside the same frames, one part after the other. -/
theorem both {front rest : List Draft} (first : Closed defined nodes (framed fs front))
    (second : Closed defined nodes (framed fs rest)) : Closed defined nodes (framed fs (front ++ rest)) := by
  rw [framed, List.map_append]
  exact first.append second

end Closed

/-- What a visible symbol refers to: the label of a procedure is defined, and the frames hold the words of what has
storage. -/
structure Symbol.Linked (defined : Int64 → Prop) (fs : List Frame) (s : Symbol) : Prop where
  entry : ∀ p, s.proc = some p → p.builtin = none → defined p.entry
  held : s.category.hasStorage = true → Held fs s.level s.offset

/-- Good symbols that refer to labels and frames that are there. -/
def Linked (defined : Int64 → Prop) (fs : List Frame) (symbols : List Symbol) : Prop :=
  ∀ s ∈ symbols, s.Good ∧ s.Linked defined fs

variable {defined : Int64 → Prop} {nodes : List (Node Note)} {fs : List Frame} {symbols : List Symbol}

theorem Linked.good (linked : Linked defined fs symbols) : ∀ s ∈ symbols, s.Good := fun s member => (linked s member).1

namespace Symbol

variable {s : Symbol}

theorem loadDraft_occurs (held : Held fs s.level s.offset) : s.loadDraft.Occurs defined nodes fs := by
  unfold loadDraft
  split <;> exact .access rfl (.held held)

theorem storeDraft_occurs (held : Held fs s.level s.offset) : s.storeDraft.Occurs defined nodes fs := by
  unfold storeDraft
  split <;> exact .access rfl (.held held)

theorem addressDraft_occurs (held : Held fs s.level s.offset) : s.addressDraft.Occurs defined nodes fs := by
  unfold addressDraft
  split <;> exact .access rfl (.held held)

end Symbol

theorem Draft.load_ordinary {k : Word} (literal : k.isLiteral = true) : (Draft.load k).isOrdinary = true := by
  have canonical : (Draft.load k).instruction.isCanonical = k.isLiteral := rfl
  rw [Draft.isOrdinary, canonical, literal]
  rfl

/-- A constant of a type, which if it is a string is written. -/
theorem Draft.constant_occurs {k : Word} {t : ValueType} (fits : k.Fits t)
    (written : ∀ s, k = .ofText s → Written nodes s) : (Draft.constant k).Occurs defined nodes fs := by
  unfold Draft.constant
  split
  · rename_i isText
    have isString := fits.kind_text_iff.mp (eq_of_beq isText)
    subst isString
    obtain ⟨s, rfl⟩ := fits
    exact .string rfl rfl (written s rfl)
  · exact .ordinary (Draft.load_ordinary fits.isLiteral)

theorem Mode.indirectCode_closed (m : Mode) : Closed defined nodes (framed fs m.indirectCode) := by
  unfold Mode.indirectCode
  split
  · exact .nil
  · split <;> exact .ordinary

theorem Mode.elementCode_closed (m : Mode) : Closed defined nodes (framed fs m.elementCode) := by
  unfold Mode.elementCode
  split <;> exact .cons (.ordinary rfl) (.cons (.ordinary rfl) (.cons (.ordinary rfl) .ordinary))

theorem Ast.UnaryOp.opcode_ordinary (o : UnaryOp) : (Draft.op o.opcode).isOrdinary = true := by
  cases o <;> rfl

theorem Ast.BinaryOp.opcode_ordinary (o : BinaryOp) : (Draft.op o.opcode).isOrdinary = true := by
  cases o <;> rfl

theorem Ast.BinaryOp.stringOpcode_ordinary (o : BinaryOp) : (Draft.op o.stringOpcode).isOrdinary = true := by
  cases o <;> rfl

/-- The operation of a predefined procedure. -/
theorem Procedure.Good.operation_ordinary {p : Procedure} (good : p.Good) {op : Opcode} {accepts : List ValueType}
    (operation : p.builtin = some (.operation op accepts)) : (Draft.op op).isOrdinary = true := by
  obtain ⟨_, predefined⟩ := good
  rw [operation] at predefined
  obtain ⟨symbol, member, isProc⟩ := predefined
  simp only [Context.predefinedProcedures, List.mem_cons, List.not_mem_nil, or_false] at member
  rcases member with rfl | rfl | rfl | rfl | rfl | rfl | rfl <;> cases isProc <;> cases operation <;> rfl

namespace Ast

/-- A string that an expression stands for is written. -/
theorem Expr.Typed.written (good : ∀ s ∈ symbols, s.Good) {e : Expr Note} (typed : e.Typed symbols)
    (within : Within nodes e.nodes) {s : Bytes} (constant : e.note.constant = some (.ofText s)) : Written nodes s := by
  obtain ⟨m, isMode, _, fits⟩ := typed.hasMode good
  have isString : e.note.type = .string := by
    rw [type_of_mode isMode]
    exact (fits _ constant).kind_text_iff.mp rfl
  cases e with
  | ident id => exact .inr ⟨.ident id, within.head, rfl, constant⟩
  | text note value => exact .inr ⟨.expr (.text note value), within.head, rfl, constant⟩
  | binary note o x y => exact .inr ⟨.expr (.binary note o x y), within.head, rfl, constant⟩
  | int | bool | char => cases typed.2.symm.trans constant
  | unary note o x =>
    obtain ⟨_, defined, mode, _⟩ := typed
    have known : note.mode = some m := isMode
    have isString : m.type = .string := (type_of_mode known).symm.trans isString
    cases o <;> cases type : x.type <;> rw [type] at mode defined <;> cases defined <;>
      · obtain rfl := Option.mem_unique mode known
        cases isString
  | cond => cases typed.2.2.2.2.2.symm.trans constant
  | call => cases typed.2.2.symm.trans constant
  | index => cases typed.2.2.2.2.2.2.symm.trans constant
  | deref => cases typed.2.2.2.symm.trans constant
  | ref => cases typed.2.2.2.symm.trans constant

/-- The symbol of a name that stands for a value: a synonym, or one with storage. -/
theorem hasStorage_of_isValue {s : Symbol} (isValue : s.IsValue) (other : s.category ≠ .synonym) :
    s.category.hasStorage = true := by
  obtain ⟨noMode, noProcedure⟩ := isValue
  cases category : s.category <;> first | rfl | contradiction

theorem Symbol.code_closed (good : symbol.Good) (linked : symbol.Linked defined fs) (isValue : symbol.IsValue)
    (written : ∀ s, symbol.constant? = some (.ofText s) → Written nodes s) :
    Closed defined nodes (framed fs symbol.code) := by
  unfold Symbol.code
  split
  · rename_i synonym
    obtain ⟨m, _, _, fits⟩ := good
    rw [eq_of_beq synonym] at fits
    refine .cons (Draft.constant_occurs fits fun s isText => written s ?_) .nil
    rw [Symbol.constant?, if_pos (eq_of_beq synonym), isText]
  · rename_i other
    have held := linked.held (hasStorage_of_isValue isValue fun synonym => other (by rw [synonym]; rfl))
    split
    · split
      · exact .cons (Symbol.addressDraft_occurs held) .nil
      · split
        · exact .cons (Symbol.addressDraft_occurs held) .ordinary
        · exact .cons (Symbol.loadDraft_occurs held) .nil
    · exact .cons (Symbol.loadDraft_occurs held) .nil

/-- The symbol of a name that denotes a location. -/
theorem exists_held (linked : Linked defined fs symbols) (typed : (Expr.ident id).Typed symbols)
    (location : (Expr.ident id).isLocation = true) :
    ∃ symbol, id.note.symbol = some symbol ∧ Held fs symbol.level symbol.offset := by
  obtain ⟨symbol, found, isSymbol, _⟩ := typed
  rw [Expr.isLocation, isSymbol] at location
  exact ⟨symbol, isSymbol, (linked symbol (findSymbol_some found).1).2.held location⟩

theorem callCode_closed (linked : Linked defined fs symbols) {callee : Ident Note} {args : List (Expr Note)}
    {result : Option Mode} {code : Passing → List Draft} (typed : CallTyped symbols callee args result)
    (passes : ∀ how : Passing, how.Fits args → Closed defined nodes (framed fs (code how))) :
    Closed defined nodes (framed fs (callCode callee code)) := by
  obtain ⟨symbol, proc, found, isSymbol, category, isProc, takes, _⟩ := typed
  obtain ⟨good, isLinked⟩ := linked symbol (findSymbol_some found).1
  obtain ⟨fine, _⟩ := good.proc category isProc
  have called := bind_proc isSymbol isProc
  unfold callCode
  unfold Procedure.Takes at takes
  rw [called]
  dsimp only
  cases builtin : proc.builtin with
  | none =>
    rw [builtin] at takes
    exact .cons (.reserve (by decide)) (.both (passes _ takes) (.cons (.call (isLinked.entry proc isProc builtin)) .nil))
  | some b =>
    rw [builtin] at takes
    cases b with
    | read => exact passes .read takes
    | print => exact .both (passes .print takes) (.cons (.string rfl rfl (.inl rfl)) .nil)
    | operation op accepts =>
      obtain ⟨a, rfl, _⟩ := takes
      exact .both (passes .operand ⟨a, rfl⟩) (.ordinary (fine.operation_ordinary builtin))

theorem callResultCode_closed (callee : Ident Note) : Closed defined nodes (framed fs (callResultCode callee)) := by
  unfold callResultCode
  split
  · exact .nil
  · split
    · exact Mode.indirectCode_closed _
    · exact .nil

theorem readCode_closed (linked : Linked defined fs symbols) {a : Expr Note} (typed : a.Typed symbols)
    (location : a.isLocation = true) {code : List Draft} (addressed : Closed defined nodes (framed fs code)) :
    Closed defined nodes (framed fs (readCode a code)) := by
  unfold readCode
  split
  · exact .nil
  · split
    · exact .both addressed .ordinary
    · cases a with
      | ident id =>
        obtain ⟨symbol, isSymbol, held⟩ := exists_held linked typed location
        dsimp only
        rw [isSymbol]
        exact .cons (.ordinary rfl) (.cons (Symbol.storeDraft_occurs held) .nil)
      | _ => exact .both addressed (.cons (.ordinary rfl) (.cons .store .nil))

theorem printCode_closed (good : ∀ s ∈ symbols, s.Good) {a : Expr Note} (typed : a.Typed symbols)
    (within : Within nodes a.nodes) {code code' : List Draft} (valued : Closed defined nodes (framed fs code))
    (addressed : a.type.isArray = true → Closed defined nodes (framed fs code')) :
    Closed defined nodes (framed fs (printCode a code code')) := by
  unfold printCode
  split
  · exact .cons (.string rfl rfl (typed.written good within typed.2)) .nil
  · split
    · exact .nil
    · rename_i m isMode
      split
      · exact .both valued .ordinary
      · split
        · rename_i array
          have type : a.type = m.type := type_of_mode isMode
          exact .both (addressed (type ▸ array)) (.cons (.ordinary rfl) .ordinary)
        · exact .both valued .ordinary

mutual

theorem Expr.Typed.closed (linked : Linked defined fs symbols) :
    ∀ {e : Expr Note}, e.Typed symbols → Within nodes e.nodes → Closed defined nodes (framed fs e.valueCode)
  | .int _ _, _, _ => .ordinary
  | .text _ _, typed, within => .cons (.string rfl rfl (typed.written linked.good within typed.2)) .nil
  | .bool _ value, _, _ => .ordinary (Draft.load_ordinary (Word.isLiteral_iff.mpr (.inr (.inl ⟨value, rfl⟩))))
  | .char _ value, _, _ => .ordinary (Draft.load_ordinary (Word.isLiteral_ofChar value))
  | .ident id, typed, within => by
    obtain ⟨symbol, found, isSymbol, isValue, _, isConstant⟩ := typed
    obtain ⟨good, isLinked⟩ := linked symbol (findSymbol_some found).1
    rw [Expr.valueCode, isSymbol]
    exact Symbol.code_closed good isLinked isValue fun s isText =>
      .inr ⟨.ident id, within.head, rfl, isConstant.trans isText⟩
  | .unary _ o _, typed, within => .both (typed.1.closed linked within.tail) (.ordinary o.opcode_ordinary)
  | .binary _ o _ _, typed, within => by
    refine .both (typed.1.closed linked within.tail.left) (.both (typed.2.1.closed linked within.tail.right) (.ordinary ?_))
    split
    · exact o.stringOpcode_ordinary
    · exact o.opcode_ordinary
  | .cond note arms otherwise, typed, within => by
    intro labels
    have exit := labels (note.firstLabel + Int64.ofNat arms.length) (by simp [Expr.valueCode])
    exact Closed.both (typed.1.closed linked within.tail.left exit)
      (.both (typed.2.1.closed linked within.tail.right) (.label _ .nil)) labels
  | .call _ callee _, typed, within =>
    .both (callCode_closed linked typed.2.1 fun _ => typed.1.argumentsClosed linked within.tail.tail)
      (callResultCode_closed callee)
  | .index note _ _, typed, within => by
    obtain ⟨typedX, location, typedIndexes, _⟩ := typed
    refine .both (typedX.addressClosed linked location within.tail.left)
      (.both (typedIndexes.indexesClosed linked within.tail.right) ?_)
    cases note.mode with
    | none => exact .nil
    | some m => exact m.indirectCode_closed
  | .deref note _, typed, within => by
    refine .both (typed.1.closed linked within.tail) ?_
    cases note.mode with
    | none => exact .nil
    | some m => exact m.indirectCode_closed
  | .ref _ _, typed, within => typed.1.addressClosed linked typed.2.1 within.tail

theorem Expr.Typed.addressClosed (linked : Linked defined fs symbols) :
    ∀ {e : Expr Note}, e.Typed symbols → e.isLocation = true → Within nodes e.nodes →
      Closed defined nodes (framed fs e.addressCode)
  | .int _ _, _, _, _ | .bool _ _, _, _, _ | .char _ _, _, _, _ | .text _ _, _, _, _ | .unary _ _ _, _, _, _
  | .binary _ _ _ _, _, _, _ | .cond _ _ _, _, _, _ | .ref _ _, _, _, _ => .nil
  | .ident id, typed, location, _ => by
    obtain ⟨symbol, isSymbol, held⟩ := exists_held linked typed location
    rw [Expr.addressCode, isSymbol]
    exact .cons (Symbol.addressDraft_occurs held) .nil
  | .call _ _ _, typed, _, within =>
    callCode_closed linked typed.2.1 fun _ => typed.1.argumentsClosed linked within.tail.tail
  | .index _ _ _, typed, _, within => by
    obtain ⟨typedX, location, typedIndexes, _⟩ := typed
    exact .both (typedX.addressClosed linked location within.tail.left)
      (typedIndexes.indexesClosed linked within.tail.right)
  | .deref _ _, typed, _, within => typed.1.closed linked within.tail

theorem Expr.TypedList.indexesClosed (linked : Linked defined fs symbols) :
    ∀ {indexes : List (Expr Note)}, Expr.TypedList symbols indexes → Within nodes (Expr.listNodes indexes) →
      ∀ {mode : Option Mode}, Closed defined nodes (framed fs (Expr.indexesCode mode indexes))
  | [], _, _, none | [], _, _, some _ | _ :: _, _, _, none => .nil
  | _ :: _, typed, within, some m => .both (typed.1.closed linked within.left)
    (.both m.elementCode_closed (typed.2.indexesClosed linked within.right))

theorem Expr.TypedArms.closed (linked : Linked defined fs symbols) {type : ValueType} :
    ∀ {arms : List (CondValue Note)}, Expr.TypedArms symbols type arms → Within nodes (Expr.armNodes arms) →
      ∀ {exit label : Int64}, defined exit → Closed defined nodes (framed fs (Expr.armsCode exit label arms))
  | [], _, _, _, _, _ => .nil
  | .mk _ _ _ :: _, typed, within, exit, label, isExit => by
    obtain ⟨test, _, value, _, rest⟩ := typed
    intro labels
    have isLabel := labels label (mem_definedLabels (by simp [Expr.armsCode]))
    exact Closed.both (test.closed linked within.tail.left.left) (.cons (.branch isLabel)
      (.both (value.closed linked within.tail.left.right) (.cons (.jump isExit) (.label _
        (rest.closed linked within.tail.right isExit))))) labels

theorem Expr.TypedList.argumentsClosed (linked : Linked defined fs symbols) :
    ∀ {args : List (Expr Note)}, Expr.TypedList symbols args → Within nodes (Expr.listNodes args) → ∀ {how : Passing},
      how.Fits args → Closed defined nodes (framed fs (Expr.argumentsCode how args))
  | [], _, _, how, _ => by
    cases how with
    | params ps => cases ps <;> exact .nil
    | _ => exact .nil
  | a :: rest, ⟨typed, typedRest⟩, within, how, fits => by
    have valued := typed.closed linked within.left
    have addressed (location : a.isLocation = true) := typed.addressClosed linked location within.left
    have others {how : Passing} (fits : how.Fits rest) := typedRest.argumentsClosed linked within.right fits
    cases how with
    | read =>
      obtain ⟨readable, fits⟩ := List.forall_mem_cons.mp fits
      exact .both (readCode_closed linked typed readable.1 (addressed readable.1)) (others fits)
    | print =>
      obtain ⟨printable, fits⟩ := List.forall_mem_cons.mp fits
      exact .both (printCode_closed linked.good typed within.left valued fun array => addressed (printable.2 array).2)
        (others fits)
    | operand => exact valued
    | params ps =>
      cases fits with
      | @cons p _ ps _ takes fits =>
        obtain ⟨_, _, _, located⟩ := takes
        refine Closed.both ?_ (others fits)
        split
        case isTrue loc => exact addressed (located loc).1
        case isFalse => exact valued

end

/-! ## Statements -/

/-- The code of a value that is stored whole: its own, or that of its address if it is an array. -/
structure Stored (defined : Int64 → Prop) (nodes : List (Node Note)) (fs : List Frame) (m : Mode) (value : Expr Note) : Prop where
  valued : Closed defined nodes (framed fs value.valueCode)
  addressed : m.isArray = true → Closed defined nodes (framed fs value.addressCode)
  written : ∀ k, value.note.constant = some k → k.kind = .text → Written nodes k.text

theorem Expr.Typed.stored (linked : Linked defined fs symbols) (typed : value.Typed symbols)
    (within : Within nodes value.nodes) {m : Mode} (location : m.isArray = true → value.isLocation = true) :
    Stored defined nodes fs m value where
  valued := typed.closed linked within
  addressed array := typed.addressClosed linked (location array) within
  written := by
    intro k constant isText
    obtain ⟨m, _, _, fits⟩ := typed.hasMode linked.good
    have fits := fits k constant
    rw [fits.kind_text_iff.mp isText] at fits
    obtain ⟨s, rfl⟩ := fits
    exact typed.written linked.good within constant

theorem stringCode_closed {m : Mode} (o : Option BinaryOp) (stored : Stored defined nodes fs m value) :
    Closed defined nodes (framed fs (stringCode m o value)) := by
  have valued := stored.valued
  unfold stringCode
  split
  · exact .cons (.ordinary rfl) (.both valued (.cons (.ordinary rfl) .ordinary))
  · split
    · rename_i c constant
      split
      · rename_i isText
        exact .cons (.string rfl rfl (stored.written c constant (eq_of_beq isText))) .nil
      · exact .both valued .ordinary
    · exact .both valued .ordinary

theorem assignSymbolCode_closed (held : Held fs symbol.level symbol.offset) (o : Option BinaryOp)
    (stored : ∀ m, symbol.mode = some m → Stored defined nodes fs m value) :
    Closed defined nodes (framed fs (assignSymbolCode symbol o value)) := by
  unfold assignSymbolCode
  split
  · exact .nil
  · rename_i m isMode
    have stored := stored m isMode
    have valued := stored.valued
    split
    · exact .cons (Symbol.addressDraft_occurs held) (stringCode_closed o stored)
    · split
      · rename_i array
        exact .cons (Symbol.addressDraft_occurs held) (.both (stored.addressed array) .ordinary)
      · split
        · exact .both valued (.cons (Symbol.storeDraft_occurs held) .nil)
        · rename_i o
          exact .cons (Symbol.loadDraft_occurs held) (.both valued
            (.cons (.ordinary o.opcode_ordinary) (.cons (Symbol.storeDraft_occurs held) .nil)))

theorem assignLocationCode_closed {target : Expr Note} (o : Option BinaryOp) (located : Closed defined nodes (framed fs target.addressCode))
    (stored : ∀ m, target.note.mode = some m → Stored defined nodes fs m value) :
    Closed defined nodes (framed fs (assignLocationCode target o value)) := by
  refine located.both ?_
  split
  · exact .nil
  · rename_i m isMode
    have stored := stored m isMode
    have valued := stored.valued
    split
    · exact stringCode_closed o stored
    · split
      · rename_i array
        exact .both (stored.addressed array) .ordinary
      · split
        · exact .both valued (.cons .store .nil)
        · rename_i o
          exact .cons (.ordinary rfl) (.cons (.ordinary rfl) (.both valued
            (.cons (.ordinary o.opcode_ordinary) (.cons .store .nil))))

theorem assignCode_closed (linked : Linked defined fs symbols) {target : Expr Note} {o : Option BinaryOp}
    (sound : AssignSound symbols target o value) (within : Within nodes (target.nodes ++ value.nodes)) :
    Closed defined nodes (framed fs (assignCode target o value)) := by
  have stored : ∀ m, target.note.mode = some m → Stored defined nodes fs m value := by
    intro m isMode
    have type : target.type = m.type := type_of_mode isMode
    refine sound.assigned.1.stored linked within.right fun array => ?_
    obtain ⟨_, _, location, _⟩ := sound.array (type ▸ array)
    exact location
  cases target with
  | ident id =>
    obtain ⟨symbol, isSymbol, held⟩ := exists_held linked sound.typed sound.location
    obtain ⟨_, _, same, _, isMode, _⟩ := sound.typed
    obtain rfl := Option.mem_unique isSymbol same
    rw [assignCode, isSymbol]
    exact assignSymbolCode_closed held o fun m mode => stored m (isMode.trans mode)
  | _ => exact assignLocationCode_closed o (sound.typed.addressClosed linked sound.location within.left) stored

/-- Names are placed at the level of the view, each with the mode of its symbol. -/
theorem NamesSound.symbol_of_mem {frame : Int64} {make : Ident Note → Symbol} {names : List (Ident Note)} {V V' : View}
    (sound : NamesSound frame make V names V') (member : id ∈ names) :
    ∃ symbol, id.note.symbol = some symbol ∧ symbol.level = V.level ∧ symbol.mode = (make id).mode := by
  obtain ⟨W, serial, level, isSymbol, _⟩ := (sound.walk (I := fun W => W.level = V.level) rfl fun _ _ _ _ same _ _ => same).2 id member
  exact ⟨_, isSymbol, level, rfl⟩

theorem area_mem {names : List (Ident Note)} (member : id ∈ names) (isSymbol : id.note.symbol = some symbol) : symbol.area ∈ areasOf names := by
  refine List.mem_filterMap.mpr ⟨id, member, ?_⟩
  rw [isSymbol]
  rfl

end Ast

/-- What a statement sees refers to labels and frames that are there: its symbols do, it stands at the level of the
innermost frame, and that frame is the one of the procedure around it. -/
structure View.Linked (defined : Int64 → Prop) (outer : List Frame) (f : Frame) (V : View) : Prop where
  symbols : LyaLang.Linked defined (outer ++ [f]) V.symbols
  level : V.level = Int64.ofNat outer.length
  function : ∀ g p, V.function = some g → g.proc = some p →
    defined (p.entry + 1) ∧ outer ≠ [] ∧ p.level = V.level ∧ p.arity = .exactly f.params

namespace View.Linked

variable {outer : List Frame} {f : Frame} {V V' : View}

theorem good (linked : V.Linked defined outer f) : V.Good := linked.symbols.good

/-- The innermost frame holds its words where the view stands. -/
theorem held (linked : V.Linked defined outer f) {level offset : Int64} (same : level = V.level) (holds : f.Holds offset) :
    Held (outer ++ [f]) level offset := by
  rw [same, linked.level]
  exact holds.held outer

theorem declare (linked : V.Linked defined outer f) (good : symbol.Good) {serial : Nat}
    (entry : ∀ p, symbol.proc = some p → p.builtin = none → defined p.entry)
    (holds : symbol.category.hasStorage = true → f.Holds (V.place { symbol with serial }).offset) :
    (V.declare { symbol with serial }).Linked defined outer f where
  symbols := List.forall_mem_cons.mpr ⟨⟨good, entry, fun stored => linked.held rfl (holds stored)⟩, linked.symbols⟩
  level := linked.level
  function := linked.function

theorem reserve (linked : V.Linked defined outer f) (count : Int64) : (V.reserve count).Linked defined outer f :=
  ⟨linked.symbols, linked.level, linked.function⟩

/-- Names that are no procedures leave a view linked, if the frame gives out the words of those with storage. -/
theorem names {frame : Int64} {make : Ident Note → Symbol} (none : ∀ id, (make id).proc = none)
    {names : List (Ident Note)} (taken : (∀ id, (make id).category.hasStorage = false) ∨ areasOf names ⊆ f.areas)
    (linked : V.Linked defined outer f) (sound : NamesSound frame make V names V') : V'.Linked defined outer f := by
  refine (sound.walk linked fun id member W serial linked isSymbol good => linked.declare good ?_ ?_).1
  · intro p isProc
    cases (none id).symm.trans isProc
  · intro stored
    rcases taken with free | taken
    · cases (free id).symm.trans stored
    · exact .area (taken (area_mem member isSymbol))

theorem params {ps : List (FormalParam Note)} (few : (ps.map (·.names.length)).sum ≤ f.params)
    (linked : V.Linked defined outer f) (sound : ParamsSound f.params V 0 ps V') : V'.Linked defined outer f := by
  refine sound.walk linked fun q _ m _ W i id serial less linked good => ?_
  have holds : f.Holds (paramSymbol f.params W.level q.loc m i id).offset := .argument (by omega)
  exact ⟨List.forall_mem_cons.mpr ⟨⟨good, nofun, fun _ => linked.held rfl holds⟩, linked.symbols⟩, linked.level, linked.function⟩

/-- The body of a procedure sees the frame of the procedure. -/
theorem enter (linked : V.Linked defined outer f) {p : Procedure} {name : Ident Note} {serial : Nat} {g : Frame}
    (exit : defined (p.entry + 1)) (level : p.level = V.level + 1) (arity : p.arity = .exactly g.params) :
    (V.enter (V.place { procedureSymbol p name with serial })).Linked defined (outer ++ [f]) g where
  symbols s member := by
    obtain ⟨good, entry, held⟩ := linked.symbols s member
    exact ⟨good, entry, fun stored => (held stored).inside g⟩
  level := by
    rw [List.length_append, Int64.ofNat_add, ← linked.level]
    rfl
  function g q isFunction isProc := by
    obtain rfl := Option.some.inj isFunction
    obtain rfl := Option.some.inj isProc
    exact ⟨exit, by simp, level, arity⟩

end View.Linked

namespace Ast

variable {outer : List Frame} {f : Frame} {V V' : View} {frame : Int64}

theorem Declaration.code_closed (linked : V.Linked defined outer f) {d : Declaration Note} (sound : d.Sound frame V V')
    (within : Within nodes d.nodes) (taken : areasOf d.names ⊆ f.areas) :
    Closed defined nodes (framed (outer ++ [f]) d.code) ∧ V'.Linked defined outer f := by
  obtain ⟨m, _, _, _, initial, names⟩ := sound
  refine ⟨?_, linked.names (fun _ => rfl) (.inr taken) names⟩
  unfold Declaration.code
  cases isInit : d.init with
  | none => exact .nil
  | some init =>
    obtain ⟨typed, _, location⟩ : init.Typed V.symbols ∧ init.type = m.type ∧ (d.loc = true ∨ m.isArray = true →
        init.IsLocationOf m) := by
      rw [isInit] at initial
      exact initial
    have within := within.tail.right.optional isInit
    have each : ∀ id ∈ d.names, Closed defined nodes (framed (outer ++ [f]) (initialCode d.loc init id)) := by
      intro id member
      obtain ⟨symbol, isSymbol, level, mode⟩ := names.symbol_of_mem member
      have held := linked.held level (.area (taken (area_mem member isSymbol)))
      unfold initialCode
      rw [isSymbol]
      dsimp only
      split
      · rename_i loc
        exact .both (typed.addressClosed linked.symbols (location (.inl loc)).1 within)
          (.cons (.access rfl (.held held)) .nil)
      · refine assignSymbolCode_closed held none fun m' isMode => ?_
        obtain rfl : m' = m := Option.mem_unique isMode mode
        exact typed.stored linked.symbols within fun array => (location (.inr array)).1
    revert each
    generalize d.names = names
    intro each
    induction names with
    | nil => exact .nil
    | cons id rest ih =>
      obtain ⟨first, others⟩ := List.forall_mem_cons.mp each
      exact .both first (ih others)

theorem resultCode_closed (linked : V.Linked defined outer f) {note : Note} {value : Option (Expr Note)}
    (sound : ResultSound V note value) (within : Within nodes (optionalNodes value)) :
    Closed defined nodes (framed (outer ++ [f]) (resultCode note value)) := by
  obtain ⟨g, p, isFunction, isSymbol, isProc, values⟩ := sound
  have found := bind_proc isSymbol isProc
  unfold resultCode
  rw [found]
  cases value with
  | none => exact .nil
  | some e =>
    obtain ⟨⟨typed, _⟩, _, location⟩ := values e rfl
    obtain ⟨_, inside, level, arity⟩ := linked.function g p isFunction isProc
    have reaches : Reaches (outer ++ [f]) .stv p.level (-(p.arity.number + 3)) := by
      rw [level, linked.level, arity]
      exact .result inside rfl
    refine .both ?_ (.cons (.access rfl reaches) .nil)
    split
    · exact typed.addressClosed linked.symbols (location ‹_›).1 within
    · exact typed.closed linked.symbols within

/-- The counter of a loop and the words it keeps are held by its frame. -/
theorem ForControl.Sound.held {c : ForControl Note} (linked : V.Linked defined outer f) (sound : c.Sound frame V V')
    (taken : c.areas ⊆ f.areas) : ∃ counter w, c.note.symbol = some counter ∧ c.note.slots = some w ∧
      Held (outer ++ [f]) counter.level counter.offset ∧ Held (outer ++ [f]) w.level w.stop ∧
      (0 ≤ w.step → Held (outer ++ [f]) w.level w.step) ∧ V'.Linked defined outer f := by
  obtain ⟨symbol, W, isSymbol, isCounter, counter, _, slots⟩ := sound.counter
  have inside : Held (outer ++ [f]) symbol.level symbol.offset ∧ W.Linked defined outer f := by
    rcases counter with ⟨found, stored, _, _, rfl⟩ | ⟨serial, _, rfl, _, declares, rfl⟩
    · exact ⟨(linked.symbols symbol (findSymbol_some found).1).2.held stored, linked⟩
    · have good : (counterSymbol c.counter).Good := ⟨.int, rfl, trivial, rfl, rfl⟩
      have holds : f.Holds (V.place { counterSymbol c.counter with serial }).offset := by
        refine .area (a := (V.place { counterSymbol c.counter with serial }).area) (taken ?_)
        rw [ForControl.areas, if_pos declares]
        exact List.mem_append_left _ (area_mem (List.mem_singleton_self _) isCounter)
      exact ⟨linked.held rfl holds, linked.declare good nofun fun _ => holds⟩
  obtain ⟨held, linkedW⟩ := inside
  obtain ⟨w, isSlots, level, linked'⟩ : ∃ w, c.note.slots = some w ∧ w.level = W.level ∧ V'.Linked defined outer f := by
    split at slots
    · obtain ⟨_, isSlots, rfl⟩ := slots
      exact ⟨_, isSlots, rfl, (linkedW.reserve 1).reserve 1⟩
    · obtain ⟨isSlots, rfl⟩ := slots
      exact ⟨_, isSlots, rfl, linkedW.reserve 1⟩
  have kept : w.areas ⊆ f.areas := by
    intro a member
    refine taken (List.mem_append_right _ ?_)
    rw [isSlots]
    exact member
  refine ⟨symbol, w, isSymbol, isSlots, held, ?_, fun nonneg => ?_, linked'⟩
  · exact linkedW.held level (.area (kept List.mem_cons_self))
  · refine linkedW.held level (.area (a := ⟨w.step, 1⟩) (kept (List.mem_cons_of_mem _ ?_)))
    rw [if_pos nonneg]
    exact List.mem_singleton_self _

theorem ForControl.code_closed {c : ForControl Note} (linked : V.Linked defined outer f) (sound : c.Sound frame V V')
    (within : Within nodes c.nodes) (taken : c.areas ⊆ f.areas) {start test stop : Int64} (isTest : defined test)
    (isStop : defined stop) :
    Closed defined nodes (framed (outer ++ [f]) (c.code start test stop)) ∧ V'.Linked defined outer f := by
  obtain ⟨counter, w, isSymbol, isSlots, held, heldStop, heldStep, linked'⟩ := sound.held linked taken
  have clauses := within.tail.tail
  have step : (c.stepDraft w).Occurs defined nodes (outer ++ [f]) := by
    unfold ForControl.stepDraft
    split
    · exact .ordinary rfl
    · rename_i e isStep
      split
      · exact .access rfl (.held (heldStep ‹_›))
      · obtain ⟨typed, _⟩ := sound.step e isStep
        obtain ⟨m, _, _, fits⟩ := typed.hasMode linked.good
        cases isConstant : e.note.constant with
        | none => exact .ordinary rfl
        | some k => exact Draft.constant_occurs (fits k isConstant) fun s isText =>
            typed.written linked.good (clauses.left.right.optional isStep) (isText ▸ isConstant)
  have kept : Closed defined nodes (framed (outer ++ [f]) (if w.step ≥ 0 then
      (c.step.map Expr.valueCode).getD [] ++ [.op2 .stv w.level w.step] else [])) := by
    split
    · refine .both ?_ (.cons (.access rfl (.held (heldStep ‹_›))) .nil)
      cases isStep : c.step with
      | none => exact .nil
      | some e => exact (sound.step e isStep).1.closed linked.symbols (clauses.left.right.optional isStep)
    · exact .nil
  have direction : ∀ a b : Opcode, (Draft.op a).isOrdinary = true → (Draft.op b).isOrdinary = true →
      (Draft.op (if c.down = true then a else b)).isOrdinary = true := by
    intro a b left right
    split
    · exact left
    · exact right
  have loads : counter.loadDraft.Occurs defined nodes (outer ++ [f]) := Symbol.loadDraft_occurs held
  have stores : counter.storeDraft.Occurs defined nodes (outer ++ [f]) := Symbol.storeDraft_occurs held
  refine ⟨?_, linked'⟩
  unfold ForControl.code
  rw [isSymbol, isSlots]
  exact .both (sound.start.1.closed linked.symbols clauses.left.left) (.cons stores
    (.both (sound.stop.1.closed linked.symbols clauses.right) (.cons (.access rfl (.held heldStop)) (.both kept
      (.cons (.jump isTest) (.label _ (.cons loads (.cons step (.cons (.ordinary (direction _ _ rfl rfl)) (.cons stores
        (.label _ (.cons loads (.cons (.access rfl (.held heldStop)) (.cons (.ordinary (direction _ _ rfl rfl))
          (.cons (.branch isStop) .nil)))))))))))))))

theorem weigh_identNodes (names : List (Ident Note)) : weigh (identNodes names) = 2 * names.length := by
  simp [weigh, identNodes, Function.comp_def, Node.weight, Nat.mul_comm]

/-- The names of parameters weigh two each. -/
theorem two_mul_count_le (params : List (FormalParam Note)) :
    2 * FormalParam.count params ≤ weigh (params.flatMap FormalParam.nodes) := by
  rw [count_eq_sum]
  induction params with
  | nil => exact Nat.le_refl 0
  | cons p rest ih =>
    have names := weigh_identNodes p.names
    simp only [List.map_cons, List.sum_cons, List.flatMap_cons, FormalParam.nodes, weigh_cons, weigh_append]
    omega

/-- A procedure weighs two for each parameter and five besides. -/
theorem Stmt.two_mul_count_le {note : Note} {name : Ident Note} {params : List (FormalParam Note)}
    {spec : Option (ResultSpec Note)} {body : List (Stmt Note)} :
    2 * FormalParam.count params + 5 ≤ weigh (Stmt.proc note name params spec body).nodes := by
  have count := Ast.two_mul_count_le params
  simp only [Stmt.nodes, weigh_cons, weigh_append, Node.weight, Node.labelBudget]
  omega

theorem declarations_closed {decls : List (Declaration Note)} (linked : V.Linked defined outer f)
    (sound : EachSound (Declaration.Sound frame) V decls V') (within : Within nodes (decls.flatMap Declaration.nodes))
    (taken : (decls.flatMap fun d => areasOf d.names) ⊆ f.areas) :
    Closed defined nodes (framed (outer ++ [f]) (decls.flatMap Declaration.code)) ∧ V'.Linked defined outer f := by
  induction decls generalizing V with
  | nil =>
    cases sound
    exact ⟨.nil, linked⟩
  | cons d rest ih =>
    obtain ⟨W, first, sound⟩ := sound
    obtain ⟨takenFirst, takenRest⟩ := List.append_subset.mp taken
    obtain ⟨closed, linkedW⟩ := d.code_closed linked first within.left takenFirst
    obtain ⟨closedRest, linked'⟩ := ih linkedW sound within.right takenRest
    exact ⟨.both closed closedRest, linked'⟩

mutual

/-- What occurs in the code of a sound statement that stands in code with its labels. -/
theorem Stmt.Sound.closed {nodes : List (Node Note)} : ∀ {frame : Int64} {outer : List Frame} {f : Frame} {s : Stmt Note}
    {V V' : View}, V.Linked defined outer f → s.Sound frame V V' → Within nodes s.nodes → s.areas ⊆ f.areas →
      (∀ l ∈ definedLabels ((s.framedCode (outer ++ [f])).map Prod.snd), defined l) →
      (∀ x ∈ s.framedCode (outer ++ [f]), x.2.Occurs defined nodes x.1) ∧ V'.Linked defined outer f
  | _, _, _, .declare _ _, _, _, linked, sound, within, taken, labels => by
    obtain ⟨closed, linked'⟩ := declarations_closed linked sound within.tail taken
    exact ⟨closed labels, linked'⟩
  | frame, outer, f, .synonym note defs, V, V', linked, sound, _, _, _ => by
    refine ⟨by simp [Stmt.framedCode, Stmt.code, framed], (EachSound.walk linked sound fun d _ V V' linked sound => ?_).1⟩
    obtain ⟨_, _, _, _, _, names⟩ := sound
    exact linked.names (fun _ => rfl) (.inl fun _ => rfl) names
  | frame, outer, f, .modes note defs, V, V', linked, sound, _, _, _ => by
    refine ⟨by simp [Stmt.framedCode, Stmt.code, framed], (EachSound.walk linked sound fun d _ V V' linked sound => ?_).1⟩
    obtain ⟨_, _, _, names⟩ := sound
    exact linked.names (fun _ => rfl) (.inl fun _ => rfl) names
  | frame, outer, f, .proc note name params spec body, V, V', linked, sound, within, _, labels => by
    obtain ⟨serial, p, words, W, W', rfl, isSymbol, _, header, isFrame, nonneg, params', sound⟩ := sound
    have found : note.symbol.bind (·.proc) = some p := bind_proc isSymbol rfl
    have entry : p.entry = note.firstLabel := header.entry
    have small : 2 * (procedureFrame note params body).params + 5 ≤ weigh nodes :=
      Stmt.two_mul_count_le.trans within.weigh_le
    have level : p.level = Int64.ofNat (outer ++ [f]).length := by
      rw [header.level, linked.level, List.length_append, Int64.ofNat_add]
      rfl
    have known := labels
    rw [Stmt.map_framedCode, Stmt.code, found] at known
    have isEntry : defined note.firstLabel := known _ (mem_definedLabels (by simp))
    have isExit : defined (note.firstLabel + 1) := known _ (mem_definedLabels (by simp))
    have isNext : defined (note.firstLabel + 2) := known _ (mem_definedLabels (by simp))
    have linked' : (V.declare { procedureSymbol p name with serial }).Linked defined outer f := by
      refine linked.declare (header.goodSymbol name) (fun q isProc _ => ?_) nofun
      obtain rfl := Option.some.inj isProc
      exact entry ▸ isEntry
    have linkedIn : W.Linked defined (outer ++ [f]) (procedureFrame note params body) := by
      refine (linked'.enter (entry ▸ isExit) header.level header.arity).params ?_ params'
      exact Nat.le_of_eq (count_eq_sum params).symm
    have bodyClosed := sound.closed linkedIn within.tail.tail.right (List.Subset.refl _)
    refine ⟨?_, linked'⟩
    rw [Stmt.framedCode, found] at labels ⊢
    simp only [isFrame, Option.getD_some, header.arity, Arity.number, level] at labels ⊢
    exact Closed.cons (.jump isNext) (.append (.label _ (.cons (.enter rfl) (.cons (.reserve nonneg) .nil)))
      (bodyClosed.append (.append (.label _ (.cons (.release nonneg) (.cons (.leave rfl small) .nil))) (.label _ .nil)))) labels
  | _, _, _, .assign _ _ _ _, _, _, linked, sound, within, _, labels => by
    obtain ⟨rfl, sound⟩ := sound
    exact ⟨assignCode_closed linked.symbols sound within.tail labels, linked⟩
  | frame, outer, f, .branch note arms otherwise, V, V', linked, sound, within, taken, labels => by
    obtain ⟨rfl, soundArms, soundElse⟩ := sound
    rw [Stmt.nodes_branch] at within
    obtain ⟨takenArms, takenElse⟩ := List.append_subset.mp taken
    have known := labels
    rw [Stmt.map_framedCode] at known
    have exit := known (note.firstLabel + Int64.ofNat arms.length) (by simp [Stmt.code])
    refine ⟨?_, linked⟩
    exact (soundArms.closed linked within.tail.left takenArms exit).append
      ((soundElse.closed linked within.tail.right takenElse).append (.label _ .nil)) labels
  | frame, outer, f, .loop note control whilst body, V, V', linked, sound, within, taken, labels => by
    obtain ⟨rfl, W, W', counted, whilstSound, sound⟩ := sound
    obtain ⟨takenControl, takenBody⟩ := List.append_subset.mp taken
    have known := labels
    rw [Stmt.map_framedCode] at known
    have isStop : defined (note.firstLabel + 2) := known _ (mem_definedLabels (by simp [Stmt.code]))
    have inside : defined note.firstLabel ∧ Closed defined nodes (framed (outer ++ [f]) (controlCode note.firstLabel control)) ∧
        W.Linked defined outer f := by
      cases control with
      | none =>
        cases counted
        exact ⟨known _ (mem_definedLabels (by simp [Stmt.code, controlCode])), .label _ .nil, linked⟩
      | some c =>
        obtain ⟨counter, _, isCounter, _⟩ := counted.counter
        have isTest : defined (note.firstLabel + 1) :=
          known _ (mem_definedLabels (by simp [Stmt.code, controlCode, ForControl.code, isCounter]))
        exact ⟨known _ (mem_definedLabels (by simp [Stmt.code, controlCode, ForControl.code, isCounter])),
          c.code_closed linked counted within.tail.left.left takenControl isTest isStop⟩
    obtain ⟨isStart, controlClosed, linkedW⟩ := inside
    have whilstClosed : Closed defined nodes (framed (outer ++ [f]) (whilstCode (note.firstLabel + 2) whilst)) := by
      cases whilst with
      | none => exact .nil
      | some e =>
        exact .both ((whilstSound e rfl).1.closed linkedW.symbols within.tail.left.right) (.cons (.branch isStop) .nil)
    exact ⟨controlClosed.append (whilstClosed.append ((sound.closed linkedW within.tail.right takenBody).append
      (.cons (.jump isStart) (.label _ .nil)))) labels, linked⟩
  | frame, outer, f, .call note callNote callee args, V, V', linked, sound, within, _, labels => by
    obtain ⟨rfl, typedArgs, call, _⟩ := sound
    refine ⟨Closed.both (callCode_closed linked.symbols call fun _ =>
      typedArgs.argumentsClosed linked.symbols within.tail.tail.tail) ?_ labels, linked⟩
    split
    · exact .cons (.release (by decide)) .nil
    · exact .nil
  | frame, outer, f, .ret note value, V, V', linked, sound, within, _, labels => by
    obtain ⟨rfl, sound⟩ := sound
    refine ⟨Closed.both (resultCode_closed linked sound within.tail) ?_ labels, linked⟩
    obtain ⟨g, p, isFunction, isSymbol, isProc, _⟩ := sound
    have found := bind_proc isSymbol isProc
    rw [found]
    exact .cons (.jump (linked.function g p isFunction isProc).1) .nil
  | frame, outer, f, .result note value, V, V', linked, sound, within, _, labels => by
    obtain ⟨rfl, sound⟩ := sound
    exact ⟨resultCode_closed linked sound within.tail labels, linked⟩

theorem Stmt.SoundList.closed {nodes : List (Node Note)} : ∀ {frame : Int64} {outer : List Frame} {f : Frame}
    {ss : List (Stmt Note)} {V V' : View}, V.Linked defined outer f → Stmt.SoundList frame V ss V' →
      Within nodes (Stmt.listNodes ss) → Stmt.listAreas ss ⊆ f.areas →
      Closed defined nodes (Stmt.listFramedCode (outer ++ [f]) ss)
  | _, _, _, [], _, _, _, _, _, _ => .nil
  | frame, outer, f, s :: rest, V, V', linked, ⟨W, first, sound⟩, within, taken => by
    intro labels
    rw [Stmt.listFramedCode, List.map_append, definedLabels_append] at labels
    obtain ⟨inFirst, inRest⟩ := List.forall_mem_append.mp labels
    obtain ⟨takenFirst, takenRest⟩ := List.append_subset.mp taken
    obtain ⟨occurs, linked'⟩ := first.closed linked within.left takenFirst inFirst
    exact List.forall_mem_append.mpr ⟨occurs, sound.closed linked' within.right takenRest inRest⟩

theorem Stmt.SoundElse.closed {nodes : List (Node Note)} : ∀ {frame : Int64} {outer : List Frame} {f : Frame}
    {otherwise : Option (List (Stmt Note))} {V : View}, V.Linked defined outer f → Stmt.SoundElse frame V otherwise →
      Within nodes (Stmt.elseNodes otherwise) → Stmt.elseAreas otherwise ⊆ f.areas →
      Closed defined nodes (Stmt.elseFramedCode (outer ++ [f]) otherwise)
  | _, _, _, none, _, _, _, _, _ => .nil
  | _, _, _, some _, _, linked, ⟨_, sound⟩, within, taken => sound.closed linked within taken

theorem Stmt.SoundArms.closed {nodes : List (Node Note)} : ∀ {frame : Int64} {outer : List Frame} {f : Frame}
    {arms : List (CondBranch Note)} {V : View}, V.Linked defined outer f → Stmt.SoundArms frame V arms →
      Within nodes (Stmt.armNodes arms) → Stmt.armAreas arms ⊆ f.areas → ∀ {exit label : Int64}, defined exit →
      Closed defined nodes (Stmt.armsFramedCode (outer ++ [f]) exit label arms)
  | _, _, _, [], _, _, _, _, _, _, _, _ => .nil
  | frame, outer, f, .mk note test body :: rest, V, linked, ⟨typed, ⟨W, sound⟩, soundRest⟩, within, taken, exit, label, isExit => by
    obtain ⟨takenBody, takenRest⟩ := List.append_subset.mp taken
    intro labels
    have isLabel : defined label := by
      rw [Stmt.map_armsFramedCode] at labels
      exact labels label (mem_definedLabels (by simp [Stmt.armsCode]))
    exact Closed.append (typed.1.closed linked.symbols within.tail.left.left) (.cons (.branch isLabel)
      ((sound.closed linked within.tail.left.right takenBody).append (.cons (.jump isExit) (.label _
        (soundRest.closed linked within.tail.right takenRest isExit))))) labels

end

/-- What occurs in the code of a sound program with its labels. -/
theorem Program.code_occurs {p : Program Note} (linked : V.Linked defined [] p.mainFrame) (sound : p.Sound V)
    (labels : ∀ l ∈ definedLabels p.code, defined l) : ∀ x ∈ p.framedCode, x.2.Occurs defined p.nodes x.1 := by
  obtain ⟨words, W, isFrame, nonneg, sound⟩ := sound
  have frame : 0 ≤ p.note.frame.getD 0 := by rw [isFrame]; exact nonneg
  have within : Within p.nodes p.nodes := List.Sublist.refl _
  have body := sound.closed linked within.tail (List.Subset.refl _)
  rw [← p.map_framedCode] at labels
  exact Closed.cons (.reserve frame) (body.append (.cons (.release frame) .ordinary)) labels

end Ast

end LyaLang
