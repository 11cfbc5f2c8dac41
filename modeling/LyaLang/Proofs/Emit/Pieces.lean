import LyaLang.Proofs.Emit.Code

/-! # Pieces of code

The code of a program has a structure: it is made of the values and addresses of expressions and of whole
statements. The segments of such a piece are the drafts of its own and the pieces right inside it, in order.
Following them from the program down gives each piece the position at which its code stands.
-/

namespace LyaLang

open Ast

/-- A part of a program with code of its own. -/
inductive Piece where
  | value (e : Expr Note)
  | address (e : Expr Note)
  | stmt (s : Stmt Note)

/-- What code is made of: drafts, and the code of pieces. -/
inductive Segment where
  | draft (d : Draft)
  | part (k : Piece)

/-- The code of a piece. -/
def Piece.code : Piece → List Draft
  | value e => e.valueCode
  | address e => e.addressCode
  | stmt s => s.code

attribute [local simp] Piece.code

/-- The code of a segment. -/
def Segment.code : Segment → List Draft
  | draft d => [d]
  | part k => k.code

/-- The code of segments in order. -/
def codeOf (ss : List Segment) : List Draft := ss.flatMap Segment.code

@[simp] theorem codeOf_nil : codeOf [] = [] := rfl

@[simp] theorem codeOf_draft (d : Draft) (rest : List Segment) : codeOf (.draft d :: rest) = d :: codeOf rest := rfl

@[simp] theorem codeOf_part (k : Piece) (rest : List Segment) : codeOf (.part k :: rest) = k.code ++ codeOf rest := rfl

@[simp] theorem codeOf_append (front back : List Segment) : codeOf (front ++ back) = codeOf front ++ codeOf back :=
  List.flatMap_append

/-- Drafts as segments. -/
def asSegments (ds : List Draft) : List Segment := ds.map .draft

@[simp] theorem codeOf_asSegments (ds : List Draft) : codeOf (asSegments ds) = ds := by
  induction ds with
  | nil => rfl
  | cons d rest ih => exact congrArg (d :: ·) ih

namespace Ast

/-! ## Expressions -/

/-- The segments of a call, given those of its arguments. -/
def callSegments (callee : Ident Note) (pass : Passing → List Segment) : List Segment :=
  match callee.note.symbol.bind (·.proc) with
  | none => []
  | some proc =>
    match proc.builtin with
    | some .read => pass .read
    | some .print => pass .print ++ [.draft (.pooled .prc "\n")]
    | some (.operation code _) => pass .operand ++ [.draft (.op code)]
    | none => .draft (.op1 .alc 1) :: (pass (.params proc.params) ++ [.draft (.op1 .cfu proc.entry)])

/-- The segments that read into a location. -/
def readSegments (a : Expr Note) : List Segment :=
  match a.note.mode with
  | none => []
  | some m =>
    if m.isString then [.part (.address a), .draft (.op1 .rds m.capacity)]
    else match a with
      | .ident id => .draft (.op .rdv) :: asSegments (id.note.symbol.map Symbol.storeDraft).toList
      | _ => [.part (.address a), .draft (.op .rdv), .draft (.op1 .smv 1)]

/-- The segments that print an argument. -/
def printSegments (a : Expr Note) : List Segment :=
  match a with
  | .text _ s => [.draft (.pooled .prc s)]
  | _ =>
    match a.note.mode with
    | none => []
    | some m =>
      if m.isString then [.part (.value a), .draft (.op .prs)]
      else if m.isArray then [.part (.address a), .draft (.op1 .lmv m.size), .draft (.op1 .prt m.size)]
      else [.part (.value a), .draft (.op .prv)]

/-- The segments of arguments. -/
def argumentSegments : Passing → List (Expr Note) → List Segment
  | .read, a :: rest => readSegments a ++ argumentSegments .read rest
  | .print, a :: rest => printSegments a ++ argumentSegments .print rest
  | .operand, a :: _ => [.part (.value a)]
  | .params (p :: params), a :: rest =>
    .part (if p.loc then .address a else .value a) :: argumentSegments (.params params) rest
  | _, _ => []

/-- The segments of indexes. -/
def indexSegments : Option Mode → List (Expr Note) → List Segment
  | some mode, i :: rest => .part (.value i) :: (asSegments mode.elementCode ++ indexSegments mode.element? rest)
  | _, _ => []

/-- The segments of the arms of a conditional expression. -/
def valueArmSegments (exit : Int64) : Int64 → List (CondValue Note) → List Segment
  | _, [] => []
  | label, .mk _ test value :: rest =>
    .part (.value test) :: .draft (.op1 .jof label) :: .part (.value value) :: .draft (.op1 .jmp exit) ::
      .draft (.op1 .lbl label) :: valueArmSegments exit (label + 1) rest

/-- The segments of a value. -/
def Expr.valueSegments : Expr Note → List Segment
  | int _ value => [.draft (.load (.int value))]
  | bool _ value => [.draft (.load (.bool value))]
  | char _ value => [.draft (.load (.ofChar value))]
  | text _ value => [.draft (.pooled .lsc value)]
  | ident id => asSegments ((id.note.symbol.map Symbol.code).getD [])
  | unary _ o x => [.part (.value x), .draft (.op o.opcode)]
  | binary _ o x y =>
    [.part (.value x), .part (.value y), .draft (.op (if x.note.type == .string then o.stringOpcode else o.opcode))]
  | cond note branches otherwise =>
    valueArmSegments (note.firstLabel + Int64.ofNat branches.length) note.firstLabel branches ++
      [.part (.value otherwise), .draft (.op1 .lbl (note.firstLabel + Int64.ofNat branches.length))]
  | call _ callee args =>
    callSegments callee (fun how => argumentSegments how args) ++ asSegments (callResultCode callee)
  | index note x indexes =>
    .part (.address x) :: (indexSegments x.note.mode indexes ++ asSegments ((note.mode.map Mode.indirectCode).getD []))
  | deref note x => .part (.value x) :: asSegments ((note.mode.map Mode.indirectCode).getD [])
  | ref _ x => [.part (.address x)]

/-- The segments of an address. -/
def Expr.addressSegments : Expr Note → List Segment
  | ident id => asSegments (id.note.symbol.map Symbol.addressDraft).toList
  | index _ x indexes => .part (.address x) :: indexSegments x.note.mode indexes
  | deref _ x => [.part (.value x)]
  | call _ callee args => callSegments callee fun how => argumentSegments how args
  | _ => []

theorem codeOf_callSegments (callee : Ident Note) {pass : Passing → List Segment} {passed : Passing → List Draft}
    (same : ∀ how, codeOf (pass how) = passed how) : codeOf (callSegments callee pass) = callCode callee passed := by
  unfold callSegments callCode
  cases callee.note.symbol.bind (·.proc) with
  | none => rfl
  | some proc =>
    dsimp only
    split <;> simp [*]

@[simp] theorem codeOf_readSegments (a : Expr Note) : codeOf (readSegments a) = readCode a a.addressCode := by
  unfold readSegments readCode
  cases a.note.mode with
  | none => rfl
  | some m => cases text : m.isString <;> cases a <;> simp [text]

@[simp] theorem codeOf_printSegments (a : Expr Note) : codeOf (printSegments a) = printCode a a.valueCode a.addressCode := by
  cases a with
  | text note s => rfl
  | _ =>
    simp only [printSegments, printCode]
    generalize Note.mode (Expr.note _) = mode
    cases mode with
    | none => rfl
    | some m => cases text : m.isString <;> cases array : m.isArray <;> simp [text, array]

@[simp] theorem codeOf_argumentSegments (how : Passing) (args : List (Expr Note)) :
    codeOf (argumentSegments how args) = Expr.argumentsCode how args := by
  induction args generalizing how with
  | nil => cases how <;> simp [argumentSegments, Expr.argumentsCode]
  | cons a rest ih =>
    cases how with
    | params ps =>
      cases ps with
      | nil => simp [argumentSegments, Expr.argumentsCode]
      | cons p ps => cases loc : p.loc <;> simp [argumentSegments, Expr.argumentsCode, loc, ih]
    | _ => simp [argumentSegments, Expr.argumentsCode, ih]

@[simp] theorem codeOf_indexSegments (mode : Option Mode) (indexes : List (Expr Note)) :
    codeOf (indexSegments mode indexes) = Expr.indexesCode mode indexes := by
  induction indexes generalizing mode with
  | nil => cases mode <;> simp [indexSegments, Expr.indexesCode]
  | cons i rest ih => cases mode <;> simp [indexSegments, Expr.indexesCode, ih]

@[simp] theorem codeOf_valueArmSegments (exit label : Int64) (arms : List (CondValue Note)) :
    codeOf (valueArmSegments exit label arms) = Expr.armsCode exit label arms := by
  induction arms generalizing label with
  | nil => simp [valueArmSegments, Expr.armsCode]
  | cons arm rest ih =>
    obtain ⟨note, test, value⟩ := arm
    simp [valueArmSegments, Expr.armsCode, ih]

theorem Expr.codeOf_addressSegments (e : Expr Note) : codeOf e.addressSegments = e.addressCode := by
  cases e with
  | call note callee args => exact codeOf_callSegments callee fun how => codeOf_argumentSegments how args
  | _ => simp [Expr.addressSegments, Expr.addressCode]

theorem Expr.codeOf_valueSegments (e : Expr Note) : codeOf e.valueSegments = e.valueCode := by
  cases e with
  | call note callee args =>
    rw [Expr.valueSegments, Expr.valueCode, codeOf_append, codeOf_asSegments,
      codeOf_callSegments callee fun how => codeOf_argumentSegments how args]
  | _ => simp [Expr.valueSegments, Expr.valueCode]

/-! ## Statements -/

/-- The segments that copy a string. -/
def stringSegments (m : Mode) (o : Option BinaryOp) (value : Expr Note) : List Segment :=
  match o with
  | some _ => [.draft (.op .dup), .part (.value value), .draft (.op .scat), .draft (.op1 .scp m.capacity)]
  | none =>
    match value.note.constant with
    | some c =>
      if c.kind == .text then [.draft (.pooled .sts c.text m.capacity)]
      else [.part (.value value), .draft (.op1 .scp m.capacity)]
    | none => [.part (.value value), .draft (.op1 .scp m.capacity)]

/-- The segments that store a value in a symbol. -/
def assignSymbolSegments (symbol : Symbol) (o : Option BinaryOp) (value : Expr Note) : List Segment :=
  match symbol.mode with
  | none => []
  | some m =>
    if m.isString then .draft symbol.addressDraft :: stringSegments m o value
    else if m.isArray then [.draft symbol.addressDraft, .part (.address value), .draft (.op1 .smr m.size)]
    else match o with
      | none => [.part (.value value), .draft symbol.storeDraft]
      | some o => [.draft symbol.loadDraft, .part (.value value), .draft (.op o.opcode), .draft symbol.storeDraft]

/-- The segments that store a value through the address of a target. -/
def assignLocationSegments (target : Expr Note) (o : Option BinaryOp) (value : Expr Note) : List Segment :=
  .part (.address target) ::
    match target.note.mode with
    | none => []
    | some m =>
      if m.isString then stringSegments m o value
      else if m.isArray then [.part (.address value), .draft (.op1 .smr m.size)]
      else match o with
        | none => [.part (.value value), .draft (.op1 .smv 1)]
        | some o => [.draft (.op .dup), .draft (.op .grc), .part (.value value), .draft (.op o.opcode),
            .draft (.op1 .smv 1)]

/-- The segments of an assignment. -/
def assignSegments (target : Expr Note) (o : Option BinaryOp) (value : Expr Note) : List Segment :=
  match target with
  | .ident id => (id.note.symbol.map (assignSymbolSegments · o value)).getD []
  | _ => assignLocationSegments target o value

/-- The segments of the initialization of one name. -/
def initialSegments (loc : Bool) (init : Expr Note) (id : Ident Note) : List Segment :=
  match id.note.symbol with
  | none => []
  | some symbol =>
    if loc then [.part (.address init), .draft (.op2 .stv symbol.level symbol.offset)]
    else assignSymbolSegments symbol none init

/-- The segments of a declaration. -/
def Declaration.segments (d : Declaration Note) : List Segment :=
  match d.init with
  | none => []
  | some init => d.names.flatMap (initialSegments d.loc init)

/-- The segments that store the result of a procedure. -/
def resultSegments (note : Note) (value : Option (Expr Note)) : List Segment :=
  match note.symbol.bind (·.proc), value with
  | some proc, some e =>
    [.part (if proc.resultLoc then .address e else .value e),
      .draft (.op2 .stv proc.level (-(proc.arity.number + 3)))]
  | _, _ => []

/-- The words in which a loop keeps its bound and its step. -/
def ForControl.words (f : ForControl Note) : LoopSlots := f.note.slots.getD ⟨0, 0, 0⟩

/-- The segments that keep the step of a counted loop. -/
def ForControl.keptSegments (f : ForControl Note) : List Segment :=
  if f.words.step ≥ 0 then
    (f.step.map fun e => Segment.part (.value e)).toList ++ [.draft (.op2 .stv f.words.level f.words.step)]
  else []

/-- The segments that initialize a counted loop and go on to its test. -/
def ForControl.initialSegments (f : ForControl Note) (counter : Symbol) (test : Int64) : List Segment :=
  .part (.value f.start) :: .draft counter.storeDraft :: .part (.value f.stop) ::
    .draft (.op2 .stv f.words.level f.words.stop) :: (f.keptSegments ++ [.draft (.op1 .jmp test)])

/-- The segments that add the step. -/
def ForControl.stepSegments (f : ForControl Note) (counter : Symbol) : List Segment :=
  asSegments [counter.loadDraft, f.stepDraft f.words, .op (if f.down then .sub else .add), counter.storeDraft]

/-- The segments that compare the counter with its bound. -/
def ForControl.testSegments (f : ForControl Note) (counter : Symbol) (stop : Int64) : List Segment :=
  asSegments [counter.loadDraft, .op2 .ldv f.words.level f.words.stop, .op (if f.down then .gre else .leq),
    .op1 .jof stop]

/-- The segments of the start of a counted loop. -/
def ForControl.segments (f : ForControl Note) (start test stop : Int64) : List Segment :=
  match f.note.symbol with
  | none => []
  | some counter =>
    f.initialSegments counter test ++ .draft (.op1 .lbl start) :: (f.stepSegments counter ++
      .draft (.op1 .lbl test) :: f.testSegments counter stop)

/-- The segments of the start of a loop. -/
def controlSegments (first : Int64) (control : Option (ForControl Note)) : List Segment :=
  match control with
  | none => [.draft (.op1 .lbl first)]
  | some f => f.segments first (first + 1) (first + 2)

/-- The segments of the condition of a loop. -/
def whilstSegments (stop : Int64) (whilst : Option (Expr Note)) : List Segment :=
  match whilst with
  | none => []
  | some e => [.part (.value e), .draft (.op1 .jof stop)]

/-- The segments of statements in order. -/
def bodySegments (body : List (Stmt Note)) : List Segment := body.map fun s => .part (.stmt s)

/-- The segments of the arms of an `if` chain. -/
def branchSegments (exit : Int64) : Int64 → List (CondBranch Note) → List Segment
  | _, [] => []
  | label, .mk _ test body :: rest =>
    .part (.value test) :: .draft (.op1 .jof label) :: (bodySegments body ++
      (.draft (.op1 .jmp exit) :: .draft (.op1 .lbl label) :: branchSegments exit (label + 1) rest))

/-- The segments of a statement. -/
def Stmt.segments : Stmt Note → List Segment
  | declare _ decls => decls.flatMap Declaration.segments
  | synonym _ _ | modes _ _ => []
  | proc note _ _ _ body =>
    match note.symbol.bind (·.proc) with
    | none => []
    | some p =>
      asSegments [.op1 .jmp (note.firstLabel + 2), .op1 .lbl note.firstLabel, .op1 .enf p.level,
          .op1 .alc (note.frame.getD 0)] ++ (bodySegments body ++
        asSegments [.op1 .lbl (note.firstLabel + 1), .op1 .dlc (note.frame.getD 0), .op2 .ret p.level p.arity.number,
          .op1 .lbl (note.firstLabel + 2)])
  | assign _ target o value => assignSegments target o value
  | branch note branches otherwise =>
    branchSegments (note.firstLabel + Int64.ofNat branches.length) note.firstLabel branches ++
      (bodySegments (otherwise.getD []) ++ [.draft (.op1 .lbl (note.firstLabel + Int64.ofNat branches.length))])
  | loop note control whilst body =>
    controlSegments note.firstLabel control ++ (whilstSegments (note.firstLabel + 2) whilst ++ (bodySegments body ++
      asSegments [.op1 .jmp note.firstLabel, .op1 .lbl (note.firstLabel + 2)]))
  | call _ _ callee args =>
    callSegments callee (fun how => argumentSegments how args) ++
      asSegments (if callLeaves callee then [.op1 .dlc 1] else [])
  | ret note value =>
    resultSegments note value ++ asSegments ((note.symbol.bind (·.proc)).map fun p => .op1 .jmp (p.entry + 1)).toList
  | result note value => resultSegments note (some value)

@[simp] theorem codeOf_stringSegments (m : Mode) (o : Option BinaryOp) (value : Expr Note) :
    codeOf (stringSegments m o value) = stringCode m o value := by
  unfold stringSegments stringCode
  cases o with
  | some _ => simp
  | none =>
    cases value.note.constant with
    | none => simp
    | some c => cases text : c.kind == .text <;> simp [text]

@[simp] theorem codeOf_assignSymbolSegments (symbol : Symbol) (o : Option BinaryOp) (value : Expr Note) :
    codeOf (assignSymbolSegments symbol o value) = assignSymbolCode symbol o value := by
  unfold assignSymbolSegments assignSymbolCode
  cases symbol.mode with
  | none => rfl
  | some m => cases text : m.isString <;> cases array : m.isArray <;> cases o <;> simp [text, array]

theorem codeOf_assignLocationSegments (target : Expr Note) (o : Option BinaryOp) (value : Expr Note) :
    codeOf (assignLocationSegments target o value) = assignLocationCode target o value := by
  unfold assignLocationSegments assignLocationCode
  cases target.note.mode with
  | none => rfl
  | some m => cases text : m.isString <;> cases array : m.isArray <;> cases o <;> simp [text, array]

theorem codeOf_assignSegments (target : Expr Note) (o : Option BinaryOp) (value : Expr Note) :
    codeOf (assignSegments target o value) = assignCode target o value := by
  cases target with
  | ident id => cases symbol : id.note.symbol <;> simp [assignSegments, assignCode, symbol]
  | _ => exact codeOf_assignLocationSegments _ o value

@[simp] theorem codeOf_initialSegments (loc : Bool) (init : Expr Note) (id : Ident Note) :
    codeOf (initialSegments loc init id) = initialCode loc init id := by
  unfold initialSegments initialCode
  cases id.note.symbol with
  | none => rfl
  | some symbol => cases loc <;> simp

@[simp] theorem codeOf_flatMap {γ : Type} (f : γ → List Segment) (xs : List γ) :
    codeOf (xs.flatMap f) = xs.flatMap fun x => codeOf (f x) := List.flatMap_assoc

@[simp] theorem Declaration.codeOf_segments (d : Declaration Note) : codeOf d.segments = d.code := by
  unfold Declaration.segments Declaration.code
  cases d.init <;> simp

@[simp] theorem codeOf_resultSegments (note : Note) (value : Option (Expr Note)) :
    codeOf (resultSegments note value) = resultCode note value := by
  unfold resultSegments resultCode
  cases note.symbol.bind (·.proc) with
  | none => rfl
  | some proc => cases value <;> cases loc : proc.resultLoc <;> simp [loc]

theorem ForControl.codeOf_segments (f : ForControl Note) (start test stop : Int64) :
    codeOf (f.segments start test stop) = f.code start test stop := by
  unfold ForControl.segments ForControl.code
  cases f.note.symbol with
  | none => rfl
  | some counter =>
    have kept : codeOf f.keptSegments = if f.words.step ≥ 0 then
        (f.step.map Expr.valueCode).getD [] ++ [.op2 .stv f.words.level f.words.step] else [] := by
      unfold ForControl.keptSegments
      cases f.step <;> split <;> simp
    simp [ForControl.initialSegments, ForControl.stepSegments, ForControl.testSegments, kept, ForControl.words]

@[simp] theorem codeOf_controlSegments (first : Int64) (control : Option (ForControl Note)) :
    codeOf (controlSegments first control) = controlCode first control := by
  cases control with
  | none => rfl
  | some f => exact f.codeOf_segments _ _ _

@[simp] theorem codeOf_whilstSegments (stop : Int64) (whilst : Option (Expr Note)) :
    codeOf (whilstSegments stop whilst) = whilstCode stop whilst := by
  cases whilst <;> simp [whilstSegments, whilstCode]

@[simp] theorem codeOf_bodySegments (body : List (Stmt Note)) : codeOf (bodySegments body) = Stmt.listCode body := by
  induction body with
  | nil => simp [bodySegments, Stmt.listCode]
  | cons s rest ih =>
    rw [Stmt.listCode, ← ih]
    rfl

@[simp] theorem codeOf_branchSegments (exit label : Int64) (arms : List (CondBranch Note)) :
    codeOf (branchSegments exit label arms) = Stmt.armsCode exit label arms := by
  induction arms generalizing label with
  | nil => simp [branchSegments, Stmt.armsCode]
  | cons arm rest ih =>
    obtain ⟨note, test, body⟩ := arm
    simp [branchSegments, Stmt.armsCode, ih]

theorem Stmt.codeOf_segments (s : Stmt Note) : codeOf s.segments = s.code := by
  cases s with
  | proc note name params spec body =>
    rw [Stmt.segments, Stmt.code]
    cases note.symbol.bind (·.proc) <;> simp
  | assign note target o value =>
    exact codeOf_assignSegments target o value
  | branch note arms otherwise =>
    have last : Stmt.listCode (otherwise.getD []) = Stmt.elseCode otherwise := by
      cases otherwise <;> simp [Stmt.listCode, Stmt.elseCode]
    simp [Stmt.segments, Stmt.code, last]
  | call note callNote callee args =>
    rw [Stmt.segments, Stmt.code, codeOf_append, codeOf_asSegments,
      codeOf_callSegments callee fun how => codeOf_argumentSegments how args]
  | ret note value =>
    rw [Stmt.segments, Stmt.code, codeOf_append, codeOf_resultSegments]
    cases note.symbol.bind (·.proc) <;> rfl
  | _ => simp [Stmt.segments, Stmt.code]

end Ast

/-! ## Positions -/

/-- The segments of a piece. -/
def Piece.segments : Piece → List Segment
  | value e => e.valueSegments
  | address e => e.addressSegments
  | stmt s => s.segments

theorem Piece.codeOf_segments (k : Piece) : codeOf k.segments = k.code := by
  cases k with
  | value e => exact e.codeOf_valueSegments
  | address e => exact e.codeOf_addressSegments
  | stmt s => exact s.codeOf_segments

/-- A piece has its code at a position: the statements of the program stand one after the other behind the first
instruction, and a piece inside another behind what precedes it there. -/
inductive Emitted (p : Program Note) : Nat → Piece → Prop
  | stmt {front : List (Stmt Note)} {s : Stmt Note} {back : List (Stmt Note)} (split : p.stmts = front ++ s :: back) :
    Emitted p ((Stmt.listCode front).length + 1) (.stmt s)
  | part {i : Nat} {k k' : Piece} {front back : List Segment} (outer : Emitted p i k)
    (split : k.segments = front ++ .part k' :: back) : Emitted p (i + (codeOf front).length) k'

end LyaLang
