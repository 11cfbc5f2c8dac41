import LyaLang.Proofs.Parser.Parse
import LyaLang.Proofs.Printer.Lexing
import LyaLang.Proofs.Printer.Reading
import LyaLang.Proofs.Tree.Nodes

/-! # The parser inverts the printer

Modes, definitions and statements are read back like expressions. With the lexer this gives the main results:
printing a program that can be printed and parsing the text gives the program, and no errors, and an expression
needs no more parentheses than the tiers of its operators ask for.
-/

namespace LyaLang

open Ast Sign

variable {there : Bool} {k : TokenKind}

namespace Parser

variable {β γ : Type} {middle after next : List Sign} {good : β → Prop}

/-! ## Words and names -/

/-- A word that may be missing is looked for. -/
theorem wordIf_reads {f : Nat → Bool → Parser β} (absent : front middle ≠ k)
    (rest : Reads middle (f · there) after good) :
    Reads (wordIf there k ++ middle) (fun fuel => accept k >>= f fuel) after good := by
  cases there with
  | false => exact .missing absent rest
  | true => exact .accepted rest

theorem front_wordIf {other : TokenKind} (word : k ≠ other) (rest : front middle ≠ other) :
    front (wordIf there k ++ middle) ≠ other := by
  cases there with
  | false => exact rest
  | true => exact word

theorem front_introduced {x : Option (Expr γ)} {other : TokenKind} (word : k ≠ other) (rest : front middle ≠ other) :
    front (introduced k x ++ middle) ≠ other := by
  cases x with
  | none => exact rest
  | some x => exact word

/-- A part that a word introduces may be missing. -/
theorem introduced_reads {x : Option (Expr γ)} {f : Nat → Option (Expr Span) → Parser β}
    (ok : Writable (optionalNodes x)) (absent : front middle ≠ k) (closing : x.isSome = true → closes (front middle) = true)
    (rest : ∀ {y : Option (Expr Span)}, y.map (Expr.map forget) = x.map (Expr.map forget) →
      Reads middle (f · y) after good) :
    Reads (introduced k x ++ middle) (fun fuel =>
      accept k >>= fun found => if found then (some <$> expr fuel) >>= f fuel else pure none >>= f fuel) after good := by
  cases x with
  | none => exact .missing absent (.no Bool.false_ne_true (rest rfl))
  | some x =>
    refine .accepted (.yes rfl (.bind (.map (parens_reads ok (closing rfl)) ?_) rest))
    exact fun same => congrArg some same

theorem identList_reads (noComma : front next ≠ .comma) : ∀ {i : Ident γ} {rest : List (Ident γ)},
    Reads (nameSigns (i :: rest) ++ next) identList next
      fun xs => xs.map (Ident.map forget) = (i :: rest).map (Ident.map forget)
  | i, [] => by
    refine .succ ?_
    refine .enter (.bind ident_reads fun same => .state fun s ahead => .no ?_ (.pure (congrArg (· :: []) same)))
    rw [Bool.and_eq_true, beq_iff_eq, ahead.current_kind]
    exact fun both => noComma both.1
  | i, j :: rest => by
    refine .succ ?_
    refine .enter (.bind ident_reads fun same => .state fun s ahead => .yes ?_ (.bind .advance fun _ =>
      .bind (identList_reads noComma) fun others => .pure (congrArg₂ List.cons same others)))
    rw [Bool.and_eq_true, ahead.current_kind, ahead.peek_kind]
    refine ⟨rfl, ?_⟩
    cases rest <;> rfl

/-! ## Modes -/

theorem rangeBounds_reads {lo hi : Expr γ} (low : Writable lo.nodes) (high : Writable hi.nodes)
    (closing : closes (front next) = true) :
    Reads (boundSigns lo hi ++ next) rangeBounds next
      fun bounds => bounds.1.map forget = lo.map forget ∧ bounds.2.map forget = hi.map forget := by
  rw [boundSigns, List.append_assoc]
  exact .bind (parens_reads low rfl) fun lowers => .bind .expect fun _ => .bind (parens_reads high closing) fun uppers =>
    .pure ⟨lowers, uppers⟩

theorem namedMode_reads {m : ModeName γ} (noParen : front next ≠ .leftParen) :
    Reads (.name m.id :: next) namedMode next fun x => x.map forget = (ModeExpr.name m).map forget :=
  .position fun _ => .bind ident_reads fun same => .missing noParen
    (.pure (congrArg (fun id => ModeExpr.name ⟨(), id⟩) same))

theorem rangeMode_reads {note : γ} {m : ModeName γ} {lo hi : Expr γ} (low : Writable lo.nodes) (high : Writable hi.nodes) :
    Reads ((ModeExpr.range note (some m) lo hi).signs ++ next) namedMode next
      fun x => x.map forget = (ModeExpr.range note (some m) lo hi).map forget := by
  rw [ModeExpr.signs, List.cons_append, parens_append]
  refine .position fun start => .bind ident_reads fun names => .accepted (.bind (rangeBounds_reads low high rfl)
    fun {bounds} both => .bind .expect fun _ => .spanFrom fun span => .pure ?_)
  obtain ⟨lowers, uppers⟩ := both
  simp only [ModeExpr.map, Option.map_some, ModeName.map, names, lowers, uppers]

/-- An array index: what follows tells a mode name from the bounds of a range. -/
theorem indexMode_reads {m : ModeExpr γ} (ok : Writable m.nodes) (index : m.isIndex = true)
    (ends : front next = .comma ∨ front next = .rightBracket) :
    Reads (m.signs ++ next) indexMode next fun x => x.map forget = m.map forget := by
  have noParen : front next ≠ .leftParen := by
    rcases ends with ends | ends <;> rw [ends] <;> decide
  have closing : closes (front next) = true := by
    rcases ends with ends | ends <;> rw [ends] <;> rfl
  cases m with
  | name m =>
    refine .state fun s ahead => .yes ?_ (namedMode_reads noParen)
    have current : s.current.kind = .identifier := ahead.current_kind
    have peek : s.peek.kind = front next := ahead.peek_kind
    rw [current, peek]
    rcases ends with ends | ends <;> rw [ends] <;> rfl
  | range note base lo hi =>
    cases base with
    | none =>
      refine .state fun s ahead => .no ?_ (.position fun start => .bind (rangeBounds_reads ok.tail.left ok.tail.right closing)
        fun {bounds} both => .spanFrom fun span => .pure ?_)
      · have current : s.current.kind = .leftParen := ahead.current_kind
        rw [current]
        exact Bool.false_ne_true
      · exact congrArg₂ (ModeExpr.range () none) both.1 both.2
    | some m =>
      refine .state fun s ahead => .yes ?_ (rangeMode_reads ok.tail.left.right ok.tail.right)
      have current : s.current.kind = .identifier := ahead.current_kind
      have peek : s.peek.kind = .leftParen := ahead.peek_kind
      rw [current, peek]
      rfl
  | ref | chars | array => cases index

theorem modeMapList_eq (ms : List (ModeExpr γ)) : ModeExpr.mapList forget ms = ms.map (ModeExpr.map forget) := by
  induction ms with
  | nil => rfl
  | cons m rest ih => exact congrArg (_ :: ·) ih

theorem modeListSigns_eq (ms : List (ModeExpr γ)) : ModeExpr.listSigns ms = ms.map ModeExpr.signs := by
  induction ms with
  | nil => rfl
  | cons m rest ih => exact congrArg (_ :: ·) ih

theorem modeListNodes_mem {ms : List (ModeExpr γ)} (ok : Writable (ModeExpr.listNodes ms)) :
    ∀ m ∈ ms, Writable m.nodes := by
  induction ms with
  | nil => exact nofun
  | cons m rest ih => exact List.forall_mem_cons.mpr ⟨ok.left, ih ok.right⟩

theorem indexModes_reads {ms : List (ModeExpr γ)} (filled : ms ≠ []) (ok : Writable (ModeExpr.listNodes ms))
    (each : ∀ m ∈ ms, m.isIndex = true) :
    Reads (commas (ModeExpr.listSigns ms) ++ word .rightBracket :: next) indexModes (word .rightBracket :: next)
      fun xs => ModeExpr.mapList forget xs = ModeExpr.mapList forget ms := by
  obtain ⟨m, rest, rfl⟩ := List.exists_cons_of_ne_nil filled
  simp only [modeMapList_eq, modeListSigns_eq]
  refine listing_reads (fun _ => indexMode) (fun _ => indexModes) (fun _ => false) (fun _ reads => .succ ?_)
    (ne_of_beq_false rfl) 0 fun x member k after ends => ⟨rfl, indexMode_reads (modeListNodes_mem ok x member) (each x member) ends⟩
  exact .enter reads

theorem mode_reads (noParen : front next ≠ .leftParen) : ∀ {m : ModeExpr γ}, Writable m.nodes →
    m.standsAlone = true → Reads (m.signs ++ next) mode next fun x => x.map forget = m.map forget
  | .name m, _, _ => by
    refine .succ ?_
    exact .enter (.position fun start => .kind (namedMode_reads noParen))
  | .range _ none _ _, _, alone => nomatch alone
  | .range note (some m) lo hi, ok, _ => by
    refine .succ ?_
    exact .enter (.position fun start => .kind (rangeMode_reads ok.tail.left.right ok.tail.right))
  | .ref note elem, ok, _ => by
    refine .succ ?_
    exact .enter (.position fun start => .kind (.bind .advance fun _ => .bind (mode_reads noParen ok.tail ok.head) fun same =>
      .spanFrom fun span => .pure (congrArg (ModeExpr.ref ()) same)))
  | .chars note len, ok, _ => by
    simp only [ModeExpr.signs, List.cons_append, List.append_assoc, List.nil_append]
    refine .succ ?_
    exact .enter (.position fun start => .kind (.bind .advance fun _ => .bind .expect fun _ =>
      .bind (parens_reads ok.tail rfl) fun same => .bind .expect fun _ => .spanFrom fun span =>
      .pure (congrArg (ModeExpr.chars ()) same)))
  | .array note indexes elem, ok, _ => by
    obtain ⟨filled, each, alone⟩ := ok.head
    simp only [ModeExpr.signs, List.cons_append, List.append_assoc]
    refine .succ ?_
    exact .enter (.position fun start => .kind (.bind .advance fun _ => .bind .expect fun _ =>
      .bind (indexModes_reads filled ok.tail.left each) fun lists => .bind .expect fun _ =>
      .bind (mode_reads noParen ok.tail.right alone) fun same => .spanFrom fun span =>
      .pure (congrArg₂ (ModeExpr.array ()) lists same)))

/-! ## Definitions -/

theorem front_signs (m : ModeExpr γ) (alone : m.standsAlone = true) :
    front (m.signs ++ next) ≠ .comma ∧ front (m.signs ++ next) ≠ .assign := by
  cases m with
  | range note base lo hi =>
    cases base with
    | none => cases alone
    | some m => exact ⟨nofun, nofun⟩
  | _ => exact ⟨nofun, nofun⟩

/-- Tokens that stand behind one definition of a list. -/
def endsDefinition (k : TokenKind) : Bool := k == .comma || k == .semicolon || k == .rightParen

theorem endsDefinition.closes (ends : endsDefinition k = true) : closes k = true := by
  cases k <;> first | rfl | cases ends

theorem endsDefinition.noWord (ends : endsDefinition k = true) : k ≠ .assign ∧ k ≠ .locWord := by
  constructor
  · rintro rfl
    cases ends
  · rintro rfl
    cases ends

theorem declaration_reads {d : Declaration γ} (ok : Writable d.nodes) (ends : endsDefinition (front next) = true) :
    Reads (d.signs ++ next) declaration next fun x => x.map forget = d.map forget := by
  obtain ⟨filled, alone⟩ := ok.head
  obtain ⟨noAssign, noLoc⟩ := endsDefinition.noWord ends
  obtain ⟨note, names, m, loc, init?⟩ := d
  obtain ⟨i, rest, rfl⟩ := List.exists_cons_of_ne_nil filled
  have noParen : front (wordIf loc .locWord ++ (introduced .assign init? ++ next)) ≠ .leftParen :=
    front_wordIf nofun (front_introduced nofun (stopsAt.noParen (endsDefinition.closes ends)))
  simp only [Declaration.signs, List.append_assoc]
  refine .position fun start => .bind (identList_reads (front_signs m alone).1) fun names =>
    .bind (mode_reads noParen ok.tail.left.right alone) fun modes => wordIf_reads (front_introduced nofun noLoc) ?_
  refine introduced_reads ok.tail.right noAssign (fun _ => endsDefinition.closes ends) fun inits => .spanFrom fun span => .pure ?_
  simp only [Declaration.map, names, modes, inits]

/-- The mode of a synonym may be missing; the equals sign tells. -/
theorem optionalMode_reads {m? : Option (ModeExpr γ)} {f : Nat → Option (ModeExpr Span) → Parser β}
    (ok : Writable ((m?.map ModeExpr.nodes).getD [])) (alone : ∀ m ∈ m?, m.standsAlone = true)
    (rest : ∀ {y : Option (ModeExpr Span)}, y.map (ModeExpr.map forget) = m?.map (ModeExpr.map forget) →
      Reads (word .assign :: middle) (f · y) after good) :
    Reads ((m?.map ModeExpr.signs).getD [] ++ word .assign :: middle) (fun fuel =>
      kind >>= fun k => if k == .assign then pure none >>= f fuel else (some <$> mode fuel) >>= f fuel) after good := by
  cases m? with
  | none => exact .kind (.yes rfl (rest rfl))
  | some m =>
    have alone := alone m rfl
    refine .kind (.no ?_ (.bind (.map (mode_reads (ne_of_beq_false rfl) ok alone) ?_) rest))
    · rw [beq_iff_eq]
      exact (front_signs m alone).2
    · exact fun same => congrArg some same

theorem synonymDef_reads {d : SynonymDef γ} (ok : Writable d.nodes) (ends : endsDefinition (front next) = true) :
    Reads (d.signs ++ next) synonymDef next fun x => x.map forget = d.map forget := by
  obtain ⟨filled, alone⟩ := ok.head
  obtain ⟨note, names, m?, x⟩ := d
  obtain ⟨i, rest, rfl⟩ := List.exists_cons_of_ne_nil filled
  simp only [SynonymDef.signs, List.append_assoc, List.cons_append]
  have noComma : front ((m?.map ModeExpr.signs).getD [] ++ word .assign :: (parens x.signs ++ next)) ≠ .comma := by
    cases m? with
    | none => exact nofun
    | some m => exact (front_signs m (alone m rfl)).1
  refine .position fun start => .bind (identList_reads noComma) fun names => optionalMode_reads ok.tail.left.right alone fun modes =>
    .bind .expect fun _ => .bind (parens_reads ok.tail.right (endsDefinition.closes ends)) fun values => .spanFrom fun span => .pure ?_
  simp only [SynonymDef.map, names, modes, values]

theorem modeDef_reads {d : ModeDef γ} (ok : Writable d.nodes) (ends : endsDefinition (front next) = true) :
    Reads (d.signs ++ next) modeDef next fun x => x.map forget = d.map forget := by
  obtain ⟨filled, alone⟩ := ok.head
  obtain ⟨note, names, m⟩ := d
  obtain ⟨i, rest, rfl⟩ := List.exists_cons_of_ne_nil filled
  simp only [ModeDef.signs, List.append_assoc, List.cons_append]
  exact .position fun start => .bind (identList_reads (ne_of_beq_false rfl)) fun names => .bind .expect fun _ =>
    .bind (mode_reads (stopsAt.noParen (endsDefinition.closes ends)) ok.tail.right alone) fun modes =>
    .spanFrom fun span => .pure (congrArg₂ (ModeDef.mk ()) names modes)

theorem formalParam_reads {p : FormalParam γ} (ok : Writable p.nodes) (ends : endsDefinition (front next) = true) :
    Reads (p.signs ++ next) formalParam next fun x => x.map forget = p.map forget := by
  obtain ⟨filled, alone⟩ := ok.head
  obtain ⟨note, names, m, loc⟩ := p
  obtain ⟨i, rest, rfl⟩ := List.exists_cons_of_ne_nil filled
  have noParen : front (wordIf loc .locWord ++ next) ≠ .leftParen :=
    front_wordIf nofun (stopsAt.noParen (endsDefinition.closes ends))
  simp only [FormalParam.signs, List.append_assoc]
  refine .position fun start => .bind (identList_reads (front_signs m alone).1) fun names =>
    .bind (mode_reads noParen ok.tail.right alone) fun modes => wordIf_reads (endsDefinition.noWord ends).2
    (.spanFrom fun span => .pure ?_)
  simp only [FormalParam.map, names, modes]

theorem definitions_reads {δ ε ζ : Type} {item : Nat → Parser ε} {nodes : δ → List (Node γ)} {view : ε → ζ}
    {view' : δ → ζ} {signs : δ → List Sign}
    (each : ∀ {y : δ} {next : List Sign}, Writable (nodes y) → endsDefinition (front next) = true →
      Reads (signs y ++ next) item next fun z => view z = view' y)
    {xs : List δ} (filled : xs ≠ []) (ok : Writable (xs.flatMap nodes)) :
    Reads (commas (xs.map signs) ++ word .semicolon :: next) (fun fuel => commaList (item fuel) fuel)
      (word .semicolon :: next) fun zs => zs.map view = xs.map view' := by
  obtain ⟨x, rest, rfl⟩ := List.exists_cons_of_ne_nil filled
  -- The members keep the fuel of the whole list.
  have reads (k : Nat) : Reads (commas ((x :: rest).map signs) ++ word .semicolon :: next)
      (fun fuel => commaList (item (fuel + k)) fuel) (word .semicolon :: next)
      fun zs => zs.map view = (x :: rest).map view' := by
    refine listing_reads (fun k fuel => item (fuel + (k + 1))) (fun k fuel => commaList (item (fuel + k)) fuel)
      (fun _ => false) (fun _ reads => .succ ?_) (ne_of_beq_false rfl) k
      fun y member k after ends => ⟨rfl, (each (fun node part => ok node (List.mem_flatMap.mpr ⟨y, member, part⟩))
        (by rcases ends with ends | ends <;> rw [ends] <;> rfl)).shift (k + 1)⟩
    simp only [commaList, Nat.add_right_comm _ 1]
    exact .enter reads
  exact reads 0

theorem front_params (p : FormalParam γ) (filled : p.names ≠ []) : front (p.signs ++ next) = .identifier := by
  obtain ⟨note, names, m, loc⟩ := p
  obtain ⟨i, rest, rfl⟩ := List.exists_cons_of_ne_nil filled
  cases rest <;> rfl

theorem formalParams_reads {params : List (FormalParam γ)} (ok : Writable (params.flatMap FormalParam.nodes)) :
    Reads (commas (params.map FormalParam.signs) ++ word .rightParen :: next) formalParams
      (word .rightParen :: next) fun xs => xs.map (FormalParam.map forget) = params.map (FormalParam.map forget) := by
  cases params with
  | nil =>
    refine .succ ?_
    exact .enter (.kind (.yes rfl (.pure rfl)))
  | cons p rest =>
    refine listing_reads (fun _ => formalParam) (fun _ => formalParams) (· == .rightParen) (fun goes reads => .succ ?_)
      (ne_of_beq_false rfl) 0 fun q member k after ends => ?_
    · exact .enter (.kind (.no (by simp [goes]) reads))
    · have ok : Writable q.nodes := fun node part => ok node (List.mem_flatMap.mpr ⟨q, member, part⟩)
      refine ⟨?_, formalParam_reads ok (by rcases ends with ends | ends <;> rw [ends] <;> rfl)⟩
      rw [front_params q ok.head.1]
      rfl

/-- The result clause of a procedure stands in front of a semicolon. -/
theorem resultSpec_reads {spec : Option (ResultSpec γ)} (ok : Writable ((spec.map ResultSpec.nodes).getD [])) :
    Reads ((spec.map ResultSpec.signs).getD [] ++ word .semicolon :: next) resultSpec (word .semicolon :: next)
      fun x => x.map (ResultSpec.map forget) = spec.map (ResultSpec.map forget) := by
  cases spec with
  | none => exact .position fun start => .missing (ne_of_beq_false rfl) (.no Bool.false_ne_true (.pure rfl))
  | some r =>
    obtain ⟨note, m, loc⟩ := r
    have noParen : front (wordIf loc .locWord ++ word .rightParen :: word .semicolon :: next) ≠ .leftParen :=
      front_wordIf nofun nofun
    simp only [Option.map_some, Option.getD_some, ResultSpec.signs, List.cons_append, parens_append, List.append_assoc]
    refine .position fun start => .accepted (.yes rfl (.bind .expect fun _ => .bind (mode_reads noParen ok.tail ok.head)
      fun modes => wordIf_reads (ne_of_beq_false rfl) (.bind .expect fun _ => .spanFrom fun span => .pure ?_)))
    simp only [Option.map_some, ResultSpec.map, modes]

/-! ## Loops -/

theorem forControl_reads {c : ForControl γ} (ok : Writable c.nodes) (closing : closes (front next) = true) :
    Reads (c.signs ++ next) forControl next fun x => x.map forget = c.map forget := by
  obtain ⟨note, counter, start, step, down, stop⟩ := c
  have clauses := ok.tail.tail
  simp only [ForControl.signs, List.cons_append, List.append_assoc]
  have closed (down : Bool) (rest : List Sign) : closes (front (wordIf down .downWord ++ word .toWord :: rest)) = true := by
    cases down <;> rfl
  refine .position fun begin => .bind .advance fun _ => .bind ident_reads fun counters => .bind .expect fun _ =>
    .bind (parens_reads clauses.left.left (by cases step <;> first | rfl | exact closed ..)) fun starts => ?_
  refine introduced_reads clauses.left.right (front_wordIf (ne_of_beq_false rfl) (ne_of_beq_false rfl)) (fun _ => closed ..) fun steps =>
    wordIf_reads (ne_of_beq_false rfl) (.bind .expect fun _ => .bind (parens_reads clauses.right closing) fun stops =>
    .spanFrom fun span => .pure ?_)
  simp only [ForControl.map, counters, starts, steps, stops]

theorem loopControl_reads {control : Option (ForControl γ)} {whilst : Option (Expr γ)}
    (ok : Writable ((control.map ForControl.nodes).getD [] ++ optionalNodes whilst))
    (noFor : front next ≠ .forWord) (noWhile : front next ≠ .whileWord)
    (closing : (control.isSome || whilst.isSome) = true → closes (front next) = true) :
    Reads ((control.map ForControl.signs).getD [] ++ (introduced .whileWord whilst ++ next)) loopControl next
      fun x => x.1.map (ForControl.map forget) = control.map (ForControl.map forget) ∧
        x.2.map (Expr.map forget) = whilst.map (Expr.map forget) := by
  have tests {c' : Option (ForControl Span)} (same : c'.map (ForControl.map forget) = control.map (ForControl.map forget)) :
      Reads (introduced .whileWord whilst ++ next) (fun fuel =>
        accept .whileWord >>= fun found => if found then (some <$> expr fuel) >>= fun w => pure (c', w)
          else pure none >>= fun w => pure (c', w)) next
        fun x => x.1.map (ForControl.map forget) = control.map (ForControl.map forget) ∧
          x.2.map (Expr.map forget) = whilst.map (Expr.map forget) :=
    introduced_reads ok.right noWhile (fun given => closing (by rw [given, Bool.or_true])) fun whiles => .pure ⟨same, whiles⟩
  cases control with
  | none =>
    refine .kind (.no ?_ (tests rfl))
    rw [beq_iff_eq]
    exact front_introduced nofun noFor
  | some c =>
    have closed : closes (front (introduced .whileWord whilst ++ next)) = true := by
      cases whilst with
      | none => exact closing rfl
      | some x => rfl
    refine .kind (.yes rfl (.bind (.map (forControl_reads ok.left closed) ?_) tests))
    exact fun same => congrArg some same

/-! ## Statements -/

/-- Tokens that printed statements start with. -/
def startsStmt (k : TokenKind) : Bool :=
  [TokenKind.dclWord, .synWord, .typeWord, .identifier, .leftParen, .ifWord, .doWord, .returnWord, .resultWord].contains k

theorem front_stmt {s : Stmt γ} (ok : Writable s.nodes) : startsStmt (front (s.signs ++ next)) = true := by
  cases s with
  | branch note arms otherwise =>
    rw [Stmt.nodes_branch] at ok
    obtain ⟨arm, rest, rfl⟩ := List.exists_cons_of_ne_nil ok.head
    cases arm
    rfl
  | ret note value => cases value <;> rfl
  | _ => rfl

/-- Only a call has the form of a call. -/
theorem eq_call_of_map {x : Expr Span} {callee : Ident Unit} {args : List (Expr Unit)}
    (same : x.map forget = .call () callee args) :
    ∃ note name xs, x = .call note name xs ∧ name.map forget = callee ∧ Expr.mapList forget xs = args := by
  cases x with
  | call note name xs =>
    injection same with _ names lists
    exact ⟨note, name, xs, rfl, names, lists⟩
  | _ => cases same

/-- A statement is read up to its semicolon. -/
def StmtReads (s : Stmt γ) : Prop := ∀ next : List Sign,
  Reads (s.signs ++ word .semicolon :: next) unterminated (word .semicolon :: next) fun x => x.map forget = s.map forget

/-- The statements of a block are read up to its closing word. -/
def BodyReads (ss : List (Stmt γ)) : Prop := ∀ (next : List Sign) (closing : List TokenKind),
  closing.contains (front next) = true → closing.all (fun k => !startsStmt k) = true →
  Reads (Stmt.listSigns ss ++ next) (statements · closing) next fun xs => Stmt.mapList forget xs = Stmt.mapList forget ss

/-- The arms of an `if` chain are read up to its last body or its end. -/
def ArmsRead (arms : List (CondBranch γ)) : Prop := ∀ (lead : TokenKind) (next : List Sign),
  (lead = .ifWord ∨ lead = .elsifWord) → (front next = .elseWord ∨ front next = .fiWord) →
  Reads (Stmt.armSigns lead arms ++ next) branchArms next fun xs => Stmt.mapArms forget xs = Stmt.mapArms forget arms

theorem terminated_reads {stmt : Stmt Span} {good : Stmt Span → Prop} (holds : good stmt) :
    Reads (word .semicolon :: next) (fun _ => terminated stmt) next good :=
  .kind (.yes rfl (.bind .advance fun _ => .pure holds))

theorem Reads.recovered {p : Nat → Parser β} (reads : Reads middle p after good) :
    Reads middle (fun fuel => recovered (p fuel)) after fun x => ∃ a, x = some a ∧ good a := by
  intro s ahead
  obtain ⟨a, t, ⟨least, run⟩, holds, rest⟩ := reads s ahead
  exact ⟨some a, t, ⟨least, fun fuel enough => recovered_of_some (run fuel enough)⟩, ⟨a, rfl, holds⟩, rest⟩

/-- What follows statements in a block that ends with one of the closing words. -/
theorem front_stmts {ss : List (Stmt γ)} (ok : Writable (Stmt.listNodes ss)) :
    startsStmt (front (Stmt.listSigns ss ++ next)) = true ∨ front (Stmt.listSigns ss ++ next) = front next := by
  cases ss with
  | nil => exact .inr rfl
  | cons s rest =>
    rw [Stmt.listSigns, List.append_assoc]
    exact .inl (front_stmt ok.left)

theorem bodyReads_nil : BodyReads ([] : List (Stmt γ)) := by
  intro next closing closed starts
  refine .succ ?_
  refine .enter (.state fun s ahead => .yes ?_ (.pure rfl))
  rw [ahead.current_kind]
  exact closed

theorem bodyReads_cons {s : Stmt γ} {ss : List (Stmt γ)} (ok : Writable s.nodes) (first : StmtReads s)
    (later : BodyReads ss) : BodyReads (s :: ss) := by
  intro next closing closed starts
  rw [Stmt.listSigns, List.append_assoc]
  have whole : Reads (s.signs ++ word .semicolon :: (Stmt.listSigns ss ++ next)) statement (Stmt.listSigns ss ++ next)
      fun x => x.map forget = s.map forget := by
    refine .succ ?_
    simp only [statement_succ]
    exact .enter (.bind (first _) fun same => terminated_reads same)
  refine .succ ?_
  simp only [statements_succ]
  refine .enter (.state fun state ahead => ?_)
  have front := ahead.current_kind ▸ front_stmt ok
  refine .no (fun member => ?_) (.no (fun ends => ?_) (.no (fun empty => ?_) (.bind whole.recovered fun {x} found => ?_)))
  · have other := List.all_eq_true.mp starts _ (List.contains_iff_mem.mp member)
    rw [front] at other
    cases other
  · rw [beq_iff_eq.mp ends] at front
    cases front
  · rw [beq_iff_eq.mp empty] at front
    cases front
  · obtain ⟨x, rfl, same⟩ := found
    exact .bind (later next closing closed starts) fun lists => .pure (congrArg₂ List.cons same lists)

theorem armsRead_nil : ArmsRead ([] : List (CondBranch γ)) := by
  intro lead next leads ends
  refine .succ ?_
  refine .enter (.kind (.no ?_ (.pure rfl)))
  change ¬(front next == .ifWord || front next == .elsifWord) = true
  rcases ends with ends | ends <;> (rw [ends]; exact Bool.false_ne_true)

theorem front_armSigns {arms : List (CondBranch γ)} (ends : front next = .elseWord ∨ front next = .fiWord) :
    [TokenKind.elsifWord, .elseWord, .fiWord].contains (front (Stmt.armSigns .elsifWord arms ++ next)) = true := by
  cases arms with
  | nil =>
    change [TokenKind.elsifWord, .elseWord, .fiWord].contains (front next) = true
    rcases ends with ends | ends <;> (rw [ends]; rfl)
  | cons arm rest =>
    cases arm
    rfl

theorem armsRead_cons {note : γ} {test : Expr γ} {body : List (Stmt γ)} {rest : List (CondBranch γ)}
    (cond : Writable test.nodes) (stmts : BodyReads body) (later : ArmsRead rest) :
    ArmsRead (.mk note test body :: rest) := by
  intro lead next leads ends
  simp only [Stmt.armSigns, List.append_assoc, List.cons_append]
  refine .succ ?_
  refine .enter (.kind (.yes ?_ (.position fun start => .bind .advance fun _ => .bind (parens_reads cond rfl) fun tests =>
    .bind .expect fun _ => .bind (stmts _ _ (front_armSigns ends) rfl) fun bodies => .spanFrom fun span =>
    .bind (later .elsifWord next (.inr rfl) ends) fun arms =>
    .pure (congrArg₂ List.cons (congrArg₂ (CondBranch.mk ()) tests bodies) arms))))
  rcases leads with rfl | rfl <;> rfl

/-- Statements that do not start like a definition or with a name are actions. -/
theorem action_reads {good : Stmt Span → Prop}
    (other : [TokenKind.dclWord, .synWord, .typeWord, .identifier].contains (front middle) = false)
    (reads : Reads middle action after good) : Reads middle unterminated after good := by
  refine .state fun s ahead => ?_
  rw [← ahead.current_kind] at other
  split
  iterate 4
    rw [‹s.current.kind = _›] at other
    cases other
  · exact reads

theorem stmtReads_branch {note : γ} {arms : List (CondBranch γ)} {otherwise : Option (List (Stmt γ))} (filled : arms ≠ [])
    (tests : ArmsRead arms) (stmts : ∀ body ∈ otherwise, BodyReads body) : StmtReads (.branch note arms otherwise) := by
  have starts (next : List Sign) : front (Stmt.armSigns .ifWord arms ++ next) = .ifWord := by
    obtain ⟨arm, rest, rfl⟩ := List.exists_cons_of_ne_nil filled
    cases arm
    rfl
  intro next
  simp only [Stmt.signs, List.append_assoc, List.cons_append, List.nil_append]
  refine action_reads (by rw [starts]; rfl) (.succ ?_)
  refine .enter (.position fun start => .kind ?_)
  simp only [starts]
  cases otherwise with
  | none =>
    exact .bind (tests .ifWord _ (.inl rfl) (.inr rfl)) fun same => .missing (ne_of_beq_false rfl) (.no Bool.false_ne_true
      (.value (.bind .expect fun _ => .spanFrom fun span => .pure (congrArg (Stmt.branch () · none) same))))
  | some body =>
    refine .bind (tests .ifWord _ (.inl rfl) (.inl rfl)) fun same => .accepted (.yes rfl (.bind (.map
      (stmts body rfl _ _ rfl rfl) ?_) fun same' => .bind .expect fun _ => .spanFrom fun span =>
      .pure (congrArg₂ (Stmt.branch ()) same same')))
    exact fun same => congrArg some same

theorem front_loopBody {body : List (Stmt γ)} (ok : Writable (Stmt.listNodes body))
    (noSemi : .semicolon ≠ k) (noEnd : .odWord ≠ k) (noStart : startsStmt k = false) :
    front (wordIf there .semicolon ++ (Stmt.listSigns body ++ word .odWord :: next)) ≠ k := by
  refine front_wordIf noSemi ?_
  rintro rfl
  have fronts : startsStmt (front (Stmt.listSigns body ++ word .odWord :: next)) = true ∨
    front (Stmt.listSigns body ++ word .odWord :: next) = .odWord := front_stmts ok
  rcases fronts with starts | ends
  · rw [starts] at noStart
    cases noStart
  · exact noEnd ends.symm

theorem stmtReads_loop {note : γ} {control : Option (ForControl γ)} {whilst : Option (Expr γ)} {body : List (Stmt γ)}
    (ok : Writable (Stmt.loop note control whilst body).nodes) (stmts : BodyReads body) :
    StmtReads (.loop note control whilst body) := by
  intro next
  simp only [Stmt.signs, loopSigns, List.append_assoc, List.cons_append, List.nil_append]
  have closing : (control.isSome || whilst.isSome) = true → closes (front (wordIf (control.isSome || whilst.isSome)
      .semicolon ++ (Stmt.listSigns body ++ word .odWord :: word .semicolon :: next))) = true := by
    intro given
    rw [given]
    rfl
  refine action_reads rfl (.succ ?_)
  simp only [action]
  refine .enter (.position fun start => .kind (.bind .advance fun _ => .bind (loopControl_reads ok.tail.left
    (front_loopBody ok.tail.right (ne_of_beq_false rfl) (ne_of_beq_false rfl) rfl)
    (front_loopBody ok.tail.right (ne_of_beq_false rfl) (ne_of_beq_false rfl) rfl) closing) fun {x} same => ?_))
  have controls : x.1.isSome = control.isSome := by rw [← Option.isSome_map, same.1, Option.isSome_map]
  have tests : x.2.isSome = whilst.isSome := by rw [← Option.isSome_map, same.2, Option.isSome_map]
  rw [← controls, ← tests]
  obtain ⟨control', whilst'⟩ := x
  have ends : Reads (Stmt.listSigns body ++ word .odWord :: word .semicolon :: next) (loopBody · start control' whilst')
      (word .semicolon :: next) fun x => x.map forget = (Stmt.loop note control whilst body).map forget := by
    refine .succ ?_
    refine .enter (.bind (stmts _ _ rfl rfl) fun bodies => .bind .expect fun _ => .spanFrom fun span => .pure ?_)
    simp only [Stmt.map, same.1, same.2, bodies]
  cases there : control'.isSome || whilst'.isSome with
  | false => exact .no Bool.false_ne_true ends
  | true => exact .yes rfl (.bind .expect fun _ => ends)

theorem stmtReads_proc {note : γ} {id : Ident γ} {params : List (FormalParam γ)} {spec : Option (ResultSpec γ)}
    {body : List (Stmt γ)} (ok : Writable (Stmt.proc note id params spec body).nodes) (stmts : BodyReads body) :
    StmtReads (.proc note id params spec body) := by
  intro next
  simp only [Stmt.signs, parens, List.append_assoc, List.cons_append, List.nil_append]
  refine .state fun s ahead => ?_
  have kind : s.current.kind = .identifier := ahead.current_kind
  have peek : s.peek.kind = .colon := ahead.peek_kind
  rw [kind, peek]
  refine .yes rfl (.succ ?_)
  refine .enter (.position fun start => .bind ident_reads fun names => .bind .advance fun _ => .bind .expect fun _ =>
    .bind .expect fun _ => .bind (formalParams_reads ok.tail.tail.left.left) fun lists => .bind .expect fun _ =>
    .bind (resultSpec_reads ok.tail.tail.left.right) fun specs => .bind .expect fun _ => .bind (stmts _ _ rfl rfl) fun bodies =>
    .bind .expect fun _ => .spanFrom fun span => .pure ?_)
  simp only [Stmt.map, names, lists, specs, bodies]

theorem stmtReads_assign {note : γ} {target value : Expr γ} {op : Option BinaryOp}
    (ok : Writable (Stmt.assign note target op value).nodes) : StmtReads (.assign note target op value) := by
  intro next
  have ops : op ∈ [none, some .add, some .sub, some .mul, some .div, some .mod] := by
    cases op with
    | none => decide
    | some o =>
      have arithmetic := ok.head o rfl
      cases o <;> first | decide | cases arithmetic
  simp only [Stmt.signs, List.append_assoc, List.cons_append]
  refine action_reads rfl (.succ ?_)
  refine .enter (.position fun _ => .kind ?_)
  simp only [List.mem_cons, List.not_mem_nil, or_false] at ops
  rcases ops with rfl | rfl | rfl | rfl | rfl | rfl
  all_goals
    exact .position fun start => .bind (parens_reads ok.tail.left rfl) fun targets => .kind (.yes rfl (.bind .advance fun _ =>
      .bind (parens_reads ok.tail.right rfl) fun values => .spanFrom fun span =>
      .pure (congrArg₂ (Stmt.assign () · _ ·) targets values)))

theorem stmtReads_call {note note' : γ} {callee : Ident γ} {args : List (Expr γ)}
    (ok : Writable (Expr.call note' callee args).nodes) : StmtReads (.call note note' callee args) := by
  intro next
  refine .state fun s ahead => ?_
  have kind : s.current.kind = .identifier := ahead.current_kind
  have peek : s.peek.kind = .leftParen := ahead.peek_kind
  rw [kind, peek]
  have closing : closes (front (word .semicolon :: next)) = true := rfl
  refine .no Bool.false_ne_true (.position fun start => .bind (signs_reads ok closing) fun {x} same => .kind (.no Bool.false_ne_true ?_))
  obtain ⟨note, name, xs, rfl, names, lists⟩ := eq_call_of_map same
  exact .pure (congrArg₂ (Stmt.call () ()) names lists)

theorem stmtReads_ret {note : γ} {value : Option (Expr γ)} (ok : Writable (optionalNodes value)) :
    StmtReads (.ret note value) := by
  intro next
  cases value with
  | none =>
    refine action_reads rfl (.succ ?_)
    exact .enter (.position fun start => .kind (.bind .advance fun _ => .kind (.yes rfl
      (.value (.spanFrom fun span => .pure rfl)))))
  | some value =>
    refine action_reads rfl (.succ ?_)
    refine .enter (.position fun start => .kind (.bind .advance fun _ => .kind (.no Bool.false_ne_true (.bind
      (.map (parens_reads ok rfl) ?_) fun values => .spanFrom fun span => .pure (congrArg (Stmt.ret ()) values)))))
    exact fun same => congrArg some same

theorem stmtReads_result {note : γ} {value : Expr γ} (ok : Writable value.nodes) : StmtReads (.result note value) := by
  intro next
  refine action_reads rfl (.succ ?_)
  exact .enter (.position fun start => .kind (.bind .advance fun _ => .bind (parens_reads ok rfl) fun values =>
    .spanFrom fun span => .pure (congrArg (Stmt.result ()) values)))

theorem stmtReads_declare {note : γ} {decls : List (Declaration γ)} (ok : Writable (Stmt.declare note decls).nodes) :
    StmtReads (.declare note decls) := by
  intro next
  refine .state fun s ahead => ?_
  have kind : s.current.kind = .dclWord := ahead.current_kind
  rw [kind]
  exact .bind .advance fun _ => .bind (definitions_reads declaration_reads ok.head ok.tail) fun lists =>
    .spanFrom fun span => .pure (congrArg (Stmt.declare ()) lists)

theorem stmtReads_synonym {note : γ} {defs : List (SynonymDef γ)} (ok : Writable (Stmt.synonym note defs).nodes) :
    StmtReads (.synonym note defs) := by
  intro next
  refine .state fun s ahead => ?_
  have kind : s.current.kind = .synWord := ahead.current_kind
  rw [kind]
  exact .bind .advance fun _ => .bind (definitions_reads synonymDef_reads ok.head ok.tail) fun lists =>
    .spanFrom fun span => .pure (congrArg (Stmt.synonym ()) lists)

theorem stmtReads_modes {note : γ} {defs : List (ModeDef γ)} (ok : Writable (Stmt.modes note defs).nodes) :
    StmtReads (.modes note defs) := by
  intro next
  refine .state fun s ahead => ?_
  have kind : s.current.kind = .typeWord := ahead.current_kind
  rw [kind]
  exact .bind .advance fun _ => .bind (definitions_reads modeDef_reads ok.head ok.tail) fun lists =>
    .spanFrom fun span => .pure (congrArg (Stmt.modes ()) lists)

mutual

theorem stmtReads_of_writable : ∀ {s : Stmt γ}, Writable s.nodes → StmtReads s
  | .declare .., ok => stmtReads_declare ok
  | .synonym .., ok => stmtReads_synonym ok
  | .modes .., ok => stmtReads_modes ok
  | .proc .., ok => stmtReads_proc ok (bodyReads_of_writable ok.tail.tail.right)
  | .assign .., ok => stmtReads_assign ok
  | .branch _ _ none, ok => stmtReads_branch ok.head (armsRead_of_writable ok.tail.left) nofun
  | .branch note arms (some body), ok => by
    have reads := bodyReads_of_writable ok.tail.right
    refine stmtReads_branch ok.head (armsRead_of_writable ok.tail.left) fun other given => ?_
    cases given
    exact reads
  | .loop .., ok => stmtReads_loop ok (bodyReads_of_writable ok.tail.right)
  | .call .., ok => stmtReads_call ok.tail
  | .ret .., ok => stmtReads_ret ok.tail
  | .result .., ok => stmtReads_result ok.tail

theorem bodyReads_of_writable : ∀ {ss : List (Stmt γ)}, Writable (Stmt.listNodes ss) → BodyReads ss
  | [], _ => bodyReads_nil
  | _ :: _, ok => bodyReads_cons ok.left (stmtReads_of_writable ok.left) (bodyReads_of_writable ok.right)

theorem armsRead_of_writable : ∀ {arms : List (CondBranch γ)}, Writable (Stmt.armNodes arms) → ArmsRead arms
  | [], _ => armsRead_nil
  | .mk _ _ _ :: _, ok =>
    armsRead_cons ok.tail.left.left (bodyReads_of_writable ok.tail.left.right) (armsRead_of_writable ok.tail.right)

end

/-- A program is read up to the end of input. -/
theorem program_reads {p : Program γ} (ok : Writable (Stmt.listNodes p.stmts)) :
    Reads (Stmt.listSigns p.stmts) program [] fun x => x.map forget = p.map forget := by
  rw [← List.append_nil (Stmt.listSigns p.stmts)]
  exact .position fun start => .bind (bodyReads_of_writable ok [] _ rfl rfl) fun stmts =>
    .spanFrom fun span => .pure (congrArg (Program.mk ()) stmts)

/-- Before the first token of a printed line all its tokens are ahead. -/
theorem ahead_line {gs : List Sign} (lexes : AllLex gs) :
    (ParserState.ofSource (Text.encode (line gs))).Ahead gs ∧ (ParserState.ofSource (Text.encode (line gs))).errors = [] := by
  have signs := tokens_line lexes
  revert signs
  generalize Text.encode (line gs) = source
  intro signs
  have ahead : ParserState.Ahead { current := default, peek := default, rest := tokens source, errors := [] }
      (Token.sign default :: Token.sign default :: gs) := by
    refine ⟨⟨0, congrArg (Token.sign default :: Token.sign default :: ·) signs⟩, ?_⟩
    intro g mem
    rcases List.mem_cons.mp mem with rfl | mem
    · exact nofun
    rcases List.mem_cons.mp mem with rfl | mem
    · exact nofun
    · exact (lexes g mem).clean
  obtain ⟨second, errors⟩ := ahead.advance
  obtain ⟨third, errors'⟩ := second.advance
  exact ⟨third, errors'.trans errors⟩

/-- The fuel of a printed line is enough for a production that reads it. -/
theorem run_of_reads {gs : List Sign} {p : Nat → Parser β} {n : Nat} (lexes : AllLex gs) (few : n ≤ 15)
    (bounded : ∀ {s : ParserState}, s.Terminated → Bounded p s (24 * s.left + n)) (reads : Reads gs p [] good) :
    ∃ x t, p (fuel (.ofSource (Text.encode (line gs)))) (.ofSource (Text.encode (line gs))) = (some x, t) ∧ good x ∧
      t.errors = [] ∧ t.current.kind = .endOfInput := by
  obtain ⟨ahead, errors⟩ := ahead_line lexes
  have bounded := bounded (ParserState.ofSource_start (Text.encode (line gs))).1
  have least := (ParserState.ofSource (Text.encode (line gs))).left_lt
  generalize ParserState.ofSource (Text.encode (line gs)) = s at *
  obtain ⟨x, t, ⟨enough, run⟩, holds, ended, kept⟩ := reads s ahead
  refine ⟨x, t, ?_, holds, kept.trans errors, ended.current_kind⟩
  rw [bounded.same _ (by unfold fuel; omega), ← bounded.same (max enough _) (Nat.le_max_right ..),
    run _ (Nat.le_max_left ..)]

end Parser

/-- Printing a program that can be printed and parsing the text gives the program up to its spans, and no errors. -/
theorem parse_print {γ : Type} (p : Program γ) (ok : Writable p.nodes) :
    (parse p.print).2 = [] ∧ (parse p.print).1.map (fun _ => ()) = p.map fun _ => () := by
  have stmts := (writable_cons.mp ok).2
  obtain ⟨x, t, run, same, errors, -⟩ := Parser.run_of_reads (Stmt.listSigns_lex stmts) (Nat.le_refl 15)
    (fun ends => .of_runs ends fun fuel => Parser.program_runs fuel le_rfl) (Parser.program_reads stmts)
  rw [Program.print, parse_eq, run]
  exact ⟨errors, same⟩

/-- A text with a quote, a backslash, a newline and NUL, and two branches, one with an empty last body and one with
none. -/
def hardLiterals : Program Unit := ⟨(), [
  .branch () [.mk () (.bool () true) [.call () () ⟨(), Text.encode ['é', '_']⟩
    [.text () (Text.encode ['"', '\\', '\n', Char.ofNat 0, '😀']), .char () '\'']]] (some []),
  .branch () [.mk () (.bool () true) []] none]⟩

theorem hardLiterals_survive_printing :
    Writable hardLiterals.nodes ∧ (parse hardLiterals.print).2 = [] ∧
      (parse hardLiterals.print).1.map (fun _ => ()) = hardLiterals.map fun _ => () := by
  have isName : Ident.IsName ⟨(), Text.encode ['é', '_']⟩ :=
    ⟨'é', ['_'], rfl, by decide +kernel, List.forall_mem_singleton.mpr (by decide +kernel), by decide +kernel⟩
  have cons {node : Node Unit} {rest : List (Node Unit)} (first : node.Writable) (later : Writable rest) :
      Writable (node :: rest) := writable_cons.mpr ⟨first, later⟩
  have writable : Writable hardLiterals.nodes :=
    cons trivial (cons (List.cons_ne_nil _ _) (cons trivial (cons trivial (cons trivial (cons trivial (cons isName
      (cons ⟨_, rfl⟩ (cons trivial (cons (List.cons_ne_nil _ _) (cons trivial (cons trivial nofun)))))))))))
  exact ⟨writable, parse_print hardLiterals writable⟩

/-! ## Expressions with the fewest parentheses -/

/-- An expression that is printed with parentheses only around parts that bind too loosely for their place is read back
up to its spans, without an error and up to the end of the text. -/
theorem run_expr_print {γ : Type} (e : Expr γ) (ok : Writable e.nodes) :
    ∃ x t, Parser.expr (Parser.fuel (.ofSource e.print)) (.ofSource e.print) = (some x, t) ∧
      Parser.run Parser.expr e.print = (some x, []) ∧ x.map (fun _ => ()) = e.map (fun _ => ()) ∧
      t.current.kind = .endOfInput := by
  have reads := Parser.ReadsAt.mono (Parser.tier_le e) (Nat.zero_le _)
    (Parser.readsAt_layout (fun _ _ loose => decide_eq_true loose) ok)
  have bounded {s : ParserState} (ends : s.Terminated) : Parser.Bounded Parser.expr s (24 * s.left + 10) :=
    .of_runs ends fun fuel => Parser.binary_runs fuel ⟨rfl, List.suffix_refl _⟩ (by simp [Parser.binaryLevels])
  obtain ⟨x, t, run, same, errors, ended⟩ := Parser.run_of_reads (Expr.layout_lex ok) (by decide) bounded
    (List.append_nil (e.layout _) ▸ reads.expr rfl)
  refine ⟨x, t, run, ?_, same, ended⟩
  rw [Parser.run_eq, Expr.print, run, errors]

/-- Operands on both sides that need parentheses, and arrows in front of and behind theirs. -/
def mixedArrows : Expr Unit :=
  let a : Expr Unit := .ident ⟨(), "a"⟩
  .binary () .mul (.binary () .sub (.binary () .sub a a) (.binary () .sub a (.int () 1)))
    (.unary () .negate (.deref () (.ref () (.deref () (.index () a [.ref () a])))))

theorem mixedArrows_survive_printing :
    mixedArrows.print = "( a - a - ( a - 1 ) ) * - ( -> a [ -> a ] -> ) -> " ∧ Writable mixedArrows.nodes ∧
    ∃ x t, Parser.expr (Parser.fuel (.ofSource mixedArrows.print)) (.ofSource mixedArrows.print) = (some x, t) ∧
      Parser.run Parser.expr mixedArrows.print = (some x, []) ∧ x.map (fun _ => ()) = mixedArrows.map (fun _ => ()) ∧
      t.current.kind = .endOfInput := by
  have isName : Ident.IsName ⟨(), "a"⟩ :=
    ⟨'a', [], by decide +kernel, by decide +kernel, nofun, by decide +kernel⟩
  have writable : Writable mixedArrows.nodes := by
    simp [mixedArrows, Expr.nodes, Expr.listNodes, Writable, Node.Writable, isName]
  exact ⟨by decide +kernel, writable, run_expr_print mixedArrows writable⟩

end LyaLang
