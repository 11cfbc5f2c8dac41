import LyaLang.Proofs.Check.Expr

/-! # Checked mode expressions are typed

As for expressions: the check of a mode expression leaves its shape and the scopes alone, and without an issue
it is typed under the visible symbols. So it has a mode where one is required.
-/

namespace LyaLang.Ast

open Check

variable {s t : CheckState}

theorem rooted_modeName : Rooted ModeName.nodes (ModeName.map Note.origin) fun m symbols => m.Typed symbols where
  root _ := ⟨_, rfl, rfl, rfl⟩
  tail _ _ := rfl
  note _ _ := rfl
  kept _ _ _ := ⟨rfl, rfl, rfl⟩

theorem rooted_modeExpr : Rooted ModeExpr.nodes (ModeExpr.map Note.origin) fun m symbols => m.Typed symbols where
  root m := by cases m <;> exact ⟨_, rfl, rfl, rfl⟩
  tail note m := by cases m <;> rfl
  note note m := by cases m <;> rfl
  kept _ _ m := by cases m <;> exact ⟨rfl, rfl, rfl⟩

theorem ModeName.check_yields (name : ModeName Origin) :
    Yields (name.map Origin.note).check s fun m t =>
      m.map Note.origin = name ∧ Passed s t m.nodes m.note.isValid fun symbols => m.Typed symbols := by
  refine rooted_modeName.judged (.environment (.fit fun fit => ?_))
  have start : Passed _ _ [] true fun _ => True := .silent fit fun _ => trivial
  split
  case h_1 =>
    have named := start.name (i := name.id.map Origin.note) rfl (Ident.resolves_of_none rfl)
    exact .report fun t reported => .pure ⟨rfl, trivial, named.reported reported⟩
  case h_2 symbol found =>
    have named := start.name (i := (name.id.map Origin.note).resolve symbol .value) rfl
      (resolves_of_lookup found rfl rfl (by decide))
    refine .ite (fun _ => .report fun t reported => .pure ⟨rfl, trivial, named.reported reported⟩) fun category => ?_
    refine .pure ⟨rfl, trivial, { named with sound := fun clean => ?_ }⟩
    exact ⟨symbol, visible_of_lookup found (fit clean).scopes, rfl, by simpa using category, rfl⟩

theorem ModeName.Typed.isMode {m : ModeName Note} {ns : List (Node Note)} {v : Bool}
    (passed : Passed s t ns v fun symbols => m.Typed symbols) (clean : t.issues = []) : ∃ mode, m.note.mode = some mode := by
  obtain ⟨goods, typed⟩ := passed.known clean
  obtain ⟨mode, isMode, _⟩ := typed.hasMode goods
  exact ⟨mode, isMode⟩

/-- A mode that has been checked without an issue is there. -/
theorem ModeExpr.Typed.isMode {m : ModeExpr Note} {ns : List (Node Note)} {v : Bool}
    (passed : Passed s t ns v fun symbols => m.Typed symbols) (clean : t.issues = []) : ∃ mode, m.note.mode = some mode := by
  obtain ⟨goods, typed⟩ := passed.known clean
  obtain ⟨mode, isMode, _⟩ := typed.hasMode goods
  exact ⟨mode, isMode⟩

theorem checkBound_yields {want : ValueType} (known : want.isKnown = true) (tree : Expr Origin) :
    Yields (checkBound want (tree.map Origin.note)) s fun r t => r.1.map Note.origin = tree ∧
      (r.2.isSome = true → r.1.isValid = true) ∧
      Passed s t r.1.nodes r.1.isValid fun symbols => ∃ k, r.2 = some k ∧ r.1.IsBound symbols want k := by
  refine (Expr.check_yields tree).bind fun e t ⟨shape, passed⟩ => ?_
  refine .ite (fun bad => .pure ⟨shape, nofun, ?_⟩) fun good => ?_
  · exact (passed.stop bad).valid_eq ((Bool.not_eq_true' _).mp bad).symm
  have valid : e.isValid = true := by simpa using good
  refine (Tells.expect _ _ _).bind fun b u _ next => .ite (fun bad => .pure ⟨shape, nofun, ?_⟩) fun _ => ?_
  · refine (passed.followed next).imp fun _ _ sound => ?_
    simp [sound.2.1] at bad
  split
  case h_1 => exact .report fun t reported => .pure ⟨shape, nofun, (passed.followed next).reported reported⟩
  case h_2 k constant =>
    refine .pure ⟨shape, fun _ => valid, (passed.followed next).imp fun _ goods sound => ?_⟩
    obtain ⟨typed, _, agree⟩ := sound
    exact ⟨_, rfl, typed, agree known (typed.hasMode goods).type_isKnown, k, constant, rfl⟩

theorem checkBounds_yields (o : Origin) (base : Mode) (lo hi : Expr Origin) :
    Yields (checkBounds o.note base (lo.map Origin.note) (hi.map Origin.note)) s fun r t => r.2.1.origin = o ∧
      r.2.2.1.map Note.origin = lo ∧ r.2.2.2.map Note.origin = hi ∧
      Passed s t (r.2.2.1.nodes ++ r.2.2.2.nodes) r.1 fun symbols => ∃ lower upper,
        r.2.2.1.IsBound symbols base.type lower ∧ r.2.2.2.IsBound symbols base.type upper ∧ lower ≤ upper ∧
        r.2.1.mode = some (.range base lower upper) := by
  refine (checkBound_yields base.type_isKnown lo).bind fun ⟨lo', lower⟩ t ⟨shape, isValid, passed⟩ =>
    (checkBound_yields base.type_isKnown hi).bind fun ⟨hi', upper⟩ u ⟨shape', isValid', passed'⟩ => ?_
  have both := passed.trans passed'
  dsimp only
  split
  case h_1 =>
    have both := both.valid_eq (show _ = true by rw [isValid rfl, isValid' rfl]; rfl)
    refine .ite (fun _ => .report fun t reported => .pure ⟨rfl, shape, shape', both.reported reported⟩) fun ordered => ?_
    refine .pure ⟨rfl, shape, shape', both.imp fun _ _ sound => ?_⟩
    obtain ⟨⟨_, ⟨⟩, isLower⟩, _, ⟨⟩, isUpper⟩ := sound
    exact ⟨_, _, isLower, isUpper, Int64.not_lt.mp ordered, rfl⟩
  case h_2 missing =>
    refine .pure ⟨rfl, shape, shape', both.imp fun _ _ sound => ?_⟩
    obtain ⟨⟨k, isLower, _⟩, k', isUpper, _⟩ := sound
    exact (missing k k' isLower isUpper).elim

theorem checkRange_yields (o : Origin) (base : Option (ModeName Origin)) (lo hi : Expr Origin) :
    Yields (checkRange o.note (base.map (ModeName.map Origin.note)) (lo.map Origin.note) (hi.map Origin.note)) s
      fun r t => r.2.map Note.origin = .range o base lo hi ∧ RootResolves s.context.environment r.2.nodes ∧
        Passed s t r.2.nodes.tail r.1 fun symbols => r.2.Typed symbols := by
  cases base with
  | none =>
    refine (checkBounds_yields o .int lo hi).bind fun r t ⟨origin, shape, shape', passed⟩ => ?_
    subst origin shape shape'
    refine .pure ⟨rfl, trivial, passed.imp fun _ _ sound => ?_⟩
    obtain ⟨lower, upper, rest⟩ := sound
    exact ⟨.int, lower, upper, rfl, rest⟩
  | some name =>
    refine name.check_yields.bind fun name' t ⟨shape, passed⟩ => ?_
    subst shape
    have unseen : ∀ note, note.origin = o → (ModeExpr.range note (some name') (lo.map Origin.note)
        (hi.map Origin.note)).map Note.origin = .range o (some (name'.map Note.origin)) lo hi := by
      rintro note rfl
      simp only [ModeExpr.map, Option.map_some, Expr.origin_note]
    refine .ite (fun bad => .pure ⟨unseen _ rfl, trivial, ((passed.stop bad).fresh lo).fresh hi⟩) fun good => ?_
    have named := passed.valid_eq (show _ = true by simpa using good)
    refine .required (ModeName.Typed.isMode passed) fun mode isMode => .ite (fun _ => ?_) fun discrete => ?_
    · exact .report fun u reported => .pure ⟨unseen _ rfl, trivial, ((named.reported reported).fresh lo).fresh hi⟩
    have discrete : mode.size = 1 ∧ mode.type.isReference = false := by simpa using discrete
    refine (checkBounds_yields o mode lo hi).bind fun r u ⟨origin, shapeLo, shapeHi, passed'⟩ => ?_
    subst origin shapeLo shapeHi
    have both := (named.trans passed').valid_eq (Bool.true_and _)
    refine .pure ⟨rfl, trivial, both.imp fun _ _ sound => ?_⟩
    obtain ⟨typed, lower, upper, rest⟩ := sound
    exact ⟨mode, lower, upper, ⟨typed, isMode, discrete⟩, rest⟩

theorem arrayMode_yields (elem : Mode) {indexes : List (Option Mode)} (present : s.issues = [] → ∀ m ∈ indexes, ∃ k, m = some k) :
    Yields (arrayMode elem indexes) s fun m t => s = t ∧ ∃ modes, indexes = modes.map some ∧ m = elem.arrayOf modes := by
  induction indexes with
  | nil => exact .pure ⟨rfl, [], rfl, rfl⟩
  | cons index rest ih =>
    refine (ih fun clean => (List.forall_mem_cons.mp (present clean)).2).bind fun inner t ⟨same, modes, isModes, isInner⟩ => ?_
    subst same isModes isInner
    refine .required (fun clean => (List.forall_mem_cons.mp (present clean)).1) fun mode isMode => .pure ⟨rfl, ?_⟩
    exact ⟨mode :: modes, by rw [isMode]; rfl, rfl⟩

theorem checkArray_tells (o : Origin) (elem : ModeExpr Note) {indexes : List (ModeExpr Note)}
    (present : s.issues = [] → ∀ m ∈ indexes.map (·.note.mode), ∃ k, m = some k) :
    Tells (checkArray o.note elem indexes) s (·.origin = o) fun note _ => s.own = [] → (∃ m, elem.note.mode = some m) →
      ∃ modes m, indexes.map (·.note.mode) = modes.map some ∧ elem.note.mode = some m ∧ m.size ≠ 0 ∧
        note.mode = some (m.arrayOf modes) := by
  unfold checkArray
  split
  case h_1 missing =>
    refine .pure rfl fun _ _ _ hasMode => ?_
    obtain ⟨m, isMode⟩ := hasMode
    cases missing.symm.trans isMode
  case h_2 m mode =>
    refine Yields.step rfl id (Tells.ite (fun unclean => .pure rfl fun _ _ none => ?_) fun _ => ?_)
    · simp [none] at unclean
    refine .ite (fun _ => .report rfl) fun sized => ?_
    refine Yields.bind (arrayMode_yields m present) fun r t ⟨same, modes, isModes, isArray⟩ => ?_
    subst same isArray
    exact Tells.pure rfl fun _ _ _ _ => ⟨modes, m, isModes, mode, by simpa using sized, rfl⟩

theorem checkIndexMode_tells (index : ModeExpr Note) :
    Tells (checkIndexMode index) s (fun _ => True) fun _ _ => index.note.isValid = true → ∀ m, index.note.mode = some m →
      m.isRange = true ∧ m.type = .int := by
  refine .ite (fun _ => ?_) fun invalid => .pure trivial fun _ _ valid => absurd valid invalid
  split
  case h_1 missing => exact .pure trivial fun _ _ _ m isMode => by cases missing.symm.trans isMode
  case h_2 m mode =>
    refine .ite (fun _ => .reports) fun range => .pure trivial fun _ _ _ m' same => ?_
    cases mode.symm.trans same
    simpa using range

theorem ModeExpr.TypedIndexes.modes {symbols : List Symbol} {indexes : List (ModeExpr Note)} {modes : List Mode}
    (typed : ModeExpr.TypedIndexes symbols indexes modes) : indexes.map (·.note.mode) = modes.map some := by
  induction indexes generalizing modes with
  | nil =>
    cases typed
    rfl
  | cons index rest ih =>
    obtain ⟨mode, modes, rfl, _, isMode, _, _, typed⟩ := typed
    rw [List.map_cons, List.map_cons, isMode, ih typed]

mutual

theorem ModeExpr.check_yields : ∀ (tree : ModeExpr Origin) {s : CheckState},
    Yields (tree.map Origin.note).check s fun m t =>
      m.map Note.origin = tree ∧ Passed s t m.nodes m.note.isValid fun symbols => m.Typed symbols
  | .name named, s => by
    refine named.check_yields.bind fun name' t ⟨shape, passed⟩ => .pure ?_
    exact ⟨congrArg ModeExpr.name shape, passed⟩
  | .range o base lo hi, s => rooted_modeExpr.judged (checkRange_yields o base lo hi)
  | .ref o elem, s => by
    refine rooted_modeExpr.judged ((ModeExpr.check_yields elem).bind fun elem' t ⟨shape, passed⟩ => ?_)
    subst shape
    refine .ite (fun bad => .pure ⟨rfl, trivial, passed.stop bad⟩) fun good => ?_
    refine .required (ModeExpr.Typed.isMode passed) fun target isMode => .pure ⟨rfl, trivial, ?_⟩
    refine (passed.imp fun _ _ typed => ?_).valid_eq (by simpa using good)
    exact ⟨typed, by rw [isMode]; rfl⟩
  | .chars o len, s => by
    refine rooted_modeExpr.judged ((checkBound_yields rfl len).bind fun ⟨len', length?⟩ t ⟨shape, isValid, passed⟩ => ?_)
    subst shape
    dsimp only
    split
    case h_1 =>
      refine .pure ⟨rfl, trivial, passed.imp fun _ _ sound => ?_⟩
      obtain ⟨_, impossible, _⟩ := sound
      cases impossible
    case h_2 =>
      have passed := passed.valid_eq (isValid rfl)
      refine .ite (fun _ => .report fun u reported => .pure ⟨rfl, trivial, passed.reported reported⟩) fun small => ?_
      refine .pure ⟨rfl, trivial, passed.imp fun _ _ sound => ?_⟩
      obtain ⟨n, ⟨⟩, bound⟩ := sound
      exact ⟨_, bound, Int64.not_lt.mp small, rfl⟩
  | .array o indexes elem, s => by
    refine rooted_modeExpr.judged ((ModeExpr.check_yields elem).bind fun elem' t ⟨shape, passed⟩ =>
      (ModeExpr.checkIndexes_yields indexes).bind fun indexes' t' ⟨shape', passed'⟩ => ?_)
    subst shape shape'
    have both := (passed.trans passed').perm List.perm_append_comm
    refine .ite (fun bad => .pure ⟨rfl, trivial, both.stop bad⟩) fun good => ?_
    refine (checkArray_tells o elem' fun clean => ?_).bind fun note u origin next =>
      .pure ⟨congrArg (ModeExpr.array · _ _) origin, trivial, ?_⟩
    · obtain ⟨_, modes, typed⟩ := passed'.known clean
      rw [typed.modes]
      exact List.forall_mem_map.mpr fun m _ => ⟨m, rfl⟩
    refine (both.knowing.go good next).imp fun _ goods sound => ?_
    obtain ⟨⟨_, own, typed, modes, ranges⟩, array⟩ := sound
    obtain ⟨mode, isMode, _⟩ := typed.hasMode goods
    obtain ⟨modes', m, same, isMode', sized, result⟩ := array own ⟨mode, isMode⟩
    obtain rfl : modes' = modes := List.map_injective_iff.mpr (fun _ _ => Option.some.inj) (same.symm.trans ranges.modes)
    exact ⟨typed, modes', m, ranges, isMode', sized, result⟩

theorem ModeExpr.checkIndexes_yields : ∀ (trees : List (ModeExpr Origin)) {s : CheckState},
    Yields (ModeExpr.checkIndexes (ModeExpr.mapList Origin.note trees)) s fun indexes t =>
      ModeExpr.mapList Note.origin indexes = trees ∧
      Passed s t (ModeExpr.listNodes indexes) (indexes.all (·.note.isValid)) fun symbols =>
        ∃ modes, ModeExpr.TypedIndexes symbols indexes modes
  | [], s => fun fit => ⟨fit, rfl, .silent fit fun _ => ⟨[], rfl⟩⟩
  | tree :: rest, s => by
    refine (ModeExpr.check_yields tree).bind fun index t ⟨shape, passed⟩ =>
      (checkIndexMode_tells index).bind fun _ t' _ next =>
      (ModeExpr.checkIndexes_yields rest).bind fun indexes u ⟨shapes, passed'⟩ => .pure ?_
    subst shape shapes
    refine ⟨rfl, ((passed.followed next).knowing.trans passed').imp fun _ goods sound => ?_⟩
    obtain ⟨⟨valid, _, typed, range⟩, modes, ranges⟩ := sound
    obtain ⟨mode, isMode, _⟩ := typed.hasMode goods
    obtain ⟨isRange, isInt⟩ := range valid mode isMode
    exact ⟨mode :: modes, mode, modes, rfl, typed, isMode, isRange, isInt, ranges⟩

end

end LyaLang.Ast
