import Mathlib
import LyaLang.Digest.Fingerprint
import LyaLang.Proofs.Tree.Blur
import LyaLang.Proofs.Tree.Nodes

/-! # Fingerprint bytes determine the program

No writing of a construct is the beginning of another one: two texts that start with writings of
constructs and are equal have the same construct in front, up to layout and the case of names, and the
same rest. So the bytes of a program can be read in one way only. Lengths are written in four bytes,
which is why no list and no text may have 2 ^ 32 parts or more.
-/

namespace LyaLang

open Ast

variable {α β : Type}

/-! ## Numbers and texts -/

theorem Bytes.length_bigEndian (k n : Nat) : (Bytes.bigEndian k n).length = k := by
  induction k generalizing n with
  | zero => rfl
  | succ k ih => simp [Bytes.bigEndian, ih]

theorem Bytes.bigEndian_inj {k m n : Nat} (small : m < 256 ^ k) (small' : n < 256 ^ k)
    (same : Bytes.bigEndian k m = Bytes.bigEndian k n) : m = n := by
  induction k generalizing m n with
  | zero => omega
  | succ k ih =>
    have lengths : (Bytes.bigEndian k (m / 256)).length = (Bytes.bigEndian k (n / 256)).length := by
      rw [length_bigEndian, length_bigEndian]
    obtain ⟨high, low⟩ := List.append_inj same lengths
    rw [pow_succ] at small small'
    have quotients : m / 256 = n / 256 :=
      ih (Nat.div_lt_of_lt_mul (by omega)) (Nat.div_lt_of_lt_mul (by omega)) high
    have remainders : m % 256 = n % 256 := by
      have bytes := congrArg UInt8.toNat (List.cons.inj low).1
      simpa using bytes
    omega

namespace Fingerprint

variable {r s : Bytes}

theorem bigEndian_append {k m n : Nat} (small : m < 256 ^ k) (small' : n < 256 ^ k) :
    Bytes.bigEndian k m ++ r = Bytes.bigEndian k n ++ s ↔ m = n ∧ r = s := by
  constructor
  · intro same
    obtain ⟨front, rest⟩ := List.append_inj same (by rw [Bytes.length_bigEndian, Bytes.length_bigEndian])
    exact ⟨Bytes.bigEndian_inj small small' front, rest⟩
  · rintro ⟨rfl, rfl⟩
    rfl

theorem count_append {m n : Nat} (small : m < 2 ^ 32) (small' : n < 2 ^ 32) :
    count m ++ r = count n ++ s ↔ m = n ∧ r = s :=
  bigEndian_append (by simpa using small) (by simpa using small')

@[simp] theorem int_append {v v' : Int64} :
    Bytes.bigEndian 8 v.toUInt64.toNat ++ r = Bytes.bigEndian 8 v'.toUInt64.toNat ++ s ↔ v = v' ∧ r = s := by
  have small (v : Int64) : v.toUInt64.toNat < 256 ^ 8 := v.toUInt64.toNat_lt
  have same : v.toUInt64 = v'.toUInt64 ↔ v = v' := ⟨congrArg UInt64.toInt64, congrArg Int64.toUInt64⟩
  rw [bigEndian_append (small v) (small v'), UInt64.toNat_inj, same]

@[simp] theorem char_append {v v' : Char} : count v.toNat ++ r = count v'.toNat ++ s ↔ v = v' ∧ r = s := by
  have small (v : Char) : v.toNat < 2 ^ 32 := v.val.toNat_lt
  rw [count_append (small v) (small v'), Char.toNat_inj]

theorem text_append {t t' : Bytes} (small : t.length < 2 ^ 32) (small' : t'.length < 2 ^ 32) :
    text t ++ r = text t' ++ s ↔ t = t' ∧ r = s := by
  rw [text, text, List.append_assoc, List.append_assoc, count_append small small']
  constructor
  · rintro ⟨lengths, same⟩
    exact List.append_inj same lengths
  · rintro ⟨rfl, rfl⟩
    exact ⟨rfl, rfl⟩

@[simp] theorem flag_append {b c : Bool} : flag b ++ r = flag c ++ s ↔ b = c ∧ r = s := by
  cases b <;> cases c <;> simp [flag]

/-! ## Short trees -/

end Fingerprint

/-- The text that a construct consists of, and its list of parts, are short enough for their lengths. -/
def Ast.Node.Short : Node α → Prop
  | .program p => p.stmts.length < 2 ^ 32
  | .stmt (.declare _ decls) => decls.length < 2 ^ 32
  | .stmt (.synonym _ defs) => defs.length < 2 ^ 32
  | .stmt (.modes _ defs) => defs.length < 2 ^ 32
  | .stmt (.proc _ _ params _ body) => params.length < 2 ^ 32 ∧ body.length < 2 ^ 32
  | .stmt (.branch _ branches otherwise) => branches.length < 2 ^ 32 ∧ ∀ body ∈ otherwise, body.length < 2 ^ 32
  | .stmt (.loop _ _ _ body) => body.length < 2 ^ 32
  | .declaration d => d.names.length < 2 ^ 32
  | .synonymDef d => d.names.length < 2 ^ 32
  | .modeDef d => d.names.length < 2 ^ 32
  | .formalParam p => p.names.length < 2 ^ 32
  | .condBranch b => b.body.length < 2 ^ 32
  | .modeExpr (.array _ indexes _) => indexes.length < 2 ^ 32
  | .expr (.text _ value) => value.length < 2 ^ 32
  | .expr (.cond _ branches _) => branches.length < 2 ^ 32
  | .expr (.call _ _ args) => args.length < 2 ^ 32
  | .expr (.index _ _ indexes) => indexes.length < 2 ^ 32
  | .ident i => (Text.toLower i.name).length < 2 ^ 32
  | _ => True

instance (node : Node α) : Decidable node.Short := by
  unfold Node.Short
  split <;> infer_instance

/-- All nodes are short. -/
def Short (nodes : List (Node α)) : Prop := ∀ node ∈ nodes, node.Short

instance (nodes : List (Node α)) : Decidable (Short nodes) := inferInstanceAs (Decidable (∀ node ∈ nodes, node.Short))

@[simp] theorem short_nil : Short ([] : List (Node α)) := by simp [Short]

@[simp] theorem short_cons {node : Node α} {rest : List (Node α)} : Short (node :: rest) ↔ node.Short ∧ Short rest :=
  List.forall_mem_cons

@[simp] theorem short_append {front rest : List (Node α)} : Short (front ++ rest) ↔ Short front ∧ Short rest :=
  List.forall_mem_append

namespace Fingerprint

variable {r s : Bytes}

/-- A note replaced by nothing. -/
abbrev blank (_ : α) : Unit := ()

theorem name_append {i j : Ident α} (short : (Text.toLower i.name).length < 2 ^ 32)
    (short' : (Text.toLower j.name).length < 2 ^ 32) :
    name i ++ r = name j ++ s ↔ i.blur blank = j.blur blank ∧ r = s := by
  rw [name, name, text_append short short', Ident.blur, Ident.blur, Ident.mk.injEq]
  simp

/-! ## Expressions -/

theorem unary_append {o o' : UnaryOp} : text o.symbol ++ r = text o'.symbol ++ s ↔ o = o' ∧ r = s := by
  have small (o : UnaryOp) : (o.symbol : Bytes).length < 2 ^ 32 := by cases o <;> decide
  have same : (o.symbol : Bytes) = o'.symbol ↔ o = o' := by cases o <;> cases o' <;> decide
  rw [text_append (small o) (small o'), same]

theorem binary_append {o o' : BinaryOp} : text o.symbol ++ r = text o'.symbol ++ s ↔ o = o' ∧ r = s := by
  have small (o : BinaryOp) : (o.symbol : Bytes).length < 2 ^ 32 := by cases o <;> decide
  have same : (o.symbol : Bytes) = o'.symbol ↔ o = o' := by cases o <;> cases o' <;> decide
  rw [text_append (small o) (small o'), same]

mutual

-- Different constructs start with different tags; those of one kind agree part by part.

/-- The writing of an expression tells it and ends with it. -/
theorem expr_append (e e' : Expr α) {r s : Bytes} (short : Short e.nodes) (short' : Short e'.nodes) :
    expr e ++ r = expr e' ++ s ↔ e.blur blank = e'.blur blank ∧ r = s := by
  cases e <;> cases e' <;> simp_all [expr, Expr.blur, Expr.nodes, Node.Short, name_append, text_append, count_append,
    unary_append, binary_append, expr_append, exprs_append, arms_append, and_assoc]

theorem exprs_append (es es' : List (Expr α)) {r s : Bytes} (short : Short (Expr.listNodes es))
    (short' : Short (Expr.listNodes es')) :
    es.length = es'.length ∧ exprs es ++ r = exprs es' ++ s ↔
      Expr.blurList blank es = Expr.blurList blank es' ∧ r = s := by
  cases es <;> cases es' <;> simp_all [exprs, Expr.blurList, Expr.listNodes, expr_append, and_assoc]
  rw [and_left_comm, exprs_append _ _ short.2 short'.2]

theorem arms_append (as as' : List (CondValue α)) {r s : Bytes} (short : Short (Expr.armNodes as))
    (short' : Short (Expr.armNodes as')) :
    as.length = as'.length ∧ arms as ++ r = arms as' ++ s ↔
      Expr.blurArms blank as = Expr.blurArms blank as' ∧ r = s := by
  rcases as with _ | ⟨⟨n, test, value⟩, as⟩ <;> rcases as' with _ | ⟨⟨n', test', value'⟩, as'⟩ <;>
    simp_all [arms, Expr.blurArms, Expr.armNodes, expr_append, and_assoc]
  rw [← arms_append _ _ short.2.2.2 short'.2.2.2]
  tauto

end

/-! ## Lists and optional parts -/

section Parts

variable {γ δ : Type} {write : γ → Bytes} {image : γ → δ} {nodes : γ → List (Node α)}

/-- Writings of parts, one after the other. -/
theorem parts_append
    (part : ∀ (x y : γ) {r s : Bytes}, Short (nodes x) → Short (nodes y) →
      (write x ++ r = write y ++ s ↔ image x = image y ∧ r = s))
    {xs ys : List γ} {r s : Bytes} (short : Short (xs.flatMap nodes)) (short' : Short (ys.flatMap nodes)) :
    xs.length = ys.length ∧ xs.flatMap write ++ r = ys.flatMap write ++ s ↔ xs.map image = ys.map image ∧ r = s := by
  induction xs generalizing ys with
  | nil => cases ys <;> simp
  | cons x xs ih =>
    cases ys with
    | nil => simp
    | cons y ys =>
      simp only [List.flatMap_cons, short_append] at short short'
      simp [part x y short.1 short'.1, ← ih short.2 short'.2, and_assoc, and_left_comm]

/-- The writing of an optional part, none of which starts with the mark of a missing one. -/
theorem optional_append (starts : ∀ x, ∃ tag w, write x = tag :: w ∧ tag ≠ 0x3F)
    (part : ∀ (x y : γ) {r s : Bytes}, Short (nodes x) → Short (nodes y) →
      (write x ++ r = write y ++ s ↔ image x = image y ∧ r = s))
    {x y : Option γ} {r s : Bytes} (short : Short ((x.map nodes).getD [])) (short' : Short ((y.map nodes).getD [])) :
    optional write x ++ r = optional write y ++ s ↔ x.map image = y.map image ∧ r = s := by
  cases x with
  | none =>
    cases y with
    | none => simp [optional]
    | some y =>
      obtain ⟨tag, w, isTag, marked⟩ := starts y
      simp [optional, absent, isTag, marked.symm]
  | some x =>
    cases y with
    | none =>
      obtain ⟨tag, w, isTag, marked⟩ := starts x
      simp [optional, absent, isTag, marked]
    | some y => simp [optional, part x y short short']

end Parts

theorem expr_starts (e : Expr α) : ∃ tag w, expr e = tag :: w ∧ tag ≠ 0x3F := by
  cases e <;> exact ⟨_, _, rfl, by decide⟩

theorem names_append {ids ids' : List (Ident α)} (few : ids.length < 2 ^ 32) (few' : ids'.length < 2 ^ 32)
    (short : Short (identNodes ids)) (short' : Short (identNodes ids')) :
    names ids ++ r = names ids' ++ s ↔ ids.map (Ident.blur blank) = ids'.map (Ident.blur blank) ∧ r = s := by
  have nodes (ids : List (Ident α)) : identNodes ids = ids.flatMap fun i => [.ident i] := by
    rw [identNodes, List.map_eq_flatMap]
  rw [nodes] at short short'
  rw [names, names, List.append_assoc, List.append_assoc, count_append few few']
  have part (i j : Ident α) {r s : Bytes} (short : Short [.ident i]) (short' : Short [.ident j]) :
      name i ++ r = name j ++ s ↔ i.blur blank = j.blur blank ∧ r = s :=
    name_append (short_cons.mp short).1 (short_cons.mp short').1
  exact parts_append part short short'

/-! ## Modes -/

theorem modeName_append (m m' : ModeName α) {r s : Bytes} (short : Short m.nodes) (short' : Short m'.nodes) :
    modeName m ++ r = modeName m' ++ s ↔ m.blur blank = m'.blur blank ∧ r = s := by
  simp_all [modeName, ModeName.blur, ModeName.nodes, Node.Short, name_append]

theorem modeName_starts (m : ModeName α) : ∃ tag w, modeName m = tag :: w ∧ tag ≠ 0x3F :=
  ⟨_, _, rfl, by decide⟩

mutual

/-- The writing of a mode expression tells it and ends with it. -/
theorem mode_append (m m' : ModeExpr α) {r s : Bytes} (short : Short m.nodes) (short' : Short m'.nodes) :
    mode m ++ r = mode m' ++ s ↔ m.blur blank = m'.blur blank ∧ r = s := by
  cases m with
  | name m =>
    cases m' with
    | name m' => simp [mode, ModeExpr.blur, modeName_append m m' short short']
    | _ => simp [mode, modeName, ModeExpr.blur]
  | _ => cases m' <;> simp_all [mode, modeName, ModeExpr.blur, ModeExpr.nodes, Node.Short, count_append, expr_append,
      optional_append modeName_starts modeName_append, mode_append, modes_append, and_assoc]

theorem modes_append (ms ms' : List (ModeExpr α)) {r s : Bytes} (short : Short (ModeExpr.listNodes ms))
    (short' : Short (ModeExpr.listNodes ms')) :
    ms.length = ms'.length ∧ modes ms ++ r = modes ms' ++ s ↔
      ModeExpr.blurList blank ms = ModeExpr.blurList blank ms' ∧ r = s := by
  cases ms <;> cases ms' <;> simp_all [modes, ModeExpr.blurList, ModeExpr.listNodes, mode_append, and_assoc]
  rw [and_left_comm, modes_append _ _ short.2 short'.2]

end

theorem mode_starts (m : ModeExpr α) : ∃ tag w, mode m = tag :: w ∧ tag ≠ 0x3F := by
  cases m <;> exact ⟨_, _, rfl, by decide⟩

/-! ## Declarations and headers -/

theorem declaration_append (d d' : Declaration α) {r s : Bytes} (short : Short d.nodes) (short' : Short d'.nodes) :
    declaration d ++ r = declaration d' ++ s ↔ d.blur blank = d'.blur blank ∧ r = s := by
  simp_all [declaration, Declaration.blur, Declaration.nodes, Node.Short, names_append, mode_append,
    optional_append expr_starts expr_append, optionalNodes, and_assoc]

theorem synonym_append (d d' : SynonymDef α) {r s : Bytes} (short : Short d.nodes) (short' : Short d'.nodes) :
    synonym d ++ r = synonym d' ++ s ↔ d.blur blank = d'.blur blank ∧ r = s := by
  simp_all [synonym, SynonymDef.blur, SynonymDef.nodes, Node.Short, names_append, expr_append,
    optional_append mode_starts mode_append, and_assoc]

theorem modeDef_append (d d' : ModeDef α) {r s : Bytes} (short : Short d.nodes) (short' : Short d'.nodes) :
    modeDef d ++ r = modeDef d' ++ s ↔ d.blur blank = d'.blur blank ∧ r = s := by
  simp_all [modeDef, ModeDef.blur, ModeDef.nodes, Node.Short, names_append, mode_append, and_assoc]

theorem param_append (p p' : FormalParam α) {r s : Bytes} (short : Short p.nodes) (short' : Short p'.nodes) :
    param p ++ r = param p' ++ s ↔ p.blur blank = p'.blur blank ∧ r = s := by
  simp_all [param, FormalParam.blur, FormalParam.nodes, Node.Short, names_append, mode_append, and_assoc]

theorem result_append (p p' : ResultSpec α) {r s : Bytes} (short : Short p.nodes) (short' : Short p'.nodes) :
    result p ++ r = result p' ++ s ↔ p.blur blank = p'.blur blank ∧ r = s := by
  simp_all [result, ResultSpec.blur, ResultSpec.nodes, mode_append, and_assoc]

theorem control_append (c c' : ForControl α) {r s : Bytes} (short : Short c.nodes) (short' : Short c'.nodes) :
    control c ++ r = control c' ++ s ↔ c.blur blank = c'.blur blank ∧ r = s := by
  simp_all [control, ForControl.blur, ForControl.nodes, Node.Short, name_append, expr_append,
    optional_append expr_starts expr_append, optionalNodes, and_assoc]

theorem result_starts (p : ResultSpec α) : ∃ tag w, result p = tag :: w ∧ tag ≠ 0x3F := ⟨_, _, rfl, by decide⟩

theorem control_starts (c : ForControl α) : ∃ tag w, control c = tag :: w ∧ tag ≠ 0x3F := ⟨_, _, rfl, by decide⟩

@[simp] theorem assignOp_append {o o' : Option BinaryOp} : assignOp o ++ r = assignOp o' ++ s ↔ o = o' ∧ r = s := by
  have small (o : Option BinaryOp) : ((o.map BinaryOp.symbol).getD "" : Bytes).length < 2 ^ 32 := by
    rcases o with _ | o
    · decide
    · cases o <;> decide
  have same : ((o.map BinaryOp.symbol).getD "" : Bytes) = ((o'.map BinaryOp.symbol).getD "" : String) ↔ o = o' := by
    rcases o with _ | _ | _ <;> rcases o' with _ | _ | _ <;> decide
  rw [assignOp, assignOp, text_append (small o) (small o'), same]

/-! ## Statements -/

mutual

/-- The writing of a statement tells it and ends with it. -/
theorem stmt_append (t t' : Stmt α) {r s : Bytes} (short : Short t.nodes) (short' : Short t'.nodes) :
    stmt t ++ r = stmt t' ++ s ↔ t.blur blank = t'.blur blank ∧ r = s := by
  rcases t with _ | _ | _ | _ | _ | ⟨_, _, _ | _⟩ | _ | _ | _ | _ <;>
    rcases t' with _ | _ | _ | _ | _ | ⟨_, _, _ | _⟩ | _ | _ | _ | _
  case assign.assign =>
    simp_all [stmt, Stmt.blur, Stmt.nodes, expr_append, and_assoc]
    exact and_left_comm
  all_goals simp_all [stmt, Stmt.blur, Stmt.blurElse, Stmt.nodes, Node.Short, name_append, count_append, expr_append,
    stmts_append, branchArms_append, parts_append declaration_append, parts_append synonym_append,
    parts_append modeDef_append, parts_append param_append, optional_append result_starts result_append,
    optional_append control_starts control_append, optional_append expr_starts expr_append, optionalNodes, Expr.blur,
    and_assoc]

theorem stmts_append (ts ts' : List (Stmt α)) {r s : Bytes} (short : Short (Stmt.listNodes ts))
    (short' : Short (Stmt.listNodes ts')) :
    ts.length = ts'.length ∧ stmts ts ++ r = stmts ts' ++ s ↔
      Stmt.blurList blank ts = Stmt.blurList blank ts' ∧ r = s := by
  cases ts <;> cases ts' <;> simp_all [stmts, Stmt.blurList, Stmt.listNodes, stmt_append, and_assoc]
  rw [and_left_comm, stmts_append _ _ short.2 short'.2]

theorem branchArms_append (as as' : List (CondBranch α)) {r s : Bytes} (short : Short (Stmt.armNodes as))
    (short' : Short (Stmt.armNodes as')) :
    as.length = as'.length ∧ branchArms as ++ r = branchArms as' ++ s ↔
      Stmt.blurArms blank as = Stmt.blurArms blank as' ∧ r = s := by
  rcases as with _ | ⟨⟨n, test, body⟩, as⟩ <;> rcases as' with _ | ⟨⟨n', test', body'⟩, as'⟩ <;>
    simp_all [branchArms, Stmt.blurArms, Stmt.armNodes, Node.Short, CondBranch.body, count_append, expr_append,
      stmts_append, and_assoc]
  rw [← branchArms_append _ _ short.2.2.2 short'.2.2.2]
  tauto

end

/-- A program that is told by its bytes, and what follows them. -/
theorem program_append {p q : Program α} {r s : Bytes} (short : Short p.nodes) (short' : Short q.nodes) :
    program p ++ r = program q ++ s ↔ p.blur blank = q.blur blank ∧ r = s := by
  simp_all [program, Program.blur, Program.nodes, Node.Short, count_append, stmts_append]

end Fingerprint

/-- The bytes of a program tell what it says, and where they end. -/
theorem fingerprint_bytes_injective {p q : Program α} (short : Short p.nodes) (short' : Short q.nodes) :
    (Fingerprint.program p = Fingerprint.program q → p.plain = q.plain) ∧
      ∀ r s, Fingerprint.program p ++ r = Fingerprint.program q ++ s → p.plain = q.plain ∧ r = s := by
  have ends : ∀ r s, Fingerprint.program p ++ r = Fingerprint.program q ++ s → p.plain = q.plain ∧ r = s :=
    fun r s => (Fingerprint.program_append short short').mp
  refine ⟨fun same => ?_, ends⟩
  exact (ends [] [] (congrArg (· ++ []) same)).1

/-- Two texts that differ in layout and in the case of a name have the same bytes. -/
theorem fingerprint_bytes_of_respelled :
    Short (parse "dcl Total int = 1;").1.nodes ∧ Short (parse "dcl TOTAL   int = 1 ;").1.nodes ∧
      Fingerprint.program (parse "dcl Total int = 1;").1 = Fingerprint.program (parse "dcl TOTAL   int = 1 ;").1 ∧
      (parse "dcl Total int = 1;").1.plain = (parse "dcl TOTAL   int = 1 ;").1.plain := by
  have short : Short (parse "dcl Total int = 1;").1.nodes := by decide +kernel
  have short' : Short (parse "dcl TOTAL   int = 1 ;").1.nodes := by decide +kernel
  have same : Fingerprint.program (parse "dcl Total int = 1;").1 =
      Fingerprint.program (parse "dcl TOTAL   int = 1 ;").1 := by
    decide +kernel
  exact ⟨short, short', same, (fingerprint_bytes_injective short short').1 same⟩

end LyaLang
