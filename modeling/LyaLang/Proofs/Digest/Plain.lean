import LyaLang.Digest.Fingerprint
import LyaLang.Proofs.Parser.Parse
import LyaLang.Proofs.Text.Case
import LyaLang.Proofs.Tree.BlurLabels

/-! # Fingerprint bytes depend on what a program says

A tree and the one with its names in lower case and its notes replaced have the same writing, so neither layout
nor the case of names can change a fingerprint.
-/

namespace LyaLang

open Ast

variable {α β : Type} (f : α → β)

namespace Fingerprint

@[simp] theorem name_blur (i : Ident α) : name (i.blur f) = name i := by simp [name, Ident.blur, Text.toLower_idem]

@[simp] theorem names_blur (ids : List (Ident α)) : names (ids.map (Ident.blur f)) = names ids := by
  simp [names, List.flatMap_map]

theorem optional_map {γ δ : Type} (write : δ → Bytes) (g : γ → δ) (x : Option γ) :
    optional write (x.map g) = optional (fun y => write (g y)) x := by
  cases x <;> rfl

@[simp] theorem length_blurList (xs : List (Expr α)) : (Expr.blurList f xs).length = xs.length := by
  induction xs with
  | nil => rfl
  | cons _ _ ih => exact congrArg (· + 1) ih

mutual

@[simp] theorem expr_blur (e : Expr α) : expr (e.blur f) = expr e := by
  cases e <;> simp [expr, Expr.blur, Expr.blurArms_length, expr_blur, exprs_blur, arms_blur]

@[simp] theorem exprs_blur (es : List (Expr α)) : exprs (Expr.blurList f es) = exprs es := by
  cases es <;> simp [exprs, Expr.blurList, expr_blur, exprs_blur]

@[simp] theorem arms_blur (as : List (CondValue α)) : arms (Expr.blurArms f as) = arms as := by
  rcases as with _ | ⟨⟨_, _⟩, _⟩ <;> simp [arms, Expr.blurArms, expr_blur, arms_blur]

end

@[simp] theorem modeName_blur (m : ModeName α) : modeName (m.blur f) = modeName m := by
  simp [modeName, ModeName.blur]

@[simp] theorem length_blurModes (ms : List (ModeExpr α)) : (ModeExpr.blurList f ms).length = ms.length := by
  induction ms with
  | nil => rfl
  | cons _ _ ih => exact congrArg (· + 1) ih

mutual

@[simp] theorem mode_blur (m : ModeExpr α) : mode (m.blur f) = mode m := by
  cases m <;> simp [mode, ModeExpr.blur, optional_map, mode_blur, modes_blur]

@[simp] theorem modes_blur (ms : List (ModeExpr α)) : modes (ModeExpr.blurList f ms) = modes ms := by
  cases ms <;> simp [modes, ModeExpr.blurList, mode_blur, modes_blur]

end

@[simp] theorem declaration_blur (d : Declaration α) : declaration (d.blur f) = declaration d := by
  simp [declaration, Declaration.blur, optional_map]

@[simp] theorem synonym_blur (d : SynonymDef α) : synonym (d.blur f) = synonym d := by
  simp [synonym, SynonymDef.blur, optional_map]

@[simp] theorem modeDef_blur (d : ModeDef α) : modeDef (d.blur f) = modeDef d := by simp [modeDef, ModeDef.blur]

@[simp] theorem param_blur (p : FormalParam α) : param (p.blur f) = param p := by simp [param, FormalParam.blur]

@[simp] theorem result_blur (r : ResultSpec α) : result (r.blur f) = result r := by simp [result, ResultSpec.blur]

@[simp] theorem control_blur (c : ForControl α) : control (c.blur f) = control c := by
  simp [control, ForControl.blur, optional_map]

@[simp] theorem length_blurStmts (ss : List (Stmt α)) : (Stmt.blurList f ss).length = ss.length := by
  induction ss with
  | nil => rfl
  | cons _ _ ih => exact congrArg (· + 1) ih

mutual

@[simp] theorem stmt_blur (s : Stmt α) : stmt (s.blur f) = stmt s := by
  rcases s with _ | _ | _ | _ | _ | ⟨_, _, _ | _⟩ | _ | _ | _ | _ <;>
    simp [stmt, expr, Stmt.blur, Stmt.blurElse, List.flatMap_map, optional_map, Stmt.blurArms_length, stmts_blur,
      branchArms_blur]

@[simp] theorem stmts_blur (ss : List (Stmt α)) : stmts (Stmt.blurList f ss) = stmts ss := by
  cases ss <;> simp [stmts, Stmt.blurList, stmt_blur, stmts_blur]

@[simp] theorem branchArms_blur (bs : List (CondBranch α)) : branchArms (Stmt.blurArms f bs) = branchArms bs := by
  rcases bs with _ | ⟨⟨_, _⟩, _⟩ <;> simp [branchArms, Stmt.blurArms, stmts_blur, branchArms_blur]

end

theorem program_blur (p : Program α) : program (p.blur f) = program p := by simp [program, Program.blur]

/-- Programs that say the same have the same writing. -/
theorem program_congr {p p' : Program α} (same : p.plain = p'.plain) : program p = program p' := by
  rw [← program_blur (fun _ => ()) p, ← program_blur (fun _ => ()) p']
  exact congrArg program same

end Fingerprint

/-- Neither layout nor spelling matters: source texts whose tokens agree in class, in the text of literals and in
the lower case of names have equally many parse errors, and their trees have the same writing. -/
theorem alike_tokens_parse_to_same_fingerprint_bytes {source source' : Bytes}
    (same : List.Forall₂ Token.Alike (tokens source) (tokens source')) :
    (parse source).2.length = (parse source').2.length ∧
      Fingerprint.program (parse source).1 = Fingerprint.program (parse source').1 :=
  ⟨(parse_alike same).1, Fingerprint.program_congr (parse_alike same).2⟩

theorem spaced_capital_text_has_same_fingerprint_bytes :
    List.Forall₂ Token.Alike (tokens "dcl total int=1;print(Total,'a');do total+=2") (tokens
        "DCL Total INT := 1; /* out */ Print(\n  TOTAL, 'a'); // then\n Do tOTAL += 2 ") ∧
      (parse "dcl total int=1;print(Total,'a');do total+=2").2.length = (parse
        "DCL Total INT := 1; /* out */ Print(\n  TOTAL, 'a'); // then\n Do tOTAL += 2 ").2.length ∧
      Fingerprint.program (parse "dcl total int=1;print(Total,'a');do total+=2").1 = Fingerprint.program (parse
        "DCL Total INT := 1; /* out */ Print(\n  TOTAL, 'a'); // then\n Do tOTAL += 2 ").1 := by
  have same : List.Forall₂ Token.Alike (tokens "dcl total int=1;print(Total,'a');do total+=2") (tokens
      "DCL Total INT := 1; /* out */ Print(\n  TOTAL, 'a'); // then\n Do tOTAL += 2 ") := by
    decide +kernel
  exact ⟨same, alike_tokens_parse_to_same_fingerprint_bytes same⟩

end LyaLang
