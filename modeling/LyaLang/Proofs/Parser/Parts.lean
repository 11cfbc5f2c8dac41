import LyaLang.Parser.Grammar

/-! # Statements and their semicolons

A statement is read in two parts: what it says, and the semicolon behind it, which only a block can do without.
-/

namespace LyaLang

open Ast

namespace Ast

/-- Statements that end with a word of their own. -/
def Stmt.isBlock {α : Type} : Stmt α → Bool
  | .proc .. | .branch .. | .loop .. => true
  | _ => false

end Ast

namespace Parser

variable {α β γ : Type}

/-- A statement without its semicolon. -/
def unterminated (fuel : Nat) : Parser (Stmt Span) := do
  let s ← state
  match s.current.kind with
  | .dclWord =>
    advance
    let decls ← commaList (declaration fuel) fuel
    return .declare (← spanFrom s.current.position) decls
  | .synWord =>
    advance
    let defs ← commaList (synonymDef fuel) fuel
    return .synonym (← spanFrom s.current.position) defs
  | .typeWord =>
    advance
    let defs ← commaList (modeDef fuel) fuel
    return .modes (← spanFrom s.current.position) defs
  | .identifier => if s.peek.kind == .colon then procedure fuel else simpleAction fuel
  | _ => action fuel

/-- The semicolon behind a statement. -/
def terminated (stmt : Stmt Span) : Parser (Stmt Span) := do
  if (← kind) == .semicolon then advance
  else if !stmt.isBlock then reportExpected ";"
  return stmt

theorem map_id (p : Parser α) : id <$> p = p := by
  funext s
  simp only [Functor.map]
  cases p s with
  | mk a? s' => cases a? <;> rfl

theorem bind_bind (p : Parser α) (f : α → Parser β) (g : β → Parser γ) :
    p >>= f >>= g = p >>= fun a => f a >>= g := by
  funext s
  simp only [Bind.bind]
  cases p s with
  | mk a? s' => cases a? <;> rfl

instance : LawfulMonad Parser := LawfulMonad.mk' Parser map_id (fun _ _ => rfl) bind_bind

theorem statement_succ (fuel : Nat) : statement (fuel + 1) = enter >>= fun _ => unterminated fuel >>= terminated := by
  rw [statement, unterminated]
  refine congrArg (enter >>= ·) (funext fun _ => ?_)
  rw [bind_assoc]
  refine congrArg (state >>= ·) (funext fun s => ?_)
  generalize s.current.kind = k
  cases k with
  | dclWord | synWord | typeWord =>
    simp only [bind_assoc, pure_bind]
    rfl
  | identifier =>
    dsimp only
    split
    · refine congrArg (procedure fuel >>= ·) (funext fun stmt => ?_)
      cases stmt <;> rfl
    · refine congrArg (simpleAction fuel >>= ·) (funext fun stmt => ?_)
      cases stmt <;> rfl
  | _ =>
    refine congrArg (action fuel >>= ·) (funext fun stmt => ?_)
    cases stmt <;> rfl

theorem state_bind (f : ParserState → Parser α) (s : ParserState) : (state >>= f) s = f s s := rfl

/-- A parser after whose failure the reader goes on behind the next semicolon, if there was an error. -/
def recovered (p : Parser α) : Parser (Option α) := do
  let s ← state
  match ← optional p with
  | some a => return some a
  | none =>
    if (← state).errors.length > s.errors.length then synchronize
    return none

theorem recovered_of_some {p : Parser α} {s s' : ParserState} {a : α} (gives : p s = (some a, s')) :
    recovered p s = (some (some a), s') := by
  simp [recovered, Bind.bind, state, optional, gives, Pure.pure]

theorem recovered_of_none {p : Parser α} {s s' s'' : ParserState} (fails : p s = (none, s'))
    (grown : s.errors.length < s'.errors.length) (skips : synchronize s' = (some (), s'')) :
    recovered p s = (some none, s'') := by
  simp [recovered, Bind.bind, state, optional, fails, grown, skips, Pure.pure]

theorem statements_succ (fuel : Nat) (closing : List TokenKind) : statements (fuel + 1) closing = (do
    enter
    let s ← state
    if closing.contains s.current.kind then return []
    else if s.current.kind == .endOfInput then
      report .endOfInput
      return []
    else if s.current.kind == .semicolon then
      advance
      statements fuel closing
    else
      match ← recovered (statement fuel) with
      | some stmt => return stmt :: (← statements fuel closing)
      | none => statements fuel closing) := by
  rw [statements]
  refine congrArg (enter >>= ·) (funext fun _ => funext fun s => ?_)
  rw [state_bind, state_bind]
  split
  · rfl
  split
  · rfl
  split
  · rfl
  rw [recovered, bind_assoc, state_bind, bind_assoc]
  refine congrFun (congrArg (optional (statement fuel) >>= ·) (funext fun stmt? => ?_)) s
  cases stmt? with
  | some stmt => rfl
  | none =>
    rw [bind_assoc]
    refine congrArg (state >>= ·) (funext fun s' => ?_)
    split
    · rw [bind_assoc]
      rfl
    · rfl

theorem run_eq (p : Nat → Parser α) (source : Bytes) :
    run p source = ((p (fuel (.ofSource source)) (.ofSource source)).1,
      (p (fuel (.ofSource source)) (.ofSource source)).2.errors) :=
  rfl

end Parser

theorem parse_eq (source : Bytes) :
    parse source = ((Parser.program (Parser.fuel (.ofSource source)) (.ofSource source)).1.getD ⟨default, []⟩,
      (Parser.program (Parser.fuel (.ofSource source)) (.ofSource source)).2.errors) := by
  rw [parse, Parser.run_eq]

end LyaLang
