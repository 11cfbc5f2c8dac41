import LyaLang.Ast.Basic
import LyaLang.Parser.State

/-! # The grammar

Recursive descent over the tokens of a source text. Expressions have six levels of left-associative
binary operators, then prefix and postfix forms. The first argument of each production bounds the
depth of the descent and the length of its lists; `Parser.fuel` suffices for the tokens that are
left.
-/

namespace LyaLang

open Ast

namespace Parser

def fuel (s : ParserState) : Nat := 24 * (s.rest.length + 4)

def binaryLevels : List (List (TokenKind × BinaryOp)) :=
  [[(.orElse, .either)],
   [(.andAlso, .both)],
   [(.equal, .equal), (.notEqual, .notEqual)],
   [(.less, .less), (.lessEqual, .lessEqual), (.greater, .greater), (.greaterEqual, .greaterEqual)],
   [(.plus, .add), (.minus, .sub)],
   [(.star, .mul), (.slash, .div), (.percent, .mod)]]

def operatorAt? (level : List (TokenKind × BinaryOp)) (kind : TokenKind) : Option BinaryOp :=
  (level.find? fun entry => entry.1 == kind).map (·.2)

/-- A name. Its span ends where the next token starts. -/
def ident : Parser (Ident Span) := do
  let s ← state
  if s.current.kind == .identifier then
    advance
    return ⟨⟨s.current.position, s.peek.position⟩, s.current.text⟩
  else
    reportExpected "identifier"
    fail

mutual

/-- An expression whose operators bind at least as tightly as the first of `levels`. -/
def binary : Nat → List (List (TokenKind × BinaryOp)) → Parser (Expr Span)
  | 0, _ => fail
  | fuel + 1, [] => do
    enter
    unary fuel
  | fuel + 1, level :: tighter => do
    enter
    let start ← position
    let left ← binary fuel tighter
    binaryRest fuel level tighter start left

/-- The operators of one level and their right operands after a left operand. -/
def binaryRest : Nat → List (TokenKind × BinaryOp) → List (List (TokenKind × BinaryOp)) → Position →
    Expr Span → Parser (Expr Span)
  | 0, _, _, _, _ => fail
  | fuel + 1, level, tighter, start, left => do
    enter
    match operatorAt? level (← kind) with
    | none => return left
    | some op =>
      advance
      let right ← binary fuel tighter
      binaryRest fuel level tighter start (.binary (← spanFrom start) op left right)

/-- A prefix operator and its operand, or a postfix expression. -/
def unary : Nat → Parser (Expr Span)
  | 0 => fail
  | fuel + 1 => do
    enter
    let start ← position
    match ← kind with
    | .minus =>
      advance
      let x ← unary fuel
      return .unary (← spanFrom start) .negate x
    | .bang =>
      advance
      let x ← unary fuel
      return .unary (← spanFrom start) .complement x
    | .arrow =>
      advance
      let x ← unary fuel
      return .ref (← spanFrom start) x
    | _ =>
      let x ← primary fuel
      postfixes fuel start x

/-- Index lists and arrows after an expression. -/
def postfixes : Nat → Position → Expr Span → Parser (Expr Span)
  | 0, _, _ => fail
  | fuel + 1, start, x => do
    enter
    match ← kind with
    | .leftBracket =>
      advance
      let indexes ← indexList fuel
      expect .rightBracket
      postfixes fuel start (.index (← spanFrom start) x indexes)
    | .arrow =>
      advance
      postfixes fuel start (.deref (← spanFrom start) x)
    | _ => return x

/-- One or more expressions between commas. -/
def indexList : Nat → Parser (List (Expr Span))
  | 0 => fail
  | fuel + 1 => do
    enter
    let first ← binary fuel binaryLevels
    if ← accept .comma then return first :: (← indexList fuel) else return [first]

/-- Arguments up to a closing parenthesis; a comma may stand before it. -/
def arguments : Nat → Parser (List (Expr Span))
  | 0 => fail
  | fuel + 1 => do
    enter
    if (← kind) == .rightParen then return []
    let first ← binary fuel binaryLevels
    if ← accept .comma then return first :: (← arguments fuel) else return [first]

def valueArms : Nat → Parser (List (CondValue Span))
  | 0 => fail
  | fuel + 1 => do
    enter
    let kind ← kind
    if kind == .ifWord || kind == .elsifWord then
      let start ← position
      advance
      let test ← binary fuel binaryLevels
      expect .thenWord
      let value ← binary fuel binaryLevels
      let arm := .mk (← spanFrom start) test value
      return arm :: (← valueArms fuel)
    else return []

/-- A literal, name, call, parenthesized expression or conditional expression. -/
def primary : Nat → Parser (Expr Span)
  | 0 => fail
  | fuel + 1 => do
    enter
    let token := (← state).current
    let start := token.position
    match token.kind with
    | .integer =>
      match Text.parseInt64? token.text with
      | none => failWith (.outOfRange token.text)
      | some value =>
        advance
        return .int (← spanFrom start) value
    | .trueWord =>
      advance
      return .bool (← spanFrom start) true
    | .falseWord =>
      advance
      return .bool (← spanFrom start) false
    | .character =>
      advance
      return .char (← spanFrom start) ((Text.chars token.text).headD Text.replacement)
    | .text =>
      advance
      return .text (← spanFrom start) token.text
    | .identifier =>
      let id ← ident
      if ← accept .leftParen then
        let args ← arguments fuel
        expect .rightParen
        return .call (← spanFrom start) id args
      else return .ident id
    | .leftParen =>
      advance
      let x ← binary fuel binaryLevels
      expect .rightParen
      return x
    | .ifWord =>
      let arms ← valueArms fuel
      expect .elseWord
      let otherwise ← binary fuel binaryLevels
      expect .fiWord
      return .cond (← spanFrom start) arms otherwise
    | _ => failWith (.unexpected token)

end

/-- An expression. -/
def expr (fuel : Nat) : Parser (Expr Span) := binary fuel binaryLevels

/-- Names between commas; a comma that no name follows is left alone. -/
def identList : Nat → Parser (List (Ident Span))
  | 0 => fail
  | fuel + 1 => do
    enter
    let first ← ident
    let s ← state
    if s.current.kind == .comma && s.peek.kind == .identifier then
      advance
      return first :: (← identList fuel)
    else return [first]

def rangeBounds (fuel : Nat) : Parser (Expr Span × Expr Span) := do
  let lo ← expr fuel
  expect .colon
  let hi ← expr fuel
  return (lo, hi)

def namedMode (fuel : Nat) : Parser (ModeExpr Span) := do
  let start ← position
  let id ← ident
  let name : ModeName Span := ⟨id.note, id⟩
  if ← accept .leftParen then
    let (lo, hi) ← rangeBounds fuel
    expect .rightParen
    return .range (← spanFrom start) (some name) lo hi
  else return .name name

def indexMode (fuel : Nat) : Parser (ModeExpr Span) := do
  let s ← state
  let named := s.current.kind == .identifier &&
    (s.peek.kind == .leftParen || s.peek.kind == .comma || s.peek.kind == .rightBracket)
  if named then namedMode fuel
  else
    let start ← position
    let (lo, hi) ← rangeBounds fuel
    return .range (← spanFrom start) none lo hi

/-- One or more array indexes between commas. -/
def indexModes : Nat → Parser (List (ModeExpr Span))
  | 0 => fail
  | fuel + 1 => do
    enter
    let first ← indexMode fuel
    if ← accept .comma then return first :: (← indexModes fuel) else return [first]

def mode : Nat → Parser (ModeExpr Span)
  | 0 => fail
  | fuel + 1 => do
    enter
    let start ← position
    match ← kind with
    | .refWord =>
      advance
      let elem ← mode fuel
      return .ref (← spanFrom start) elem
    | .charsWord =>
      advance
      expect .leftBracket
      let len ← expr fuel
      expect .rightBracket
      return .chars (← spanFrom start) len
    | .arrayWord =>
      advance
      expect .leftBracket
      let indexes ← indexModes fuel
      expect .rightBracket
      let elem ← mode fuel
      return .array (← spanFrom start) indexes elem
    | .identifier => namedMode fuel
    | _ =>
      reportExpected "mode"
      fail

def commaList {α : Type} (item : Parser α) : Nat → Parser (List α)
  | 0 => fail
  | fuel + 1 => do
    enter
    let first ← item
    if ← accept .comma then return first :: (← commaList item fuel) else return [first]

/-- One declaration of a `dcl` statement. -/
def declaration (fuel : Nat) : Parser (Declaration Span) := do
  let start ← position
  let names ← identList fuel
  let mode ← mode fuel
  let loc ← accept .locWord
  let init ← if ← accept .assign then some <$> expr fuel else pure none
  return { note := ← spanFrom start, names, mode, loc, init }

/-- One definition of a `syn` statement. -/
def synonymDef (fuel : Nat) : Parser (SynonymDef Span) := do
  let start ← position
  let names ← identList fuel
  let mode ← if (← kind) == .assign then pure none else some <$> mode fuel
  expect .assign
  let value ← expr fuel
  return { note := ← spanFrom start, names, mode, value }

/-- One definition of a `type` statement. -/
def modeDef (fuel : Nat) : Parser (ModeDef Span) := do
  let start ← position
  let names ← identList fuel
  expect .assign
  let mode ← mode fuel
  return { note := ← spanFrom start, names, mode }

def formalParam (fuel : Nat) : Parser (FormalParam Span) := do
  let start ← position
  let names ← identList fuel
  let mode ← mode fuel
  let loc ← accept .locWord
  return { note := ← spanFrom start, names, mode, loc }

/-- Parameter groups up to a closing parenthesis; a comma may stand before it. -/
def formalParams : Nat → Parser (List (FormalParam Span))
  | 0 => fail
  | fuel + 1 => do
    enter
    if (← kind) == .rightParen then return []
    let first ← formalParam fuel
    if ← accept .comma then return first :: (← formalParams fuel) else return [first]

/-- The result clause of a procedure, if there is one. -/
def resultSpec (fuel : Nat) : Parser (Option (ResultSpec Span)) := do
  let start ← position
  if ← accept .returnsWord then
    expect .leftParen
    let mode ← mode fuel
    let loc ← accept .locWord
    expect .rightParen
    return some { note := ← spanFrom start, mode, loc }
  else return none

/-- `for i = start [by step] [down] to stop`. -/
def forControl (fuel : Nat) : Parser (ForControl Span) := do
  let begin ← position
  advance
  let counter ← ident
  expect .assign
  let start ← expr fuel
  let step ← if ← accept .byWord then some <$> expr fuel else pure none
  let down ← accept .downWord
  expect .toWord
  let stop ← expr fuel
  return { note := ← spanFrom begin, counter, start, step, down, stop }

/-- The optional `for` and `while` parts of a loop. -/
def loopControl (fuel : Nat) : Parser (Option (ForControl Span) × Option (Expr Span)) := do
  let control ← if (← kind) == .forWord then some <$> forControl fuel else pure none
  let whilst ← if ← accept .whileWord then some <$> expr fuel else pure none
  return (control, whilst)

def endsBlock : TokenKind → Bool
  | .fiWord | .odWord | .endWord | .elseWord | .elsifWord | .endOfInput => true
  | _ => false

/-- An assignment or a call after their first expression. -/
def simpleAction (fuel : Nat) : Parser (Stmt Span) := do
  let start ← position
  let x ← expr fuel
  let kind ← kind
  if kind.isAssignment then
    let op : Option BinaryOp := match kind with
      | .plusAssign => some .add
      | .minusAssign => some .sub
      | .starAssign => some .mul
      | .slashAssign => some .div
      | .percentAssign => some .mod
      | _ => none
    advance
    let value ← expr fuel
    return .assign (← spanFrom start) x op value
  else match x with
    | .call note callee args => return .call note note callee args
    | _ => failWith .expressionAsAction

mutual

/-- Statements up to one of the closing tokens. A statement that fails with an error is passed over
up to the next semicolon. -/
def statements : Nat → List TokenKind → Parser (List (Stmt Span))
  | 0, _ => fail
  | fuel + 1, closing => do
    enter
    let s ← state
    if closing.contains s.current.kind then return []
    else if s.current.kind == .endOfInput then
      report .endOfInput
      return []
    else if s.current.kind == .semicolon then
      advance
      statements fuel closing
    else
      match ← optional (statement fuel) with
      | some stmt => return stmt :: (← statements fuel closing)
      | none =>
        if (← state).errors.length > s.errors.length then synchronize
        statements fuel closing

/-- A statement and its semicolon, which may be missing after a block. -/
def statement : Nat → Parser (Stmt Span)
  | 0 => fail
  | fuel + 1 => do
    enter
    let s ← state
    let start := s.current.position
    let stmt : Stmt Span ← match s.current.kind with
      | .dclWord =>
        advance
        let decls ← commaList (declaration fuel) fuel
        pure (.declare (← spanFrom start) decls)
      | .synWord =>
        advance
        let defs ← commaList (synonymDef fuel) fuel
        pure (.synonym (← spanFrom start) defs)
      | .typeWord =>
        advance
        let defs ← commaList (modeDef fuel) fuel
        pure (.modes (← spanFrom start) defs)
      | .identifier => if s.peek.kind == .colon then procedure fuel else simpleAction fuel
      | _ => action fuel
    let block := match stmt with
      | .proc .. | .branch .. | .loop .. => true
      | _ => false
    if (← kind) == .semicolon then advance
    else if !block then reportExpected ";"
    return stmt

/-- `name: proc(params) [returns(mode [loc])]; body end`. -/
def procedure : Nat → Parser (Stmt Span)
  | 0 => fail
  | fuel + 1 => do
    enter
    let start ← position
    let name ← ident
    advance
    expect .procWord
    expect .leftParen
    let params ← formalParams fuel
    expect .rightParen
    let result ← resultSpec fuel
    expect .semicolon
    let body ← statements fuel [.endWord]
    expect .endWord
    return .proc (← spanFrom start) name params result body

def action : Nat → Parser (Stmt Span)
  | 0 => fail
  | fuel + 1 => do
    enter
    let start ← position
    match ← kind with
    | .ifWord =>
      let arms ← branchArms fuel
      let otherwise ← if ← accept .elseWord then some <$> statements fuel [.fiWord] else pure none
      expect .fiWord
      return .branch (← spanFrom start) arms otherwise
    | .doWord =>
      advance
      let (control, whilst) ← loopControl fuel
      if control.isSome || whilst.isSome then expect .semicolon
      loopBody fuel start control whilst
    | .forWord | .whileWord =>
      let (control, whilst) ← loopControl fuel
      expect .doWord
      loopBody fuel start control whilst
    | .returnWord =>
      advance
      let kind ← kind
      let value ← if kind == .semicolon || endsBlock kind then pure none else some <$> expr fuel
      return .ret (← spanFrom start) value
    | .resultWord =>
      advance
      let value ← expr fuel
      return .result (← spanFrom start) value
    | _ => simpleAction fuel

/-- The arms of an `if` chain. -/
def branchArms : Nat → Parser (List (CondBranch Span))
  | 0 => fail
  | fuel + 1 => do
    enter
    let kind ← kind
    if kind == .ifWord || kind == .elsifWord then
      let start ← position
      advance
      let test ← expr fuel
      expect .thenWord
      let body ← statements fuel [.elsifWord, .elseWord, .fiWord]
      let arm := .mk (← spanFrom start) test body
      return arm :: (← branchArms fuel)
    else return []

def loopBody : Nat → Position → Option (ForControl Span) → Option (Expr Span) → Parser (Stmt Span)
  | 0, _, _, _ => fail
  | fuel + 1, start, control, whilst => do
    enter
    let body ← statements fuel [.odWord]
    expect .odWord
    return .loop (← spanFrom start) control whilst body

end

/-- A whole compilation unit. -/
def program (fuel : Nat) : Parser (Program Span) := do
  let start ← position
  let stmts ← statements fuel [.endOfInput]
  return { note := ← spanFrom start, stmts }

def run {α : Type} (p : Nat → Parser α) (source : Bytes) : Option α × List ParseError :=
  let s := ParserState.ofSource source
  let (result, s) := p (fuel s) s
  (result, s.errors)

end Parser

/-- The tree of a source text together with its parse errors. A tree is there even when there are
errors; it then lacks the statements that failed. -/
def parse (source : Bytes) : Program Span × List ParseError :=
  let (tree, errors) := Parser.run Parser.program source
  (tree.getD ⟨default, []⟩, errors)

end LyaLang
