import LyaLang.Source.Lexer

/-! # Reading tokens

A reader sees the current token and the one after it. Lexical errors are recorded and passed over when
the second token is fetched. A parser either yields a value or fails; in both cases what it consumed
and the errors it recorded stay.
-/

namespace LyaLang

/-- Why a source text does not parse. -/
inductive ParseError.Cause where
  | lexical (message : Bytes)
  | expected (what : String) (found : Token)
  | unexpected (found : Token)
  | endOfInput
  | expressionAsAction
  | outOfRange (literal : Bytes)
deriving DecidableEq, Repr

/-- A parse error and the line it was found on. -/
structure ParseError where
  line : Nat
  cause : ParseError.Cause
deriving DecidableEq, Repr

namespace ParseError

def Cause.text : Cause → Bytes
  | lexical message => message
  | expected what found => ("expected " : Bytes) ++ what ++ (", got " : Bytes) ++ found.describe
  | unexpected found => ("unexpected " : Bytes) ++ found.describe
  | endOfInput => "unexpected end of input"
  | expressionAsAction => "expected action, got expression"
  | outOfRange literal => ("integer literal " : Bytes) ++ literal ++ (" out of range" : Bytes)

def text (e : ParseError) : Bytes := e.cause.text

def message (e : ParseError) : Bytes :=
  ("line " : Bytes) ++ Text.ofNat e.line ++ (": " : Bytes) ++ e.text

end ParseError

/-- The tokens in view, those not yet fetched, the errors so far, and how often a production was entered. -/
structure ParserState where
  current : Token
  peek : Token
  rest : List Token
  errors : List ParseError
  steps : Nat := 0

namespace ParserState

/-- Move to the next token. Behind the last token the end of input repeats. -/
def advance (s : ParserState) : ParserState :=
  let faults := s.rest.takeWhile fun token => token.kind == .lexicalError
  let errors := s.errors ++ faults.map fun token => ⟨token.position.line, .lexical token.text⟩
  match s.rest.drop faults.length with
  | [] => { s with current := s.peek, rest := [], errors }
  | token :: rest => { s with current := s.peek, peek := token, rest, errors }

def ofSource (source : Bytes) : ParserState :=
  ParserState.advance (.advance { current := default, peek := default, rest := tokens source, errors := [] })

end ParserState

/-- A parser: it may fail, and its effect on the state stays in either case. -/
def Parser (α : Type) := ParserState → Option α × ParserState

namespace Parser

instance : Monad Parser where
  pure a := fun s => (some a, s)
  bind p f := fun s =>
    match p s with
    | (some a, s) => f a s
    | (none, s) => (none, s)

def fail {α : Type} : Parser α := fun s => (none, s)

def state : Parser ParserState := fun s => (some s, s)

def kind : Parser TokenKind := fun s => (some s.current.kind, s)

def position : Parser Position := fun s => (some s.current.position, s)

/-- Count one more production. -/
def enter : Parser Unit := fun s => (some (), { s with steps := s.steps + 1 })

/-- Move to the next token. -/
def advance : Parser Unit := fun s => (some (), s.advance)

/-- Record an error on the line of the current token. -/
def report (cause : ParseError.Cause) : Parser Unit := fun s =>
  (some (), { s with errors := s.errors ++ [⟨s.current.position.line, cause⟩] })

def failWith {α : Type} (cause : ParseError.Cause) : Parser α := do
  report cause
  fail

def reportExpected (what : String) : Parser Unit := fun s => report (.expected what s.current) s

/-- Pass a token of the given class, or record an error and fail. -/
def expect (wanted : TokenKind) : Parser Unit := do
  if (← kind) == wanted then advance
  else
    reportExpected wanted.name
    fail

/-- Pass a token of the given class if it is the current one. -/
def accept (wanted : TokenKind) : Parser Bool := do
  if (← kind) == wanted then
    advance
    return true
  else return false

/-- Turn failure into a missing value. -/
def optional {α : Type} (p : Parser α) : Parser (Option α) := fun s =>
  let (result, s) := p s
  (some result, s)

def spanFrom (start : Position) : Parser Span := return ⟨start, ← position⟩

/-- Pass tokens until just after the next semicolon; at most `fuel` of them. -/
def skipStatement : Nat → Parser Unit
  | 0 => return
  | fuel + 1 => do
    enter
    match ← kind with
    | .endOfInput => return
    | .semicolon => advance
    | _ =>
      advance
      skipStatement fuel

/-- Pass tokens until just after the next semicolon or up to the end of input. -/
def synchronize : Parser Unit := fun s => skipStatement (s.rest.length + 3) s

end Parser

end LyaLang
