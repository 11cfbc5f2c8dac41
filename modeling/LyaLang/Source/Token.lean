import LyaLang.Source.Position
import LyaLang.Text.Quoted

/-! # Tokens

The lexical classes of the language, their names and numbers, and the reserved words. Reserved words
are matched without regard to case.
-/

namespace LyaLang

/-- The class of a token. -/
inductive TokenKind where
  | endOfInput | lexicalError
  | integer | character | text | identifier
  | leftParen | rightParen | leftBracket | rightBracket | comma | semicolon | colon | arrow
  | assign | plusAssign | minusAssign | starAssign | slashAssign | percentAssign
  | plus | minus | star | slash | percent | equal | notEqual | less | lessEqual | greater | greaterEqual
  | andAlso | orElse | bang
  | dclWord | synWord | typeWord | procWord | returnsWord | endWord | locWord | refWord | charsWord
  | arrayWord | ifWord | thenWord | elsifWord | elseWord | fiWord | doWord | odWord | forWord | byWord
  | downWord | toWord | whileWord | returnWord | resultWord | trueWord | falseWord
deriving DecidableEq, Repr, Inhabited

namespace TokenKind

/-- Every class in the order of its number. -/
def all : List TokenKind :=
  [endOfInput, lexicalError, integer, character, text, identifier,
   leftParen, rightParen, leftBracket, rightBracket, comma, semicolon, colon, arrow,
   assign, plusAssign, minusAssign, starAssign, slashAssign, percentAssign,
   plus, minus, star, slash, percent, equal, notEqual, less, lessEqual, greater, greaterEqual,
   andAlso, orElse, bang,
   dclWord, synWord, typeWord, procWord, returnsWord, endWord, locWord, refWord, charsWord,
   arrayWord, ifWord, thenWord, elsifWord, elseWord, fiWord, doWord, odWord, forWord, byWord,
   downWord, toWord, whileWord, returnWord, resultWord, trueWord, falseWord]

/-- The name that messages and listings give a class. -/
def name : TokenKind → String
  | endOfInput => "EOF" | lexicalError => "ERROR"
  | integer => "INTEGER" | character => "CHARACTER" | text => "STRING" | identifier => "IDENTIFIER"
  | leftParen => "(" | rightParen => ")" | leftBracket => "[" | rightBracket => "]"
  | comma => "," | semicolon => ";" | colon => ":" | arrow => "->"
  | assign => "=" | plusAssign => "+=" | minusAssign => "-=" | starAssign => "*="
  | slashAssign => "/=" | percentAssign => "%="
  | plus => "+" | minus => "-" | star => "*" | slash => "/" | percent => "%"
  | equal => "==" | notEqual => "!=" | less => "<" | lessEqual => "<=" | greater => ">"
  | greaterEqual => ">=" | andAlso => "&&" | orElse => "||" | bang => "!"
  | dclWord => "dcl" | synWord => "syn" | typeWord => "type" | procWord => "proc"
  | returnsWord => "returns" | endWord => "end" | locWord => "loc" | refWord => "ref"
  | charsWord => "chars" | arrayWord => "array" | ifWord => "if" | thenWord => "then"
  | elsifWord => "elsif" | elseWord => "else" | fiWord => "fi" | doWord => "do" | odWord => "od"
  | forWord => "for" | byWord => "by" | downWord => "down" | toWord => "to" | whileWord => "while"
  | returnWord => "return" | resultWord => "result" | trueWord => "true" | falseWord => "false"

def numberName (number : Int) : Bytes :=
  match (if 0 ≤ number then all[number.toNat]? else none) with
  | some kind => kind.name
  | none => ("Token(" : Bytes) ++ Text.ofInt number ++ (")" : Bytes)

def isAssignment : TokenKind → Bool
  | assign | plusAssign | minusAssign | starAssign | slashAssign | percentAssign => true
  | _ => false

def reserved : List TokenKind :=
  [arrayWord, byWord, charsWord, dclWord, doWord, downWord, elseWord, elsifWord, endWord, falseWord,
   fiWord, forWord, ifWord, locWord, odWord, procWord, refWord, resultWord, returnWord, returnsWord,
   synWord, thenWord, toWord, trueWord, typeWord, whileWord]

/-- The class of a word: its reserved word if there is one, else an identifier. -/
def ofWord (word : Bytes) : TokenKind :=
  let lower := Text.toLower word
  (reserved.find? fun kind => (kind.name : Bytes) == lower).getD identifier

end TokenKind

def keywords : List Bytes := TokenKind.reserved.map fun kind => (kind.name : Bytes)

/-- A lexical token. The text of a lexical error is its message. -/
structure Token where
  kind : TokenKind
  text : Bytes
  position : Position
deriving DecidableEq, Repr, Inhabited

namespace Token

/-- A token as diagnostics display it; long texts are cut after twenty bytes. -/
def display (token : Token) : Bytes :=
  match token.kind with
  | .endOfInput => "EOF"
  | .lexicalError => ("ERROR(" : Bytes) ++ token.text ++ (")" : Bytes)
  | kind =>
    if token.text.length > 20 then
      (kind.name : Bytes) ++ ("(" : Bytes) ++ Text.quote (token.text.take 20) ++ ("...)" : Bytes)
    else (kind.name : Bytes) ++ ("(" : Bytes) ++ Text.quote token.text ++ (")" : Bytes)

def describe (token : Token) : Bytes :=
  match token.kind with
  | .endOfInput => "end of input"
  | .identifier | .integer => Text.quote token.text
  | kind => kind.name

end Token

end LyaLang
