import LyaLang.Toml.Quoted

/-! # The grammar of TOML

A document is a sequence of statements, each on a line of its own: a heading of a table, a heading of
an element of a list of tables, or a value under a key. Lists and inline tables may go over several
lines and may end in a comma.
-/

namespace LyaLang.Toml

/-- One statement of a document. -/
inductive Statement where
  | heading (key : Key)
  | element (key : Key)
  | assign (key : Key) (value : Literal)

/-- The text without a byte order mark. -/
def dropMark : Bytes → Bytes
  | 0xFF :: 0xFE :: rest => rest
  | 0xFE :: 0xFF :: rest => rest
  | 0xEF :: 0xBB :: 0xBF :: rest => rest
  | rest => rest

/-- Whether there are no control characters but tabs and line breaks, and a carriage return stands only
before a line feed. -/
def isClean : List Char → Bool
  | [] => true
  | '\r' :: '\n' :: rest => isClean rest
  | '\n' :: rest | '\t' :: rest => isClean rest
  | c :: rest => !(c.toNat < 0x20 || c.toNat == 0x7F) && isClean rest

/-- The characters of a document, if it may be one. -/
def characters? (source : Bytes) : Option (List Char) :=
  let source := dropMark source
  let chars := Text.chars source
  if Text.isUtf8 source && isClean chars then some chars else none

def isBlank (c : Char) : Bool := c == ' ' || c == '\t'

def skipBlanks (cs : List Char) : List Char := cs.dropWhile isBlank

def skipGaps (inComment : Bool) : List Char → List Char
  | [] => []
  | c :: rest =>
    if isBreak c then skipGaps false rest
    else if inComment then skipGaps true rest
    else if isBlank c then skipGaps false rest
    else if c == '#' then skipGaps true rest
    else c :: rest

def keyPart? (cs : List Char) : Option (Bytes × List Char) :=
  match cs with
  | '"' :: rest => (basic? rest).map fun (text, rest) => (ofChars text, rest)
  | '\'' :: rest => (raw? rest).map fun (text, rest) => (ofChars text, rest)
  | cs =>
    let (word, rest) := span isBare cs
    if word.isEmpty then none else some (ofChars word, rest)

/-- Read a dotted key of at most `fuel` parts, with the blanks around it. -/
def key? : Nat → List Char → Option (Key × List Char)
  | 0, _ => none
  | fuel + 1, cs => do
    let (part, rest) ← keyPart? (skipBlanks cs)
    match skipBlanks rest with
    | '.' :: rest =>
      let (parts, rest) ← key? fuel rest
      return (part :: parts, rest)
    | rest => return ([part], rest)

mutual

def value? : Nat → List Char → Option (Literal × List Char)
  | 0, _ => none
  | fuel + 1, cs =>
    match skipBlanks cs with
    | '[' :: rest => do
      let (items, rest) ← items? fuel rest
      return (.array items, rest)
    | '\x7b' :: rest => do
      let (pairs, rest) ← pairs? fuel rest
      return (.table pairs, rest)
    | cs@('"' :: _) | cs@('\'' :: _) => do
      let (text, rest) ← quoted? cs
      return (.text (ofChars text), rest)
    | cs => word? cs

/-- Read the rest of a list up to its closing bracket. -/
def items? : Nat → List Char → Option (List Literal × List Char)
  | 0, _ => none
  | fuel + 1, cs =>
    match skipGaps false cs with
    | ']' :: rest => some ([], rest)
    | cs => do
      let (item, rest) ← value? fuel cs
      match skipGaps false rest with
      | ',' :: rest =>
        let (items, rest) ← items? fuel rest
        return (item :: items, rest)
      | ']' :: rest => return ([item], rest)
      | _ => none

/-- Read the rest of an inline table up to its closing brace. -/
def pairs? : Nat → List Char → Option (List (Key × Literal) × List Char)
  | 0, _ => none
  | fuel + 1, cs =>
    match skipGaps false cs with
    | '\x7d' :: rest => some ([], rest)
    | cs => do
      let (key, rest) ← key? cs.length cs
      match rest with
      | '=' :: rest =>
        let (value, rest) ← value? fuel rest
        match skipGaps false rest with
        | ',' :: rest =>
          let (pairs, rest) ← pairs? fuel rest
          return ((key, value) :: pairs, rest)
        | '\x7d' :: rest => return ([(key, value)], rest)
        | _ => none
      | _ => none

end

def statement? (cs : List Char) : Option (Statement × List Char) := do
  match cs with
  | '[' :: '[' :: rest =>
    match ← key? rest.length rest with
    | (key, ']' :: ']' :: rest) => return (.element key, rest)
    | _ => none
  | '[' :: rest =>
    match ← key? rest.length rest with
    | (key, ']' :: rest) => return (.heading key, rest)
    | _ => none
  | cs =>
    match ← key? cs.length cs with
    | (key, '=' :: rest) =>
      let (value, rest) ← value? (2 * rest.length + 2) rest
      return (.assign key value, rest)
    | _ => none

/-- Whether nothing but blanks and a comment stands before the end of the line. -/
def endsLine (cs : List Char) : Bool :=
  match skipBlanks cs with
  | [] => true
  | c :: _ => isBreak c || c == '#'

/-- Read at most `fuel` statements to the end of the document. -/
def statementsWithin? : Nat → List Char → Option (List Statement)
  | 0, _ => none
  | fuel + 1, cs =>
    match skipGaps false cs with
    | [] => some []
    | cs => do
      let (statement, rest) ← statement? cs
      if !endsLine rest then none
      return statement :: (← statementsWithin? fuel rest)

def statements? (source : Bytes) : Option (List Statement) := do
  let cs ← characters? source
  statementsWithin? (cs.length + 1) cs

end LyaLang.Toml
