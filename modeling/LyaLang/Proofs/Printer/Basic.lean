import LyaLang.Ast.Node
import LyaLang.Check.Expr
import LyaLang.Source.Lexer

/-! # Printing programs

A program is printed as tokens with a blank behind each. Every expression stands in parentheses, so no operator
can catch a neighbour's operand, and string and character literals are written with escapes. Trees that can be
printed are those that some source text could have: their names are names of the language, their literals can be
written, and lists that the grammar wants filled are.
-/

namespace LyaLang

open Ast

/-- A token without its place. -/
structure Sign where
  kind : TokenKind
  text : Bytes
deriving DecidableEq, Repr

/-- The token without its place. -/
def Token.sign (t : Token) : Sign := ⟨t.kind, t.text⟩

namespace Sign

/-- A reserved word or an operator. -/
def word (kind : TokenKind) : Sign := ⟨kind, (kind.name : Bytes)⟩

/-- A name. -/
def name {α : Type} (i : Ident α) : Sign := ⟨.identifier, i.name⟩

/-- The end of the input. -/
def finish : Sign := ⟨.endOfInput, []⟩

/-- How a character is written in a literal. -/
def escape (c : Char) : List Char :=
  if c = '\n' then ['\\', 'n'] else if c = '\\' then ['\\', '\\'] else if c = '"' then ['\\', '"']
  else if c = '\'' then ['\\', '\''] else if c = Lexer.nul then ['\\', '0'] else [c]

/-- The characters that a token is written with. -/
def spelling (g : Sign) : List Char :=
  match g.kind with
  | .character => '\'' :: ((Text.chars g.text).flatMap escape ++ ['\''])
  | .text => '"' :: ((Text.chars g.text).flatMap escape ++ ['"'])
  | _ => Text.chars g.text

/-- The characters of tokens with a blank behind each. -/
def line (gs : List Sign) : List Char := gs.flatMap fun g => g.spelling ++ [' ']

/-- Tokens in parentheses. -/
def parens (gs : List Sign) : List Sign := word .leftParen :: (gs ++ [word .rightParen])

/-- Tokens, in parentheses if they are asked for. -/
def parensIf (wanted : Bool) (gs : List Sign) : List Sign := if wanted then parens gs else gs

/-- Phrases with commas between them. -/
def commas : List (List Sign) → List Sign
  | [] => []
  | [gs] => gs
  | gs :: rest => gs ++ word .comma :: commas rest

end Sign

namespace Ast

open Sign (word parens parensIf commas)

variable {α : Type}

/-! ## Tokens of a tree -/

/-- The token of an operator with one operand. -/
def UnaryOp.token : UnaryOp → TokenKind
  | negate => .minus
  | complement => .bang

/-- The token of an operator with two operands. -/
def BinaryOp.token : BinaryOp → TokenKind
  | add => .plus | sub => .minus | mul => .star | div => .slash | mod => .percent
  | less => .less | lessEqual => .lessEqual | greater => .greater | greaterEqual => .greaterEqual
  | equal => .equal | notEqual => .notEqual | both => .andAlso | either => .orElse

mutual

/-- The tokens of an expression without the parentheses around it. -/
def Expr.signs : Expr α → List Sign
  | int _ value => [⟨.integer, Text.ofInt64 value⟩]
  | bool _ value => [word (if value then .trueWord else .falseWord)]
  | char _ value => [⟨.character, Text.encode [value]⟩]
  | text _ value => [⟨.text, value⟩]
  | ident id => [.name id]
  | unary _ op x => word op.token :: parens x.signs
  | binary _ op x y => parens x.signs ++ word op.token :: parens y.signs
  | cond _ arms otherwise =>
    Expr.armSigns .ifWord arms ++ word .elseWord :: (parens otherwise.signs ++ [word .fiWord])
  | call _ callee args => .name callee :: parens (commas (Expr.listSigns args))
  | index _ x indexes =>
    parens x.signs ++ word .leftBracket :: (commas (Expr.listSigns indexes) ++ [word .rightBracket])
  | deref _ x => parens x.signs ++ [word .arrow]
  | ref _ x => word .arrow :: parens x.signs

/-- The tokens of expressions, each in parentheses. -/
def Expr.listSigns : List (Expr α) → List (List Sign)
  | [] => []
  | x :: rest => parens x.signs :: Expr.listSigns rest

/-- The tokens of the arms of a conditional expression; the first of them starts with `lead`. -/
def Expr.armSigns (lead : TokenKind) : List (CondValue α) → List Sign
  | [] => []
  | .mk _ test value :: rest =>
    word lead :: (parens test.signs ++ word .thenWord :: (parens value.signs ++ Expr.armSigns .elsifWord rest))

end

/-- The tokens of two bounds. -/
def boundSigns (lo hi : Expr α) : List Sign := parens lo.signs ++ word .colon :: parens hi.signs

mutual

/-- The tokens of a mode. -/
def ModeExpr.signs : ModeExpr α → List Sign
  | name m => [.name m.id]
  | range _ none lo hi => boundSigns lo hi
  | range _ (some base) lo hi => .name base.id :: parens (boundSigns lo hi)
  | ref _ elem => word .refWord :: elem.signs
  | chars _ len => word .charsWord :: word .leftBracket :: (parens len.signs ++ [word .rightBracket])
  | array _ indexes elem =>
    word .arrayWord :: word .leftBracket :: (commas (ModeExpr.listSigns indexes) ++ word .rightBracket :: elem.signs)

/-- The tokens of modes. -/
def ModeExpr.listSigns : List (ModeExpr α) → List (List Sign)
  | [] => []
  | m :: rest => m.signs :: ModeExpr.listSigns rest

end

/-- The tokens of names. -/
def nameSigns (names : List (Ident α)) : List Sign := commas (names.map fun i => [.name i])

/-- A word that may be missing. -/
def wordIf (there : Bool) (kind : TokenKind) : List Sign := if there then [word kind] else []

/-- An optional expression behind a word. -/
def introduced (kind : TokenKind) : Option (Expr α) → List Sign
  | none => []
  | some x => word kind :: parens x.signs

/-- The tokens of a declaration. -/
def Declaration.signs (d : Declaration α) : List Sign :=
  nameSigns d.names ++ (d.mode.signs ++ (wordIf d.loc .locWord ++ introduced .assign d.init))

/-- The tokens of a synonym definition. -/
def SynonymDef.signs (d : SynonymDef α) : List Sign :=
  nameSigns d.names ++ ((d.mode.map ModeExpr.signs).getD [] ++ word .assign :: parens d.value.signs)

/-- The tokens of a mode definition. -/
def ModeDef.signs (d : ModeDef α) : List Sign := nameSigns d.names ++ word .assign :: d.mode.signs

/-- The tokens of a parameter group. -/
def FormalParam.signs (p : FormalParam α) : List Sign :=
  nameSigns p.names ++ (p.mode.signs ++ wordIf p.loc .locWord)

/-- The tokens of a result clause. -/
def ResultSpec.signs (r : ResultSpec α) : List Sign :=
  word .returnsWord :: parens (r.mode.signs ++ wordIf r.loc .locWord)

/-- The tokens of a counting clause. -/
def ForControl.signs (c : ForControl α) : List Sign :=
  word .forWord :: .name c.counter :: word .assign :: (parens c.start.signs ++ (introduced .byWord c.step ++
    (wordIf c.down .downWord ++ word .toWord :: parens c.stop.signs)))

/-- The token of an assignment; only arithmetic operators have compound forms. -/
def assignToken : Option BinaryOp → TokenKind
  | some .add => .plusAssign
  | some .sub => .minusAssign
  | some .mul => .starAssign
  | some .div => .slashAssign
  | some .mod => .percentAssign
  | _ => .assign

/-- The tokens of the control of a loop, with the semicolon that ends it if there is any. -/
def loopSigns (control : Option (ForControl α)) (whilst : Option (Expr α)) : List Sign :=
  (control.map ForControl.signs).getD [] ++ (introduced .whileWord whilst ++
    wordIf (control.isSome || whilst.isSome) .semicolon)

mutual

/-- The tokens of a statement without its semicolon. -/
def Stmt.signs : Stmt α → List Sign
  | declare _ decls => word .dclWord :: commas (decls.map Declaration.signs)
  | synonym _ defs => word .synWord :: commas (defs.map SynonymDef.signs)
  | modes _ defs => word .typeWord :: commas (defs.map ModeDef.signs)
  | proc _ id params spec body =>
    .name id :: word .colon :: word .procWord :: (parens (commas (params.map FormalParam.signs)) ++
      ((spec.map ResultSpec.signs).getD [] ++ word .semicolon :: (Stmt.listSigns body ++ [word .endWord])))
  | assign _ target op value => parens target.signs ++ word (assignToken op) :: parens value.signs
  | branch _ arms otherwise => Stmt.armSigns .ifWord arms ++ (Stmt.elseSigns otherwise ++ [word .fiWord])
  | loop _ control whilst body =>
    word .doWord :: (loopSigns control whilst ++ (Stmt.listSigns body ++ [word .odWord]))
  | call _ _ callee args => .name callee :: parens (commas (Expr.listSigns args))
  | ret _ none => [word .returnWord]
  | ret _ (some value) => word .returnWord :: parens value.signs
  | result _ value => word .resultWord :: parens value.signs

/-- The tokens of statements, each with its semicolon. -/
def Stmt.listSigns : List (Stmt α) → List Sign
  | [] => []
  | s :: rest => s.signs ++ word .semicolon :: Stmt.listSigns rest

/-- The tokens of an optional last body. -/
def Stmt.elseSigns : Option (List (Stmt α)) → List Sign
  | none => []
  | some body => word .elseWord :: Stmt.listSigns body

/-- The tokens of the arms of an `if` chain; the first of them starts with `lead`. -/
def Stmt.armSigns (lead : TokenKind) : List (CondBranch α) → List Sign
  | [] => []
  | .mk _ test body :: rest =>
    word lead :: (parens test.signs ++ word .thenWord :: (Stmt.listSigns body ++ Stmt.armSigns .elsifWord rest))

end

/-- The canonical source text of a program. -/
def Program.print (p : Program α) : Bytes := Text.encode (Sign.line (Stmt.listSigns p.stmts))

/-! ## Parentheses where they are needed -/

/-- How tightly an operator binds. -/
def BinaryOp.tier : BinaryOp → Nat
  | either => 0
  | both => 1
  | equal | notEqual => 2
  | less | lessEqual | greater | greaterEqual => 3
  | add | sub => 4
  | mul | div | mod => 5

/-- How tightly the outermost form of an expression binds: operators least, then prefix forms, then the rest. -/
def Expr.tier : Expr α → Nat
  | binary _ op _ _ => op.tier
  | unary .. | ref .. => 6
  | _ => 7

mutual

/-- The tokens of an expression. A part that stands where tier `n` or a tighter one is called for gets parentheses if
`wrap n` says so. The left operand of an operator may have its tier, the right one may not. -/
def Expr.layout (wrap : Nat → Expr α → Bool) : Expr α → List Sign
  | int _ value => [⟨.integer, Text.ofInt64 value⟩]
  | bool _ value => [word (if value then .trueWord else .falseWord)]
  | char _ value => [⟨.character, Text.encode [value]⟩]
  | text _ value => [⟨.text, value⟩]
  | ident id => [.name id]
  | unary _ op x => word op.token :: parensIf (wrap 6 x) (x.layout wrap)
  | binary _ op x y =>
    parensIf (wrap op.tier x) (x.layout wrap) ++ word op.token :: parensIf (wrap (op.tier + 1) y) (y.layout wrap)
  | cond _ arms otherwise => Expr.armLayout wrap .ifWord arms ++
      word .elseWord :: (parensIf (wrap 0 otherwise) (otherwise.layout wrap) ++ [word .fiWord])
  | call _ callee args => .name callee :: parens (commas (Expr.listLayout wrap args))
  | index _ x indexes => parensIf (wrap 7 x) (x.layout wrap) ++
      word .leftBracket :: (commas (Expr.listLayout wrap indexes) ++ [word .rightBracket])
  | deref _ x => parensIf (wrap 7 x) (x.layout wrap) ++ [word .arrow]
  | ref _ x => word .arrow :: parensIf (wrap 6 x) (x.layout wrap)

def Expr.listLayout (wrap : Nat → Expr α → Bool) : List (Expr α) → List (List Sign)
  | [] => []
  | x :: rest => parensIf (wrap 0 x) (x.layout wrap) :: Expr.listLayout wrap rest

/-- The tokens of the arms of a conditional expression; the first of them starts with `lead`. -/
def Expr.armLayout (wrap : Nat → Expr α → Bool) (lead : TokenKind) : List (CondValue α) → List Sign
  | [] => []
  | .mk _ test value :: rest =>
    word lead :: (parensIf (wrap 0 test) (test.layout wrap) ++ word .thenWord ::
      (parensIf (wrap 0 value) (value.layout wrap) ++ Expr.armLayout wrap .elsifWord rest))

end

mutual

theorem Expr.layout_all : ∀ e : Expr α, e.layout (fun _ _ => true) = e.signs
  | int .. | bool .. | char .. | text .. | ident _ => rfl
  | unary _ _ x | ref _ x | deref _ x => by simp [layout, signs, parensIf, x.layout_all]
  | binary _ _ x y => by simp [layout, signs, parensIf, x.layout_all, y.layout_all]
  | cond _ arms x => by simp [layout, signs, parensIf, x.layout_all, Expr.armLayout_all _ arms]
  | call _ _ args => by simp [layout, signs, Expr.listLayout_all args]
  | index _ x list => by simp [layout, signs, parensIf, x.layout_all, Expr.listLayout_all list]

theorem Expr.listLayout_all : ∀ es : List (Expr α), Expr.listLayout (fun _ _ => true) es = Expr.listSigns es
  | [] => rfl
  | x :: rest => by simp [listLayout, listSigns, parensIf, x.layout_all, Expr.listLayout_all rest]

theorem Expr.armLayout_all (lead : TokenKind) :
    ∀ arms : List (CondValue α), Expr.armLayout (fun _ _ => true) lead arms = Expr.armSigns lead arms
  | [] => rfl
  | .mk _ x y :: rest => by
    simp [armLayout, armSigns, parensIf, x.layout_all, y.layout_all, Expr.armLayout_all .elsifWord rest]

end

/-- The source text of an expression with parentheses around the parts that bind too loosely for their place only. -/
def Expr.print (e : Expr α) : Bytes := Text.encode (Sign.line (e.layout fun n x => x.tier < n))

/-! ## Trees that can be printed -/

/-- A name of the language: a letter or an underscore, then letters, underscores and digits, and no reserved word
in any case. -/
def Ident.IsName (i : Ident α) : Prop :=
  ∃ c cs, i.name = Text.encode (c :: cs) ∧ Lexer.isNameStart c = true ∧ (∀ d ∈ cs, Lexer.isNamePart d = true) ∧
    TokenKind.ofWord i.name = .identifier

/-- Modes that can stand as an array index. -/
def ModeExpr.isIndex : ModeExpr α → Bool
  | name _ | range .. => true
  | _ => false

/-- Modes that can stand elsewhere: all but a range without a base. -/
def ModeExpr.standsAlone : ModeExpr α → Bool
  | range _ none _ _ => false
  | _ => true

/-- What printing asks of a node itself. -/
def Node.Writable : Node α → Prop
  | .ident i => i.IsName
  | .expr (.int _ value) => 0 ≤ value
  | .expr (.text _ value) => ∃ cs, value = Text.encode cs
  | .expr (.cond _ arms _) => arms ≠ []
  | .expr (.index _ _ indexes) => indexes ≠ []
  | .modeExpr (.ref _ elem) => elem.standsAlone = true
  | .modeExpr (.array _ indexes elem) =>
    indexes ≠ [] ∧ (∀ m ∈ indexes, m.isIndex = true) ∧ elem.standsAlone = true
  | .declaration d => d.names ≠ [] ∧ d.mode.standsAlone = true
  | .synonymDef d => d.names ≠ [] ∧ ∀ m ∈ d.mode, m.standsAlone = true
  | .modeDef d => d.names ≠ [] ∧ d.mode.standsAlone = true
  | .formalParam p => p.names ≠ [] ∧ p.mode.standsAlone = true
  | .resultSpec r => r.mode.standsAlone = true
  | .stmt (.declare _ decls) => decls ≠ []
  | .stmt (.synonym _ defs) => defs ≠ []
  | .stmt (.modes _ defs) => defs ≠ []
  | .stmt (.assign _ _ op _) => ∀ o ∈ op, o.isArithmetic = true
  | .stmt (.branch _ arms _) => arms ≠ []
  | _ => True

/-- Every node of a list can be printed. -/
def Writable (nodes : List (Node α)) : Prop := ∀ node ∈ nodes, node.Writable

theorem writable_cons {node : Node α} {rest : List (Node α)} :
    Writable (node :: rest) ↔ node.Writable ∧ Writable rest :=
  List.forall_mem_cons

namespace Writable

variable {node : Node α} {front rest : List (Node α)}

theorem head (ok : Writable (node :: rest)) : node.Writable := (List.forall_mem_cons.mp ok).1

theorem tail (ok : Writable (node :: rest)) : Writable rest := (List.forall_mem_cons.mp ok).2

theorem left (ok : Writable (front ++ rest)) : Writable front := (List.forall_mem_append.mp ok).1

theorem right (ok : Writable (front ++ rest)) : Writable rest := (List.forall_mem_append.mp ok).2

end Writable

end Ast

end LyaLang
