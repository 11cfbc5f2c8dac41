import LyaLang.Digest.Sha256
import LyaLang.Parser.Grammar
import LyaLang.Text.Utf8

/-! # Fingerprints of programs

A program is written as bytes without its layout: positions and comments are dropped and names are in
lower case. Every construct starts with a tag of its own, lists with their length, and a missing part
is marked, so the bytes determine the tree up to the case of names. The fingerprint is the digest of
these bytes.
-/

namespace LyaLang

open Ast

namespace Fingerprint

variable {α : Type}

/-- The version of the format, the first byte of every writing. -/
def version : UInt8 := 1

/-- The mark of a missing part. -/
def absent : Bytes := [0x3F]

def count (n : Nat) : Bytes := Bytes.bigEndian 4 n

def text (t : Bytes) : Bytes := count t.length ++ t

/-- A truth value. -/
def flag (b : Bool) : Bytes := [if b then 1 else 0]

def name (i : Ident α) : Bytes := text (Text.toLower i.name)

def names (ids : List (Ident α)) : Bytes := count ids.length ++ ids.flatMap name

def optional {β : Type} (write : β → Bytes) : Option β → Bytes
  | none => absent
  | some x => write x

mutual

/-- An expression. -/
def expr : Expr α → Bytes
  | .int _ value => 0x01 :: Bytes.bigEndian 8 value.toUInt64.toNat
  | .bool _ value => 0x02 :: flag value
  | .char _ value => 0x03 :: count value.toNat
  | .text _ value => 0x04 :: text value
  | .ident id => 0x08 :: name id
  | .unary _ op x => 0x09 :: (text op.symbol ++ expr x)
  | .binary _ op x y => 0x0A :: (text op.symbol ++ expr x ++ expr y)
  | .cond _ branches otherwise => 0x0B :: (count branches.length ++ arms branches ++ expr otherwise)
  | .call _ callee args => 0x0C :: (name callee ++ count args.length ++ exprs args)
  | .index _ x indexes => 0x0D :: (expr x ++ count indexes.length ++ exprs indexes)
  | .deref _ x => 0x0E :: expr x
  | .ref _ x => 0x0F :: expr x

/-- Expressions one after the other. -/
def exprs : List (Expr α) → Bytes
  | [] => []
  | e :: rest => expr e ++ exprs rest

def arms : List (CondValue α) → Bytes
  | [] => []
  | .mk _ test value :: rest => expr test ++ expr value ++ arms rest

end

def modeName (m : ModeName α) : Bytes := 0x10 :: name m.id

mutual

def mode : ModeExpr α → Bytes
  | .name m => modeName m
  | .range _ base lo hi => 0x11 :: (optional modeName base ++ expr lo ++ expr hi)
  | .ref _ elem => 0x12 :: mode elem
  | .chars _ len => 0x13 :: expr len
  | .array _ indexes elem => 0x14 :: (count indexes.length ++ modes indexes ++ mode elem)

def modes : List (ModeExpr α) → Bytes
  | [] => []
  | m :: rest => mode m ++ modes rest

end

def declaration (d : Declaration α) : Bytes :=
  names d.names ++ mode d.mode ++ flag d.loc ++ optional expr d.init

def synonym (d : SynonymDef α) : Bytes := names d.names ++ optional mode d.mode ++ expr d.value

def modeDef (d : ModeDef α) : Bytes := names d.names ++ mode d.mode

def param (p : FormalParam α) : Bytes := 0x1C :: (names p.names ++ mode p.mode ++ flag p.loc)

def result (r : ResultSpec α) : Bytes := 0x1D :: (mode r.mode ++ flag r.loc)

/-- A counting clause. -/
def control (f : ForControl α) : Bytes :=
  0x23 :: (name f.counter ++ expr f.start ++ optional expr f.step ++ flag f.down ++ expr f.stop)

/-- The operator of a compound assignment; a plain one has the empty text. -/
def assignOp (op : Option BinaryOp) : Bytes := text ((op.map BinaryOp.symbol).getD "" : String)

mutual

/-- A statement. -/
def stmt : Stmt α → Bytes
  | .declare _ decls => 0x18 :: (count decls.length ++ decls.flatMap declaration)
  | .synonym _ defs => 0x19 :: (count defs.length ++ defs.flatMap synonym)
  | .modes _ defs => 0x1A :: (count defs.length ++ defs.flatMap modeDef)
  | .proc _ id params spec body =>
    0x1B :: (name id ++ count params.length ++ params.flatMap param ++ optional result spec ++
      count body.length ++ stmts body)
  | .assign _ target op value => 0x20 :: (assignOp op ++ expr target ++ expr value)
  | .branch _ branches otherwise =>
    0x21 :: (count branches.length ++ branchArms branches ++
      match otherwise with
      | none => flag false ++ count 0
      | some body => flag true ++ count body.length ++ stmts body)
  | .loop _ clause whilst body =>
    0x22 :: (optional control clause ++ optional expr whilst ++ count body.length ++ stmts body)
  | .call _ note callee args => 0x24 :: expr (.call note callee args)
  | .ret _ value => 0x25 :: optional expr value
  | .result _ value => 0x26 :: expr value

/-- Statements one after the other. -/
def stmts : List (Stmt α) → Bytes
  | [] => []
  | s :: rest => stmt s ++ stmts rest

/-- The arms of an `if` chain. -/
def branchArms : List (CondBranch α) → Bytes
  | [] => []
  | .mk _ test body :: rest => expr test ++ count body.length ++ stmts body ++ branchArms rest

end

def program (p : Program α) : Bytes := [version, 0x1E] ++ count p.stmts.length ++ stmts p.stmts

end Fingerprint

def Ast.Program.fingerprint {α : Type} (p : Program α) : Bytes := sha256 (Fingerprint.program p)

/-- The fingerprint of a source text: that of its program, or the digest of the text itself if it does
not parse. The second part says whether it parses. -/
def sourceFingerprint (source : Bytes) : Bytes × Bool :=
  match parse source with
  | (tree, []) => (tree.fingerprint, true)
  | (_, _ :: _) => (sha256 source, false)

end LyaLang
