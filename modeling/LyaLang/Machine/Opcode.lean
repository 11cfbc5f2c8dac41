import LyaLang.Text.Decimal

/-! # Operation codes

The operations of the machine with their codes, mnemonics and number of operands. A byte without an
operation keeps its value.
-/

namespace LyaLang

/-- An operation of the machine. -/
inductive Opcode where
  | nop | ldc | ldv | ldr | stv | lrv | srv | alc | dlc | dup
  | add | sub | mul | div | mod | neg | abs
  | and | lor | not | les | leq | grt | gre | equ | neq
  | asc | num | upc | lwc
  | idx | grc | lmv | smv | smr | chk
  | sts | lsc | scp | scat | seq | sne
  | rdv | rds | prv | prt | prc | prs
  | lbl | jmp | jof | cfu | enf | ret | stp
  | unknown (code : UInt8)
deriving DecidableEq, Repr, Inhabited

namespace Opcode

/-- Every operation with its code, mnemonic and number of operands. -/
def table : List (Opcode × UInt8 × String × Nat) :=
  [(nop, 0x00, "nop", 0), (ldc, 0x01, "ldc", 1), (ldv, 0x02, "ldv", 2), (ldr, 0x03, "ldr", 2),
   (stv, 0x04, "stv", 2), (lrv, 0x05, "lrv", 2), (srv, 0x06, "srv", 2), (alc, 0x07, "alc", 1),
   (dlc, 0x08, "dlc", 1), (dup, 0x09, "dup", 0),
   (add, 0x10, "add", 0), (sub, 0x11, "sub", 0), (mul, 0x12, "mul", 0), (div, 0x13, "div", 0),
   (mod, 0x14, "mod", 0), (neg, 0x15, "neg", 0), (abs, 0x16, "abs", 0),
   (and, 0x20, "and", 0), (lor, 0x21, "lor", 0), (not, 0x22, "not", 0), (les, 0x23, "les", 0),
   (leq, 0x24, "leq", 0), (grt, 0x25, "grt", 0), (gre, 0x26, "gre", 0), (equ, 0x27, "equ", 0),
   (neq, 0x28, "neq", 0),
   (asc, 0x30, "asc", 0), (num, 0x31, "num", 0), (upc, 0x32, "upc", 0), (lwc, 0x33, "lwc", 0),
   (idx, 0x40, "idx", 1), (grc, 0x41, "grc", 0), (lmv, 0x42, "lmv", 1), (smv, 0x43, "smv", 1),
   (smr, 0x44, "smr", 1), (chk, 0x45, "chk", 2),
   (sts, 0x50, "sts", 2), (lsc, 0x51, "lsc", 1), (scp, 0x52, "scp", 1), (scat, 0x53, "scat", 0),
   (seq, 0x54, "seq", 0), (sne, 0x55, "sne", 0),
   (rdv, 0x60, "rdv", 0), (rds, 0x61, "rds", 1), (prv, 0x62, "prv", 0), (prt, 0x63, "prt", 1),
   (prc, 0x64, "prc", 1), (prs, 0x65, "prs", 0),
   (lbl, 0x70, "lbl", 1), (jmp, 0x71, "jmp", 1), (jof, 0x72, "jof", 1), (cfu, 0x73, "cfu", 1),
   (enf, 0x74, "enf", 1), (ret, 0x75, "ret", 2), (stp, 0x76, "stp", 0)]

def row? (op : Opcode) : Option (UInt8 × String × Nat) :=
  (table.find? fun entry => entry.1 == op).map (·.2)

def ofCode (code : UInt8) : Opcode :=
  ((table.find? fun entry => entry.2.1 == code).map (·.1)).getD (unknown code)

def code : Opcode → UInt8
  | unknown code => code
  | op => (op.row?.map (·.1)).getD 0

/-- The operation with a given mnemonic. -/
def ofName? (name : Bytes) : Option Opcode :=
  (table.find? fun entry => (entry.2.2.1 : Bytes) == name).map (·.1)

def upperHex (byte : UInt8) : Bytes :=
  (Text.hex 2 byte.toNat).map fun b => if 0x61 ≤ b then b - 0x20 else b

/-- The mnemonic of an operation. -/
def name : Opcode → Bytes
  | unknown code => ("UNKNOWN(0x" : Bytes) ++ upperHex code ++ (")" : Bytes)
  | op => ((op.row?.map (·.2.1)).getD "" : String)

def operands (op : Opcode) : Nat := (op.row?.map (·.2.2)).getD 0

/-- Whether the operation continues at a label. -/
def isJump : Opcode → Bool
  | jmp | jof | cfu => true
  | _ => false

def isPrint : Opcode → Bool
  | prv | prt | prc | prs => true
  | _ => false

/-- Whether the first operand of the operation is an entry of the string pool. -/
def usesPool : Opcode → Bool
  | sts | lsc | prc => true
  | _ => false

end Opcode

end LyaLang
