import LyaLang.Machine.Program

/-! # Assembler text

Assembler text has one instruction a line. Blank lines and comments after a semicolon outside quotes
are passed over, and `.string` adds to the string pool without looking for an equal one.
-/

namespace LyaLang

/-- Why a line of assembler text is refused. -/
inductive AssemblyFault where
  | badString (text : Bytes)
  | unknownInstruction (mnemonic : Bytes)
  | operandCount (op : Opcode) (got : Nat)
  | badOperand (text : Bytes)
  | missingConstant
  | badCharacter (text : Bytes)
  | badText (text : Bytes)
  | badConstant (text : Bytes)
deriving DecidableEq, Repr

def AssemblyFault.message : AssemblyFault → Bytes
  | badString text => ("bad string " : Bytes) ++ text ++ (": invalid syntax" : Bytes)
  | unknownInstruction mnemonic => ("unknown instruction " : Bytes) ++ Text.quote mnemonic
  | operandCount op got =>
    op.name ++ (" takes " : Bytes) ++ Text.ofNat op.operands ++ (" operand(s), got " : Bytes) ++ Text.ofNat got
  | badOperand text => ("bad operand " : Bytes) ++ Text.quote text
  | missingConstant => "ldc needs an operand"
  | badCharacter text => ("bad character literal " : Bytes) ++ text
  | badText text => ("bad text literal " : Bytes) ++ text
  | badConstant text => ("bad constant " : Bytes) ++ Text.quote text

/-- A fault at a line. -/
structure AssemblyError where
  line : Nat
  fault : AssemblyFault
deriving DecidableEq, Repr

def AssemblyError.message (e : AssemblyError) : Bytes :=
  ("line " : Bytes) ++ Text.ofNat e.line ++ (": " : Bytes) ++ e.fault.message

namespace Assembly

def beforeComment : Option UInt8 → Bytes → Bytes
  | _, [] => []
  | some quote, byte :: rest =>
    if byte == 0x5C then
      match rest with
      | [] => [byte]
      | escaped :: rest => byte :: escaped :: beforeComment (some quote) rest
    else byte :: beforeComment (if byte == quote then none else some quote) rest
  | none, byte :: rest =>
    if byte == 0x22 || byte == 0x27 then byte :: beforeComment (some byte) rest
    else if byte == 0x3B then []
    else byte :: beforeComment none rest

def stripped (line : Bytes) : Bytes := Text.trim (beforeComment none line)

/-- The constant that an operand of `ldc` stands for. -/
def constant (text : Bytes) : Except AssemblyFault Word :=
  if text.isEmpty then .error .missingConstant
  else if Text.equalFold text "true" then .ok (.bool true)
  else if Text.equalFold text "false" then .ok (.bool false)
  else match text with
    | 0x27 :: rest =>
      match Text.readUnit? 0x27 rest with
      | some (unit, [0x27]) => .ok (.char (Int32.ofNat unit.code))
      | _ => .error (.badCharacter text)
    | 0x22 :: _ =>
      match Text.unquote? text with
      | some s => .ok (.ofText s)
      | none => .error (.badText text)
    | _ =>
      match Text.parseInt64? text with
      | some n => .ok (.int n)
      | none => .error (.badConstant text)

def dividesOperands (byte : UInt8) : Bool := byte == 0x20 || byte == 0x2C || byte == 0x09

/-- The non-empty parts between dividing bytes. -/
def fields (text : Bytes) : List Bytes :=
  (text.splitBy fun a b => dividesOperands a == dividesOperands b).filter fun part =>
    part.any fun byte => !dividesOperands byte

def operands (texts : List Bytes) : Except AssemblyFault (List Int64) :=
  texts.mapM fun text =>
    match Text.parseInt64? text with
    | some n => .ok n
    | none => .error (.badOperand text)

def instruction (op : Opcode) (rest : Bytes) : Except AssemblyFault Instruction := do
  if op == .ldc then return { op, k := ← constant rest }
  let texts := fields rest
  if texts.length != op.operands then throw (.operandCount op texts.length)
  match ← operands texts with
  | [] => return { op }
  | [a] => return { op, a }
  | a :: b :: _ => return { op, a, b }

def addLine (c : Code) (raw : Bytes) : Except AssemblyFault Code := do
  let line := stripped raw
  if line.isEmpty then return c
  let (mnemonic, rest) := (Bytes.cut? " " line).getD (line, [])
  let mnemonic := Text.toLower mnemonic
  let rest := Text.trim rest
  if mnemonic == (".string" : Bytes) then
    match Text.unquote? rest with
    | some s => return { c with strings := c.strings.push s }
    | none => throw (.badString rest)
  match Opcode.ofName? mnemonic with
  | none => throw (.unknownInstruction mnemonic)
  | some op => return c.emit (← instruction op rest)

def addLines : Code → Nat → List Bytes → Except AssemblyError Code
  | c, _, [] => .ok c
  | c, number, line :: rest =>
    match addLine c line with
    | .ok c => addLines c (number + 1) rest
    | .error fault => .error ⟨number, fault⟩

end Assembly

def assemble (source : Bytes) : Except AssemblyError Code :=
  Assembly.addLines {} 1 (Bytes.split 0x0A source)

end LyaLang
