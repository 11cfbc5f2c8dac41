import LyaLang.Machine.Program

/-! # Listings

A listing shows a program for reading: its size, its strings, and its instructions with their
positions, jump targets, string operands and source lines.
-/

namespace LyaLang.Listing

/-- Fill with blanks on the right up to a number of characters. -/
def padRight (width : Nat) (text : Bytes) : Bytes :=
  text ++ List.replicate (width - Text.length text) 0x20

/-- A position in at least four digits. -/
def position (n : Nat) : Bytes := Text.padLeft 0x30 4 (Text.ofNat n)

/-- A string of the pool, cut if it is longer than forty bytes. -/
def poolLine (index : Nat) (s : Bytes) : Bytes :=
  let shown := if s.length > 40 then s.take 37 ++ ("..." : Bytes) else s
  (";   [" : Bytes) ++ Text.padLeft 0x20 3 (Text.ofNat index) ++ ("] " : Bytes) ++ Text.quote shown ++ ("\n" : Bytes)

def remarks (c : Code) (labels : LabelTable) (index : Nat) (i : Instruction) : List Bytes :=
  let target :=
    if i.op.isJump then
      match labels.get? i.a with
      | some n => [("-> " : Bytes) ++ position n]
      | none => [("-> ?" : Bytes)]
    else []
  let string :=
    if i.op.usesPool && 0 ≤ i.a then
      match c.strings[i.a.toNatClampNeg]? with
      | some s => [Text.quote s]
      | none => []
    else []
  let line := c.lineOf (Int64.ofNat index)
  target ++ string ++ if line > 0 then [("line " : Bytes) ++ Text.ofInt64 line] else []

def codeLine (c : Code) (labels : LabelTable) (index : Nat) (i : Instruction) : Bytes :=
  let front := position index ++ ("  " : Bytes)
  match remarks c labels index i with
  | [] => front ++ i.text ++ ("\n" : Bytes)
  | notes => front ++ padRight 20 i.text ++ (" ; " : Bytes) ++ Bytes.join ", " notes ++ ("\n" : Bytes)

/-- The header of a listing, with a name unless it is empty. -/
def header (name : Bytes) (c : Code) : Bytes :=
  (if name.isEmpty then [] else ("; === " : Bytes) ++ name ++ (" ===\n" : Bytes)) ++
    ("; LYA Virtual Machine program v" : Bytes) ++ Text.ofNat Code.version ++
    ("\n; Instructions: " : Bytes) ++ Text.ofNat c.instructions.size ++ ("\n\n" : Bytes)

/-- The strings of a program. -/
def pool (c : Code) : Bytes :=
  if c.strings.isEmpty then []
  else
    ("; Strings:\n" : Bytes) ++ (c.strings.toList.zipIdx.flatMap fun (s, index) => poolLine index s) ++
      ("\n" : Bytes)

end LyaLang.Listing

namespace LyaLang

def Code.listing (c : Code) (name : Bytes) : Bytes :=
  let labels := c.labels.toOption.getD []
  Listing.header name c ++ Listing.pool c ++ ("; Code:\n" : Bytes) ++
    c.instructions.toList.zipIdx.flatMap fun (i, index) => Listing.codeLine c labels index i

end LyaLang
