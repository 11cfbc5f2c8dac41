import LyaLang.Cbor.Item

/-! # Reading data items

Any well-formed encoding is read: heads need not be the shortest, and strings, arrays and maps may
have an indefinite length. Items nest at most 32 deep, and an array or map has at most 131072 entries.
-/

namespace LyaLang.Cbor

def maxDepth : Nat := 32

/-- The greatest number of elements of an array and of pairs of a map. -/
def maxCount : Nat := 131072

/-- The argument of a head. -/
inductive Argument where
  | value (n : Nat)
  | indefinite

/-- The head of an item. -/
structure Head where
  major : Nat
  info : Nat
  argument : Argument

/-- The number that bytes spell, the most significant first. -/
def valueOf (bytes : Bytes) : Nat := bytes.foldl (fun n b => n * 256 + b.toNat) 0

/-- A head, and the bytes after it. A break is no head. -/
def readHead? : Bytes → Option (Head × Bytes)
  | [] => none
  | first :: rest =>
    let major := first.toNat / 32
    let info := first.toNat % 32
    let sized (count : Nat) : Option (Head × Bytes) :=
      let field := rest.take count
      if field.length < count then none
      else
        let n := valueOf field
        if major == 7 && info == 24 && n < 32 then none
        else some (⟨major, info, .value n⟩, rest.drop count)
    if info < 24 then some (⟨major, info, .value info⟩, rest)
    else if info == 24 then sized 1
    else if info == 25 then sized 2
    else if info == 26 then sized 4
    else if info == 27 then sized 8
    else if info == 31 && 2 ≤ major && major ≤ 5 then some (⟨major, info, .indefinite⟩, rest)
    else none

def isLength (n : Nat) : Bool := n < 0x8000000000000000

def readString? (n : Nat) (rest : Bytes) : Option (Bytes × Bytes) :=
  let content := rest.take n
  if isLength n && content.length == n then some (content, rest.drop n) else none

/-- The chunks of a string of indefinite length, at most `fuel` of them. -/
def readChunks? (major : Nat) : Nat → Bytes → Option (List Bytes × Bytes)
  | 0, _ => none
  | _ + 1, 0xFF :: rest => some ([], rest)
  | fuel + 1, data => do
    let (head, rest) ← readHead? data
    if head.major != major then none
    match head.argument with
    | .indefinite => none
    | .value n =>
      let (chunk, rest) ← readString? n rest
      let (chunks, rest) ← readChunks? major fuel rest
      return (chunk :: chunks, rest)

/-- Items in pairs; there is no last item without a partner. -/
def pairs? : List Cbor → Option (List (Cbor × Cbor))
  | [] => some []
  | [_] => none
  | key :: value :: rest => do return (key, value) :: (← pairs? rest)

mutual

def readItem? : Nat → Nat → Bytes → Option (Cbor × Bytes)
  | 0, _, _ => none
  | fuel + 1, depth, data => do
    let (head, rest) ← readHead? data
    match head.major, head.argument with
    | 0, .value n => return (uint n, rest)
    | 1, .value n => return (nint n, rest)
    | 2, .value n =>
      let (content, rest) ← readString? n rest
      return (bytes content, rest)
    | 3, .value n =>
      let (content, rest) ← readString? n rest
      return (text [content], rest)
    | 2, .indefinite =>
      let (chunks, rest) ← readChunks? 2 fuel rest
      return (bytes chunks.flatten, rest)
    | 3, .indefinite =>
      let (chunks, rest) ← readChunks? 3 fuel rest
      return (text chunks, rest)
    | 4, .value n =>
      if depth ≥ maxDepth || n > maxCount then none
      let (items, rest) ← readItems? fuel (depth + 1) n rest
      return (array items, rest)
    | 4, .indefinite =>
      if depth ≥ maxDepth then none
      let (items, rest) ← readUntilBreak? fuel (depth + 1) rest
      if items.length > maxCount then none
      return (array items, rest)
    | 5, .value n =>
      if depth ≥ maxDepth || n > maxCount then none
      let (items, rest) ← readItems? fuel (depth + 1) (2 * n) rest
      return (map (← pairs? items), rest)
    | 5, .indefinite =>
      if depth ≥ maxDepth then none
      let (items, rest) ← readUntilBreak? fuel (depth + 1) rest
      if items.length > 2 * maxCount then none
      return (map (← pairs? items), rest)
    | 6, .value n =>
      let nested := rest.head?.any fun b => b.toNat / 32 == 6
      if nested && depth ≥ maxDepth then none
      let (content, rest) ← readItem? fuel (if nested then depth + 1 else depth) rest
      return (tag n content, rest)
    | 7, .value n => return (if head.info ≤ 24 then simple n else float, rest)
    | _, _ => none

def readItems? : Nat → Nat → Nat → Bytes → Option (List Cbor × Bytes)
  | _, _, 0, data => some ([], data)
  | 0, _, _ + 1, _ => none
  | fuel + 1, depth, count + 1, data => do
    let (item, rest) ← readItem? fuel depth data
    let (items, rest) ← readItems? fuel depth count rest
    return (item :: items, rest)

def readUntilBreak? : Nat → Nat → Bytes → Option (List Cbor × Bytes)
  | 0, _, _ => none
  | _ + 1, _, 0xFF :: rest => some ([], rest)
  | fuel + 1, depth, data => do
    let (item, rest) ← readItem? fuel depth data
    let (items, rest) ← readUntilBreak? fuel depth rest
    return (item :: items, rest)

end

/-- The item that data encodes; there must be nothing after it. -/
def read? (data : Bytes) : Option Cbor :=
  match readItem? (2 * data.length + 2) 0 data with
  | some (item, []) => some item
  | _ => none

end LyaLang.Cbor
