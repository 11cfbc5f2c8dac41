import LyaLang.Text.Bytes

/-! # Concise binary data items

The data items of the concise binary object representation, and the shortest encoding of the kinds
of items that are written here.
-/

namespace LyaLang

/-- A data item. A text is kept in the chunks it came in. -/
inductive Cbor where
  | uint (n : Nat)
  /-- The integer `-1 - n`. -/
  | nint (n : Nat)
  | bytes (b : Bytes)
  | text (chunks : List Bytes)
  | array (items : List Cbor)
  | map (pairs : List (Cbor × Cbor))
  | tag (number : Nat) (content : Cbor)
  | simple (n : Nat)
  | float

namespace Cbor

def head (major : Nat) (n : Nat) : Bytes :=
  let first (info : Nat) : UInt8 := (major * 32 + info).toUInt8
  if n < 24 then [first n]
  else if n < 0x100 then first 24 :: Bytes.bigEndian 1 n
  else if n < 0x10000 then first 25 :: Bytes.bigEndian 2 n
  else if n < 0x100000000 then first 26 :: Bytes.bigEndian 4 n
  else first 27 :: Bytes.bigEndian 8 n

def encodeNat (n : Nat) : Bytes := head 0 n

def encodeInt (i : Int) : Bytes := if 0 ≤ i then head 0 i.toNat else head 1 (-1 - i).toNat

def encodeBytes (b : Bytes) : Bytes := head 2 b.length ++ b

def encodeText (t : Bytes) : Bytes := head 3 t.length ++ t

def encodeArray (items : List Bytes) : Bytes := head 4 items.length ++ items.flatten

def encodeMap (pairs : List (Bytes × Bytes)) : Bytes :=
  head 5 pairs.length ++ pairs.flatMap fun (key, value) => key ++ value

/-- The encoding of `null`. -/
def encodeNull : Bytes := [0xF6]

end Cbor

end LyaLang
