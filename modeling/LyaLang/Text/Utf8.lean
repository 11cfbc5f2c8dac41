import LyaLang.Text.Bytes
import LyaLang.Text.CaseMap

/-! # Characters of byte text

Byte text is cut into glyphs: a well-formed UTF-8 sequence gives its character, and any other byte
stands alone and reads as the replacement character. Joining the bytes of the glyphs gives back the
text, whether or not it is UTF-8.
-/

namespace LyaLang.Text

/-- The character that a byte outside every well-formed sequence reads as. -/
def replacement : Char := Char.ofNat 0xFFFD

/-- A character of byte text with the bytes it came from. -/
structure Glyph where
  char : Char
  raw : Bytes
deriving DecidableEq, Repr

def Glyph.width (g : Glyph) : Nat := g.raw.length

/-- A byte that is not part of a well-formed sequence. -/
def Glyph.isMalformed (g : Glyph) : Bool :=
  g.char == replacement && g.raw.length == 1

/-- The bytes that continue a sequence. -/
def isTail (byte : UInt8) : Bool := 0x80 ≤ byte && byte ≤ 0xBF

def tailBits (byte : UInt8) : Nat := byte.toNat % 0x40

/-- The least and greatest second byte of a three-byte sequence that starts with `lead`. -/
def secondOfThree (lead : UInt8) : UInt8 × UInt8 :=
  if lead == 0xE0 then (0xA0, 0xBF) else if lead == 0xED then (0x80, 0x9F) else (0x80, 0xBF)

/-- The least and greatest second byte of a four-byte sequence that starts with `lead`. -/
def secondOfFour (lead : UInt8) : UInt8 × UInt8 :=
  if lead == 0xF0 then (0x90, 0xBF) else if lead == 0xF4 then (0x80, 0x8F) else (0x80, 0xBF)

def byteWithin (bounds : UInt8 × UInt8) (byte : UInt8) : Bool :=
  bounds.1 ≤ byte && byte ≤ bounds.2

def firstGlyph (lead : UInt8) (rest : Bytes) : Glyph :=
  let malformed : Glyph := ⟨replacement, [lead]⟩
  if lead < 0x80 then ⟨Char.ofNat lead.toNat, [lead]⟩
  else if lead < 0xC2 then malformed
  else if lead < 0xE0 then
    match rest with
    | b :: _ =>
      if isTail b then ⟨Char.ofNat ((lead.toNat - 0xC0) * 0x40 + tailBits b), [lead, b]⟩ else malformed
    | _ => malformed
  else if lead < 0xF0 then
    match rest with
    | b :: c :: _ =>
      if byteWithin (secondOfThree lead) b && isTail c then
        ⟨Char.ofNat ((lead.toNat - 0xE0) * 0x1000 + tailBits b * 0x40 + tailBits c), [lead, b, c]⟩
      else malformed
    | _ => malformed
  else if lead < 0xF5 then
    match rest with
    | b :: c :: d :: _ =>
      if byteWithin (secondOfFour lead) b && isTail c && isTail d then
        ⟨Char.ofNat ((lead.toNat - 0xF0) * 0x40000 + tailBits b * 0x1000 + tailBits c * 0x40 + tailBits d),
          [lead, b, c, d]⟩
      else malformed
    | _ => malformed
  else malformed

/-- The glyphs of a text once `pending` bytes of an earlier glyph are passed. -/
def glyphsAfter : Nat → Bytes → List Glyph
  | _, [] => []
  | pending + 1, _ :: rest => glyphsAfter pending rest
  | 0, byte :: rest =>
    let glyph := firstGlyph byte rest
    glyph :: glyphsAfter (glyph.width - 1) rest

def glyphs (text : Bytes) : List Glyph := glyphsAfter 0 text

def chars (text : Bytes) : List Char := (glyphs text).map (·.char)

def rawText (gs : List Glyph) : Bytes := gs.flatMap (·.raw)

def encode (cs : List Char) : Bytes := cs.flatMap String.utf8EncodeChar

def isUtf8 (text : Bytes) : Bool := (glyphs text).all fun g => !g.isMalformed

def length (text : Bytes) : Nat := (glyphs text).length

def toLower (text : Bytes) : Bytes := encode ((chars text).map lowerChar)

def toUpper (text : Bytes) : Bytes := encode ((chars text).map upperChar)

def equalFold (left right : Bytes) : Bool :=
  (chars left).map foldChar == (chars right).map foldChar

/-- White space: the property `White_Space`. -/
def isSpace (c : Char) : Bool :=
  let n := c.toNat
  (0x09 ≤ n && n ≤ 0x0D) || n == 0x20 || n == 0x85 || n == 0xA0 || n == 0x1680 ||
    (0x2000 ≤ n && n ≤ 0x200A) || n == 0x2028 || n == 0x2029 || n == 0x202F || n == 0x205F || n == 0x3000

/-- The text without white space at either end. -/
def trim (text : Bytes) : Bytes :=
  let front := (glyphs text).dropWhile fun g => isSpace g.char
  rawText (front.reverse.dropWhile fun g => isSpace g.char).reverse

/-- The character with a given code, or the replacement character if there is none. -/
def charOfInt (code : Int) : Char :=
  if 0 ≤ code then
    let n := code.toNat
    if n.isValidChar then Char.ofNat n else replacement
  else replacement

end LyaLang.Text
