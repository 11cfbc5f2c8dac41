/-! # Source positions

Offsets count bytes, lines and columns start at one, and columns count characters.
-/

namespace LyaLang

/-- A place in a source text. -/
structure Position where
  offset : Nat
  line : Nat
  column : Nat
deriving DecidableEq, Repr, Inhabited

/-- The stretch of source text that a construct covers. -/
structure Span where
  start : Position
  stop : Position
deriving DecidableEq, Repr, Inhabited

def Position.first : Position := ⟨0, 1, 1⟩

def Position.next (p : Position) (c : Char) (width : Nat) : Position :=
  if c == '\n' then ⟨p.offset + width, p.line + 1, 1⟩ else ⟨p.offset + width, p.line, p.column + 1⟩

end LyaLang
