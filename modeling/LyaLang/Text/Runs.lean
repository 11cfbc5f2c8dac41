/-! # Runs of code points

A set of code points as the lengths of the runs outside and inside it, in turn, from code point 0 on.
-/

namespace LyaLang.Text

/-- Whether a code point is in the set that runs describe. -/
def inRuns : List Nat → Nat → Bool
  | outside :: inside :: rest, code =>
    outside ≤ code && (code < outside + inside || inRuns rest (code - outside - inside))
  | _, _ => false

end LyaLang.Text
