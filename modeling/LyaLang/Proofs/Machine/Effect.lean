import LyaLang.Proofs.Effect
import LyaLang.Proofs.Machine.Action

/-! # Stack effects

How many operand words each instruction takes from the stack and leaves on it. A call takes the arguments of
the procedure at its label: by the time control comes back, the procedure has removed them.
-/

namespace LyaLang

namespace Instruction

/-- The operand words that an instruction takes, given how many arguments the procedure at a label takes. -/
def pops (arity : Int64 → Int) (i : Instruction) : Int :=
  match i.op with
  | .stv | .srv | .dup | .neg | .abs | .not | .asc | .num | .upc | .lwc | .grc | .lmv | .chk | .sts | .rds | .prv
  | .prs | .jof => 1
  | .add | .sub | .mul | .div | .mod | .and | .lor | .les | .leq | .grt | .gre | .equ | .neq | .idx | .smr | .scp
  | .scat | .seq | .sne => 2
  | .dlc | .prt => i.a.toInt
  | .smv => i.a.toInt + 1
  | .cfu => arity i.a
  | _ => 0

/-- The operand words that an instruction leaves. -/
def pushes (i : Instruction) : Int :=
  match i.op with
  | .ldc | .ldv | .ldr | .lrv | .lsc | .rdv | .neg | .abs | .not | .asc | .num | .upc | .lwc | .grc | .chk | .add
  | .sub | .mul | .div | .mod | .and | .lor | .les | .leq | .grt | .gre | .equ | .neq | .idx | .scat | .seq | .sne => 1
  | .dup => 2
  | .alc | .lmv => i.a.toInt
  | _ => 0

/-- The net effect of an instruction on the stack. -/
def effect (arity : Int64 → Int) (i : Instruction) : Int := i.pushes - i.pops arity

/-- Whether an instruction goes on with the next one and belongs to no frame. -/
def isPlain (i : Instruction) : Bool :=
  match i.op with
  | .jmp | .jof | .cfu | .enf | .ret | .stp => false
  | _ => true

end Instruction

end LyaLang
