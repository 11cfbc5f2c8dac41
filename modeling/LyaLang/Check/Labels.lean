import LyaLang.Ast.Traverse
import LyaLang.Check.Note
import LyaLang.Scope.Context

/-! # Label reservation

Every construct with internal control flow gets consecutive labels of its own: a chain of conditions
one for each arm and one for its end, a loop three, a procedure three. Labels are given out in source
order, and how many there are depends on the shape of the tree alone.
-/

namespace LyaLang

open Ast

def Ast.Node.labelBudget {α : Type} : Node α → Nat
  | .stmt (.branch _ branches _) => branches.length + 1
  | .expr (.cond _ branches _) => branches.length + 1
  | .stmt (.loop _ _ _ _) => 3
  | .stmt (.proc _ _ _ _ _) => 3
  | _ => 0

def reserveNode (node : Node Span) : StateM Int64 Note := fun next =>
  match node.labelBudget with
  | 0 => ({ span := node.note }, next)
  | count => ({ span := node.note, labels := some ⟨next, count⟩ }, next + Int64.ofNat count)

def reserveProgram (program : Program Span) (next : Int64) : Program Note × Int64 :=
  program.traverse reserveNode next

def Context.reserveProgram (c : Context) (program : Program Span) : Context × Program Note :=
  let (program, next) := LyaLang.reserveProgram program c.nextLabel
  ({ c with nextLabel := next }, program)

end LyaLang
