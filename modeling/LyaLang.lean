import LyaLang.Editor.Server
import LyaLang.Main
import LyaLang.Proofs.Tree.Labels
import LyaLang.Proofs.Check.Outcome
import LyaLang.Proofs.Mode.Proper
import LyaLang.Proofs.Scope.Visible
import LyaLang.Proofs.Scope.Good
import LyaLang.Proofs.Check.Typed
import LyaLang.Proofs.Check.Expr
import LyaLang.Proofs.Check.ModeExpr
import LyaLang.Proofs.Check.Sound
import LyaLang.Proofs.Check.Stmt
import LyaLang.Proofs.Emit.Code
import LyaLang.Proofs.Emit.Expr
import LyaLang.Proofs.Emit.Stmt
import LyaLang.Proofs.Compile
import LyaLang.Proofs.Machine.Action
import LyaLang.Proofs.Machine.Overrun
import LyaLang.Proofs.Machine.Run
import LyaLang.Proofs.Emit.Occurs
import LyaLang.Proofs.Machine.Crash
import LyaLang.Proofs.Emit.Labels
import LyaLang.Proofs.Machine.Labels
import LyaLang.Proofs.Emit.Linking
import LyaLang.Proofs.Tree.Blur
import LyaLang.Proofs.Digest.Injective
import LyaLang.Proofs.Scope.Blur
import LyaLang.Proofs.Check.Blur
import LyaLang.Proofs.Lexer
import LyaLang.Proofs.Parser.Parse
import LyaLang.Proofs.Check.BlurStmt
import LyaLang.Proofs.Emit.Blur
import LyaLang.Proofs.Layout
import LyaLang.Proofs.Emit.Annotated
import LyaLang.Proofs.Validity
import LyaLang.Proofs.Balance
import LyaLang.Proofs.Transfer
import LyaLang.Proofs.Binding
import LyaLang.Proofs.Digest.Plain
import LyaLang.Proofs.Names
import LyaLang.Proofs.Definitions
import LyaLang.Proofs.Printer.Inverse
import LyaLang.Proofs.Wire
import LyaLang.Proofs.Confined
import LyaLang.Proofs.Evaluation
import LyaLang.Proofs.Folding
import LyaLang.Proofs.Machine.Local
import LyaLang.Proofs.Machine.Shape
import LyaLang.Proofs.Addressing
import LyaLang.Proofs.Machine.Rerun
import LyaLang.Proofs.Machine.Resolved
import LyaLang.Proofs.Machine.Texts
import LyaLang.Proofs.Machine.Building
import LyaLang.Proofs.Tree.Partition
import LyaLang.Proofs.Scope.Layout
import LyaLang.Proofs.Workspace
import LyaLang.Editor.Worker
import LyaLang.Proofs.Worker
