import LyaLang.Command.Build
import LyaLang.Command.Check
import LyaLang.Command.Execute
import LyaLang.Command.Manage

/-! # The command line

The first argument that is no flag names a command; what stands before it are flags for all commands,
and what stands after it belongs to the command.
-/

namespace LyaLang.Command

def version : Bytes := "0.1.0"

def globalFlags : FlagSet where
  header := "Usage: lya [options] <command> [arguments]

Compiles LYA programs to LVM bytecode and runs them.

Options:
"
  flags := [
    ⟨"v", .switch, "Verbose output"⟩,
    ⟨"debug", .switch, "Debug logging (implies -v)"⟩,
    ⟨"log", .text [], "Write log output to this file instead of stderr"⟩,
    ⟨"C", .text [], "Run as if started in this directory"⟩]
  footer := "
Commands:
  run [file.lya]           Compile and run (default: the project entry)
  build [-o out] [file]    Compile to an .lvm bytecode file
  exec file.lvm|file.asm   Run compiled bytecode or assembler text
  check [files...]         Report diagnostics (-format text|yaml)
  dis [file]               Print the LVM instruction listing
  init [name]              Create lya.toml and main.lya
  cache list|prune|clear   Manage the compile cache
  lsp                      Start the language server on stdio
  version                  Print the version

Examples:
  lya run hello.lya
  lya build -o hello.lvm hello.lya && lya exec hello.lvm
  lya check -format yaml src/*.lya
"

variable {m : Type → Type} [Monad m] [Host m]

/-- The language server needs a channel of its own, which a console is not. -/
def serve (s : Setting) (arguments : List Bytes) : Action m Unit := do
  let _ ← readFlags (flagsOf "lsp" "" []) arguments
  stop s .failed "language server: no channel to serve"

def action (s : Setting) (command : Bytes) (arguments : List Bytes) : Action m Unit :=
  if command == "run" then run s arguments
  else if command == "build" then build s arguments
  else if command == "exec" then exec s arguments
  else if command == "check" then check s arguments
  else if command == "dis" then list s arguments
  else if command == "init" then createProject s arguments
  else if command == "cache" then manageCache s arguments
  else if command == "lsp" then serve s arguments
  else if command == "version" then say (("lya " : Bytes) ++ version ++ ("\n" : Bytes))
  else
    stop s .misused (("unknown command " : Bytes) ++ Text.quote command ++
      (" (run 'lya -h' for usage)" : Bytes))

def dispatch (s : Setting) (command : Bytes) (arguments : List Bytes) : m Status := do
  match ← (action (m := m) s command arguments).run with
  | .ok () => return .done
  | .error status => return status

/-- Make sure that there is a log file, if one is named. -/
def openLog (path : Bytes) : m (Except FileError Unit) := do
  if path.isEmpty then return .ok ()
  match ← Host.stat path with
  | .ok false => return .ok ()
  | .ok true => return .error ⟨"open", path, .isFolder⟩
  | .error _ => Host.write path []

/-- Carry out a whole command line. A call for help is no misuse. -/
def runLine (arguments : List Bytes) (color canceled : Bool) : m Status := do
  match globalFlags.parse {} arguments with
  | .error e =>
    Host.complain (globalFlags.report e)
    return if e == .help then .done else .misused
  | .ok found =>
    match ← openLog (found.textD "log" []) with
    | .error e =>
      Host.complain (("log file error: " : Bytes) ++ e.message ++ ("\n" : Bytes))
      return .failed
    | .ok () =>
      match found.rest with
      | [] =>
        Host.complain globalFlags.usage
        return .misused
      | command :: rest =>
        let folder := found.textD "C" []
        dispatch { folder := if folder.isEmpty then "." else folder, color, canceled } command rest

end LyaLang.Command
