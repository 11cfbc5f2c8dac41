import LyaLang.Command.Flags
import LyaLang.Command.Report
import LyaLang.Manifest

/-! # The setting of a command

Every command works in a folder, with or without color, and may be canceled. It prints what it has to
say and ends in a status; a command that fails midway ends there.
-/

namespace LyaLang.Command

/-- How a command ended. -/
inductive Status where
  | done
  | failed
  | misused
  /-- The compiler or the machine could not go on. -/
  | crashed
deriving DecidableEq, Repr

def Status.code : Status → UInt8
  | done => 0
  | failed => 1
  | misused | crashed => 2

/-- What all commands share. -/
structure Setting where
  folder : Bytes
  color : Bool := false
  canceled : Bool := false

/-- A command on a host: it may end before its last step. -/
abbrev Action (m : Type → Type) := ExceptT Status m

variable {m : Type → Type} [Monad m] [Host m]

def say (text : Bytes) : Action m Unit := ExceptT.lift (Host.print text)

def errorLine (s : Setting) (message : Bytes) : Action m Unit :=
  ExceptT.lift (Host.complain (painted s.color .red "error:" ++ (" " : Bytes) ++ message ++ ("\n" : Bytes)))

/-- Print an error line and end. -/
def stop {α : Type} (s : Setting) (status : Status) (message : Bytes) : Action m α := do
  errorLine s message
  throw status

def stopWithUsage {α : Type} (flags : FlagSet) : Action m α := do
  ExceptT.lift (Host.complain flags.usage)
  throw .misused

/-- Read the flags of a command; wrong ones end it. -/
def readFlags (flags : FlagSet) (arguments : List Bytes) : Action m Arguments := do
  match flags.parse {} arguments with
  | .ok found => return found
  | .error e =>
    ExceptT.lift (Host.complain (flags.report e))
    throw .misused

def flagsOf (name : Bytes) (form : String) (flags : List Flag) : FlagSet :=
  { header := ("Usage: lya " : Bytes) ++ name ++ (" " : Bytes) ++ (form : Bytes) ++ ("\n" : Bytes), flags }

def project (s : Setting) : Action m Manifest := do
  match ← ExceptT.lift (Manifest.find (m := m) s.folder) with
  | .error e => stop s .failed (("loading manifest: " : Bytes) ++ e.message)
  | .ok (some manifest) => return manifest
  | .ok none => return { folder := ← ExceptT.lift (Host.absolute s.folder) }

/-- The source file that the arguments name, or the main file of the project. -/
def sourcePath (s : Setting) (manifest : Manifest) (arguments : List Bytes) : Action m Bytes := do
  match arguments with
  | [] =>
    let entry := manifest.entryPath
    match ← ExceptT.lift (Host.stat entry) with
    | .ok _ => return entry
    | .error e =>
      stop s .misused (("no source file given and project entry " : Bytes) ++ entry ++ (": " : Bytes) ++ e.message)
  | [path] => return Path.within s.folder path
  | _ =>
    stop s .misused (("expected one source file, got " : Bytes) ++ Text.ofNat arguments.length)

end LyaLang.Command
