import LyaLang.Assembly.Reader
import LyaLang.Command.Source
import LyaLang.Machine.Run

/-! # Running programs

A program is run from its source, or from a file with its code as bytes or assembler text. Flags take
precedence over the project for the resources of the machine. An error names the source line of the
failed instruction, if it is known.
-/

namespace LyaLang.Command

def machineFlags : List Flag := [
  ⟨"memory", .integer, "Words of VM memory (default from lya.toml, else 65536)"⟩,
  ⟨"max-steps", .integer, "Abort after this many instructions (0 = unlimited)"⟩,
  ⟨"trace", .switch, "Log every executed instruction at debug level"⟩,
  ⟨"stack", .switch, "Print the final stack contents"⟩]

/-- The number of steps after which a run is given up in any case. -/
def stepBudget : Nat := 0x4000000000000000

def readsInput (code : Code) : Bool := code.instructions.any fun i => i.op == .rdv || i.op == .rds

def stackLines (stack : List Word) : Bytes :=
  stack.zipIdx.flatMap fun (w, index) =>
    ("M[" : Bytes) ++ Text.ofNat index ++ ("] = " : Bytes) ++ w.display ++ ("\n" : Bytes)

/-- What is said about a run that did not finish. -/
def runMessage? (path : Bytes) (code : Code) (steps : Nat) : RunEnd → Option Bytes
  | .failed e =>
    let line := code.lineOf e.pc
    let position := if line > 0 then (":" : Bytes) ++ Text.ofInt64 line else []
    some (path ++ position ++ (": " : Bytes) ++ e.message)
  | .canceled | .unfinished =>
    some (path ++ (": interrupted after " : Bytes) ++ Text.ofNat steps ++ (" step(s)" : Bytes))
  | .finished | .crashed => none

variable {m : Type → Type} [Monad m] [Host m]

/-- Run a program on the console. -/
def execute (s : Setting) (manifest : Manifest) (arguments : Arguments) (path : Bytes) (code : Code) :
    Action m Unit := do
  let memory := (arguments.integer? "memory").getD manifest.memory
  let maxSteps := (arguments.integer? "max-steps").getD manifest.maxSteps
  let input ← if readsInput code then ExceptT.lift (Host.input (m := m)) else pure []
  let limits := { maxSteps := maxSteps.toInt, canceled := s.canceled }
  let (outcome, machine) := (Machine.create memory.toInt input).run code limits stepBudget
  if outcome.finish == .crashed then throw .crashed
  say machine.output.toList
  if arguments.isOn "stack" then say (stackLines outcome.stack)
  match runMessage? path code machine.steps outcome.finish with
  | some message => stop s .failed message
  | none => return

def run (s : Setting) (arguments : List Bytes) : Action m Unit := do
  let flags := flagsOf "run" "[flags] [file.lya]" (machineFlags ++
    [⟨"no-cache", .switch, "Bypass the compile cache"⟩])
  let arguments ← readFlags flags arguments
  let manifest ← project s
  let path ← sourcePath s manifest arguments.rest
  let code ← compileFile s manifest path (!arguments.isOn "no-cache")
  execute s manifest arguments path code

/-- The program in a file of bytes or assembler text. -/
def loadCode (data : Bytes) : Except Bytes Code :=
  if Bytes.startsWith data Wire.magic then
    ((WireProgram.decode data).map WireProgram.toCode).mapError WireError.message
  else (assemble data).mapError AssemblyError.message

/-- Run a program from a file of bytes or assembler text. -/
def exec (s : Setting) (arguments : List Bytes) : Action m Unit := do
  let flags := flagsOf "exec" "[flags] file.lvm|file.asm" machineFlags
  let arguments ← readFlags flags arguments
  match arguments.rest with
  | [file] =>
    let manifest ← project s
    let path := Path.within s.folder file
    match ← ExceptT.lift (Host.read path) with
    | .error e => stop s .failed e.message
    | .ok data =>
      match loadCode data with
      | .error message => stop s .failed (path ++ (": " : Bytes) ++ message)
      | .ok code => execute s manifest arguments path code
  | _ => stopWithUsage flags

end LyaLang.Command
