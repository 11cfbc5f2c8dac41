import LyaLang.Assembly.Listing
import LyaLang.Command.Source

/-! # Building and listing programs

A build writes the code of a source file beside it, as bytes or as assembler text. A listing prints
the code of a source file or of a file of bytes.
-/

namespace LyaLang.Command

def assembly (code : Code) : Bytes :=
  (code.strings.toList.flatMap fun s => (".string " : Bytes) ++ Text.quote s ++ ("\n" : Bytes)) ++
    code.textLines.flatMap fun line => line ++ ("\n" : Bytes)

variable {m : Type → Type} [Monad m] [Host m]

/-- Write the code of a source file. -/
def build (s : Setting) (arguments : List Bytes) : Action m Unit := do
  let flags := flagsOf "build" "[-o output] [-S] [file.lya]" [
    ⟨"o", .text [], "Output path (default: source name with .lvm or .asm)"⟩,
    ⟨"S", .switch, "Write assembler text instead of encoded bytecode"⟩]
  let arguments ← readFlags flags arguments
  let manifest ← project s
  let path ← sourcePath s manifest arguments.rest
  let code ← compileFile s manifest path true
  let asText := arguments.isOn "S"
  let data := if asText then assembly code else code.encode
  let extension : Bytes := if asText then ".asm" else ".lvm"
  let named := arguments.textD "o" []
  let output := if named.isEmpty then Path.dropExtension path ++ extension else Path.within s.folder named
  match ← ExceptT.lift (Host.write output data) with
  | .error e => stop s .failed e.message
  | .ok () => return

def list (s : Setting) (arguments : List Bytes) : Action m Unit := do
  let arguments ← readFlags (flagsOf "dis" "[file.lya|file.lvm]" []) arguments
  let manifest ← project s
  let path ← sourcePath s manifest arguments.rest
  let data := match ← ExceptT.lift (Host.read path) with
    | .ok data => data
    | .error _ => []
  let code ←
    if Bytes.startsWith data Wire.magic then
      match WireProgram.decode data with
      | .ok program => pure program.toCode
      | .error e => stop s .failed (path ++ (": " : Bytes) ++ e.message)
    else compileFile s manifest path false
  say (code.listing (Path.baseName path))

end LyaLang.Command
