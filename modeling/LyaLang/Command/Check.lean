import LyaLang.Command.Setting

/-! # Checking source files

A check compiles files without writing anything, and reports what it finds as text or as YAML.
-/

namespace LyaLang.Command

variable {m : Type → Type} [Monad m] [Host m]

def checkFile (s : Setting) (file : Bytes) : Action m FileReport := do
  match ← ExceptT.lift (Host.read (Path.within s.folder file)) with
  | .error e => return { file, valid := false, error := e.message }
  | .ok source =>
    match compile source with
    | .error _ => throw .crashed
    | .ok compilation => return FileReport.ofCompilation file compilation

/-- Report on files, or on the main file of the project. -/
def check (s : Setting) (arguments : List Bytes) : Action m Unit := do
  let flags := flagsOf "check" "[-format text|yaml] [files...]" [
    ⟨"format", .text "text", "Report format: text or yaml"⟩]
  let arguments ← readFlags flags arguments
  let format := arguments.textD "format" "text"
  if format != "text" && format != "yaml" then
    stop s .misused (("unknown format " : Bytes) ++ Text.quote format)
  let files ← match arguments.rest with
    | [] => do pure [← sourcePath s (← project s) []]
    | files => pure files
  let reports ← files.mapM (checkFile s)
  say (if format == "yaml" then reports.flatMap FileReport.yaml else FileReport.text s.color reports)
  if reports.any (!·.valid) then throw .failed

end LyaLang.Command
