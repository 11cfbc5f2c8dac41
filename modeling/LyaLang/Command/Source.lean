import LyaLang.Cache.File
import LyaLang.Command.Setting
import LyaLang.Digest.Fingerprint

/-! # Compiling source files

A source file is compiled through the cache of its project. A cache that cannot be opened, or an action
on it that was canceled, is done without.
-/

namespace LyaLang.Command

variable {m : Type → Type} [Monad m] [Host m]

def compileCached (s : Setting) (cacheFile name source : Bytes) :
    m (Except Crash (Except Compilation Code)) := do
  let plain := (compile source).map fun c => c.result.mapError fun _ => c
  match ← Cache.openFile cacheFile with
  | .error _ => return plain
  | .ok store =>
    if s.canceled then return plain
    let (store, outcome) := store.compile name source (← Host.now)
    let _ ← Cache.save cacheFile store
    return outcome

/-- Compile a source file. What was found in a file that does not compile is printed. -/
def compileFile (s : Setting) (manifest : Manifest) (path : Bytes) (useCache : Bool) : Action m Code := do
  match ← ExceptT.lift (Host.read path) with
  | .error e => stop s .failed e.message
  | .ok source =>
    let outcome ←
      if useCache && manifest.cacheEnabled then
        ExceptT.lift (compileCached (m := m) s manifest.cacheFile (Path.baseName path) source)
      else pure ((compile source).map fun c => c.result.mapError fun _ => c)
    match outcome with
    | .error _ => throw .crashed
    | .ok (.ok code) => return code
    | .ok (.error compilation) =>
      ExceptT.lift (Host.complain (FileReport.text s.color [FileReport.ofCompilation path compilation]))
      throw .failed

end LyaLang.Command
