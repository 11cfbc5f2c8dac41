import LyaLang.Cache.File
import LyaLang.Command.Setting
import LyaLang.Text.Columns
import LyaLang.Time.Calendar

/-! # Projects and caches

A new project is a manifest with a sample program. The compile cache of a project can be listed,
pruned of what has not been used for a while, and cleared.
-/

namespace LyaLang.Command

def sampleProgram (name : Bytes) : Bytes :=
  ("// Entry point of " : Bytes) ++ name ++ ("
dcl n int = 5;

fact: proc(n int) returns(int);
  if n <= 1 then return 1; fi
  return n * fact(n - 1);
end;

print(\"fact(\", n, \") = \", fact(n));
" : Bytes)

def firstVersion : Bytes := "0.1.0"

/-- The time after which an unused program is pruned: thirty days. -/
def pruneAfter : Int64 := 2592000000000000

def hour : Int64 := 3600000000000

def cacheTable (entries : List Cache.Entry) : Bytes :=
  let rows : List (List Bytes) := ["KEY", "NAME", "SIZE", "LAST USED"] :: entries.map fun e =>
    [e.key.take 12, e.name, Text.ofNat e.size, Calendar.text e.lastUsed]
  Text.align (rows.flatMap fun row => Bytes.join [0x09] row ++ [0x0A])

variable {m : Type → Type} [Monad m] [Host m]

def createProject (s : Setting) (arguments : List Bytes) : Action m Unit := do
  let arguments ← readFlags (flagsOf "init" "[name]" []) arguments
  let folder ← ExceptT.lift (Host.absolute (m := m) s.folder)
  let name := arguments.rest.head?.getD (Path.baseName folder)
  let manifest : Manifest := { folder, name, version := firstVersion }
  match ← ExceptT.lift (manifest.save (m := m) folder) with
  | .error e => stop s .failed e.message
  | .ok () =>
    let entry := manifest.entryPath
    match ← ExceptT.lift (Host.stat entry) with
    | .error ⟨_, _, .missing⟩ =>
      match ← ExceptT.lift (Host.write entry (sampleProgram name)) with
      | .error e => stop s .failed e.message
      | .ok () => pure ()
    | _ => pure ()
    say (("Created " : Bytes) ++ Path.join folder Manifest.fileName ++ ("\n" : Bytes))

/-- Drop what was last used before a time from a cache. -/
def pruneCache (s : Setting) (path : Bytes) (store : Cache.Store) (cutoff : Int64) : Action m Unit := do
  match Cache.Handle.prune { store } s.canceled cutoff with
  | (_, .error e) => stop s .failed e.message
  | (handle, .ok count) =>
    let _ ← ExceptT.lift (Cache.save (m := m) path handle.store)
    say (("Removed " : Bytes) ++ Text.ofNat count ++ (if count == 1 then (" entry" : Bytes) else " entries") ++
      (" from " : Bytes) ++ path ++ ("\n" : Bytes))

def manageCache (s : Setting) (arguments : List Bytes) : Action m Unit := do
  match arguments with
  | [] => stop s .misused "cache requires one of: list, prune, clear"
  | order :: arguments =>
    let flags := flagsOf (("cache " : Bytes) ++ order) "" [
      ⟨"older-than", .duration "720h0m0s", "Prune entries unused for this long"⟩]
    let arguments ← readFlags flags arguments
    let manifest ← project s
    let path := manifest.cacheFile
    match ← ExceptT.lift (Cache.openFile (m := m) path) with
    | .error e => stop s .failed e.message
    | .ok store =>
      if order == "list" then
        match Cache.Handle.entries { store } s.canceled with
        | .error e => stop s .failed e.message
        | .ok entries => say (cacheTable entries)
      else if order == "prune" then
        let now ← ExceptT.lift (Host.now (m := m))
        pruneCache s path store (now - arguments.durationD "older-than" pruneAfter)
      else if order == "clear" then
        let now ← ExceptT.lift (Host.now (m := m))
        pruneCache s path store (now + hour)
      else stop s .misused (("unknown cache command " : Bytes) ++ Text.quote order)

end LyaLang.Command
