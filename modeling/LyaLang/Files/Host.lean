import LyaLang.Files.Tree

/-! # Hosts

A host is what a command runs on: files, a clock that counts nanoseconds, and a console. Commands are
written over any host. A host state is a host of its own, on a file tree.
-/

namespace LyaLang

/-- What commands ask of their surroundings. -/
class Host (m : Type → Type) where
  currentFolder : m Bytes
  /-- Whether there is a folder at a path; fails if there is nothing. -/
  stat : Bytes → m (Except FileError Bool)
  read : Bytes → m (Except FileError Bytes)
  write : Bytes → Bytes → m (Except FileError Unit)
  create : Bytes → Bytes → m (Except FileError Unit)
  makeFolders : Bytes → m (Except FileError Unit)
  /-- The time in nanoseconds since the start of 1970. -/
  now : m Int64
  input : m Bytes
  print : Bytes → m Unit
  /-- Print to the error output. -/
  complain : Bytes → m Unit

def Host.absolute {m : Type → Type} [Monad m] [Host m] (path : Bytes) : m Bytes := do
  return Path.clean (Path.within (← currentFolder) path)

/-- A host with its files in a tree. The clock goes on whenever it is read. -/
structure HostState where
  tree : FileTree := {}
  current : Route := []
  clock : Int64 := 0
  input : Bytes := []
  output : Bytes := []
  errors : Bytes := []

namespace HostState

/-- The time between two readings of the clock: a millisecond. -/
def tick : Int64 := 1000000

def update (f : FileTree → Route → Except FileError FileTree) : StateM HostState (Except FileError Unit) :=
  modifyGet fun s =>
    match f s.tree s.current with
    | .ok tree => (.ok (), { s with tree })
    | .error e => (.error e, s)

end HostState

instance : Host (StateM HostState) where
  currentFolder := do return Path.slash :: Bytes.join [Path.slash] (← get).current
  stat path := do let s ← get; return s.tree.stat s.current path
  read path := do let s ← get; return s.tree.read s.current path
  write path data := HostState.update fun t r => t.write r path data
  create path data := HostState.update fun t r => t.create r path data
  makeFolders path := HostState.update fun t r => t.makeFolders r path
  now := modifyGet fun s => (s.clock + HostState.tick, { s with clock := s.clock + HostState.tick })
  input := do return (← get).input
  print text := modify fun s => { s with output := s.output ++ text }
  complain text := modify fun s => { s with errors := s.errors ++ text }

end LyaLang
