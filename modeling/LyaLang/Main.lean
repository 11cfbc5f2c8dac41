import LyaLang.Command.Dispatch

/-! # The program

The command line on the console and the files of the machine it runs on.
-/

open LyaLang

namespace LyaLang.Console

/-- A text as a string; what is not UTF-8 is replaced. -/
def string (text : Bytes) : String := String.ofList (Text.chars text)

def faultOf : IO.Error → FileFault
  | .alreadyExists .. => .taken
  | .inappropriateType .. => .notFolder
  | .invalidArgument .. => .badName
  | _ => .missing

/-- Carry out a file action and name it if it fails. -/
def attempt {α : Type} (name : String) (path : Bytes) (run : String → IO α) : IO (Except FileError α) := do
  try return .ok (← run (string path))
  catch e => return .error ⟨name, path, faultOf e⟩

def isFolder (path : String) : IO Bool := do
  return (← (System.mkFilePath [path]).metadata).type == .dir

partial def readAll (stream : IO.FS.Stream) (found : ByteArray) : IO ByteArray := do
  let chunk ← stream.read 65536
  if chunk.isEmpty then return found else readAll stream (found ++ chunk)

/-- The time of a file made just now. -/
def time : IO Int64 := do
  let (_, path) ← IO.FS.createTempFile
  let modified := (← path.metadata).modified
  IO.FS.removeFile path
  return Int64.ofInt (modified.sec * 1000000000 + modified.nsec.toNat)

def put (stream : IO.FS.Stream) (text : Bytes) : IO Unit := do
  stream.write (ByteArray.mk text.toArray)
  stream.flush

instance : Host IO where
  currentFolder := do return Bytes.ofString (← IO.currentDir).toString
  stat path := attempt "stat" path isFolder
  read path := do
    match ← attempt "open" path isFolder with
    | .ok true => return .error ⟨"read", path, .isFolder⟩
    | _ => attempt "open" path fun p => do return (← IO.FS.readBinFile p).toList
  write path data := do
    match ← attempt "open" path isFolder with
    | .ok true => return .error ⟨"open", path, .isFolder⟩
    | _ => attempt "open" path fun p => IO.FS.writeBinFile p (ByteArray.mk data.toArray)
  create path data := attempt "open" path fun p => do
    let handle ← IO.FS.Handle.mk p .writeNew
    handle.write (ByteArray.mk data.toArray)
  makeFolders path := attempt "mkdir" path fun p => IO.FS.createDirAll p
  now := time
  input := do return (← readAll (← IO.getStdin) .empty).toList
  print text := do put (← IO.getStdout) text
  complain text := do put (← IO.getStderr) text

end LyaLang.Console

/-- Carry out the command line. -/
def main (arguments : List String) : IO UInt32 := do
  let color ← (← IO.getStderr).isTty
  let status ← Command.runLine (m := IO) (arguments.map Bytes.ofString) color false
  return status.code.toUInt32
