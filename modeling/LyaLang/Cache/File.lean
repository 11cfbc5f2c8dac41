import LyaLang.Cache.Handle
import LyaLang.Files.Host

/-! # Cache files

A store is kept in a file: a mark, and then one data item with a list of rows. An empty file is an
empty store. Opening a cache makes its folder and its file. The name of the file ends in front of a
question mark.
-/

namespace LyaLang.Cache

open Cbor

def mark : Bytes := "LYA compile cache 1\n"

def encodeRow (r : Row) : Bytes :=
  encodeArray [encodeBytes r.key, encodeBytes r.name, encodeBytes r.program,
    encodeInt r.created.toInt, encodeInt r.lastUsed.toInt]

def decodeRow? : Cbor → Option Row
  | .array [.bytes key, .bytes name, .bytes program, created, lastUsed] => do
    return { key, name, program, created := ← Wire.int64? created, lastUsed := ← Wire.int64? lastUsed }
  | _ => none

def Store.encode (s : Store) : Bytes := mark ++ encodeArray (s.rows.map encodeRow)

def Store.decode? (data : Bytes) : Option Store :=
  if data.isEmpty then some {}
  else if Bytes.startsWith data mark then
    match Cbor.read? (data.drop mark.length) with
    | some (.array items) => do return ⟨← items.mapM decodeRow?⟩
    | _ => none
  else none

/-- Why a cache cannot be opened. -/
inductive OpenError where
  | folder (cause : FileError)
  | inaccessible
  | notCache
deriving DecidableEq, Repr

def OpenError.message : OpenError → Bytes
  | folder cause => ("creating cache directory: " : Bytes) ++ cause.message
  | inaccessible => "setting busy timeout: unable to open database file: out of memory (14)"
  | notCache => "creating table: file is not a database (26)"

variable {m : Type → Type} [Monad m] [Host m]

def fileOf (path : Bytes) : Bytes := path.takeWhile (· != 0x3F)

def save (path : Bytes) (s : Store) : m (Except FileError Unit) := Host.write (fileOf path) s.encode

def openFile (path : Bytes) : m (Except OpenError Store) := do
  match ← Host.makeFolders (Path.folder path) with
  | .error e => return .error (.folder e)
  | .ok () =>
    match ← Host.read (fileOf path) with
    | .ok data =>
      match Store.decode? data with
      | some store => return .ok store
      | none => return .error .notCache
    | .error e =>
      if e.fault != .missing then return .error .inaccessible
      match ← save path {} with
      | .ok () => return .ok {}
      | .error _ => return .error .inaccessible

end LyaLang.Cache
