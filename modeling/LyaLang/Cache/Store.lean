import LyaLang.Compile
import LyaLang.Digest.Fingerprint
import LyaLang.Wire.Decode

/-! # The compile cache

A store keeps compiled programs as bytes under the fingerprints of their sources, with the times of
their creation and last use. Times count nanoseconds. A program that no longer decodes is as good as
none and is dropped when it is asked for.
-/

namespace LyaLang.Cache

/-- One stored program. -/
structure Row where
  /-- The fingerprint in hexadecimal digits. -/
  key : Bytes
  name : Bytes
  program : Bytes
  created : Int64
  lastUsed : Int64
deriving DecidableEq, Repr

/-- Stored programs, at most one under each key. -/
structure Store where
  rows : List Row := []
deriving DecidableEq, Repr

/-- What a listing tells about a stored program. -/
structure Entry where
  key : Bytes
  name : Bytes
  size : Nat
  created : Int64
  lastUsed : Int64
deriving DecidableEq, Repr

def keyText (fingerprint : Bytes) : Bytes := Text.hexText fingerprint

namespace Store

def row? (s : Store) (key : Bytes) : Option Row := s.rows.find? fun r => r.key == key

def erase (s : Store) (key : Bytes) : Store := ⟨s.rows.filter fun r => r.key != key⟩

def insert (s : Store) (row : Row) : Store := ⟨(s.erase row.key).rows ++ [row]⟩

/-- The program under a key. Finding it counts as a use. -/
def get (s : Store) (key : Bytes) (now : Int64) : Store × Option Code :=
  match s.row? key with
  | none => (s, none)
  | some row =>
    match WireProgram.decode row.program with
    | .error _ => (s.erase key, none)
    | .ok program => (s.insert { row with lastUsed := now }, some program.toCode)

/-- Store a program. A key that is there already keeps the time of its creation. -/
def put (s : Store) (key name : Bytes) (code : Code) (now : Int64) : Store :=
  let created := ((s.row? key).map (·.created)).getD now
  s.insert { key, name, program := code.encode, created, lastUsed := now }

/-- Drop everything last used before a time, and count it. -/
def prune (s : Store) (cutoff : Int64) : Store × Nat :=
  (⟨s.rows.filter fun r => !(r.lastUsed < cutoff)⟩, s.rows.countP fun r => r.lastUsed < cutoff)

/-- Whether a row is listed no later than another: by last use from late to early, then by key. -/
def listedFirst (a b : Row) : Bool :=
  if a.lastUsed == b.lastUsed then !Bytes.before b.key a.key else b.lastUsed < a.lastUsed

/-- What is told about a row, if its key is a fingerprint. -/
def entry? (r : Row) : Option Entry := do
  let fingerprint ← Text.parseHex? r.key
  if fingerprint.length != 32 then none
  return { key := keyText fingerprint, name := r.name, size := r.program.length
           created := r.created, lastUsed := r.lastUsed }

/-- The stored programs, the most recently used first, or the first key that is no fingerprint. -/
def entries (s : Store) : Except Bytes (List Entry) :=
  (s.rows.mergeSort listedFirst).mapM fun r =>
    match entry? r with
    | some e => .ok e
    | none => .error r.key

/-- Compile a text, taking the program from the store if it is there and storing it if not. A text
that does not compile gives what was found. -/
def compile (s : Store) (name source : Bytes) (now : Int64) :
    Store × Except Crash (Except Compilation Code) :=
  let (fingerprint, parsed) := sourceFingerprint source
  let (s, found) := if parsed then s.get (keyText fingerprint) now else (s, none)
  match found with
  | some code => (s, .ok (.ok code))
  | none =>
    match LyaLang.compile source with
    | .error crash => (s, .error crash)
    | .ok compilation =>
      match compilation.result with
      | .error _ => (s, .ok (.error compilation))
      | .ok code => (s.put (keyText fingerprint) name code now, .ok (.ok code))

end Store

end LyaLang.Cache
