import LyaLang.Files.Host
import LyaLang.Toml.Document

/-! # Manifests

A manifest describes a project: its name and entry, the resources of the machine, and the compile
cache. It stands in a TOML file in the folder of the project and holds for the folders below. The
names of sections and fields may be written in any case; what is not known is refused.
-/

namespace LyaLang

/-- A project. -/
structure Manifest where
  folder : Bytes
  name : Bytes := []
  version : Bytes := []
  entry : Bytes := "main.lya"
  memory : Int64 := 0
  maxSteps : Int64 := 0
  trace : Bool := false
  cacheEnabled : Bool := true
  cachePath : Bytes := ".lya/cache.db"
deriving DecidableEq, Repr

/-- Why there is no manifest. -/
inductive ManifestError where
  | unreadable (path : Bytes) (cause : FileError)
  | unreachable (cause : FileError)
  | uncreated (path : Bytes) (cause : FileError)
  | malformed (path : Bytes)
  | unknownKey (path : Bytes) (key : Toml.Key)
  | negative (path : Bytes)
deriving DecidableEq, Repr

def ManifestError.message : ManifestError → Bytes
  | unreadable path cause => ("cannot read " : Bytes) ++ path ++ (": " : Bytes) ++ cause.message
  | unreachable cause => cause.message
  | uncreated path cause => ("cannot create " : Bytes) ++ path ++ (": " : Bytes) ++ cause.message
  | malformed path => ("parse error in " : Bytes) ++ path
  | unknownKey path key => path ++ (": unknown key " : Bytes) ++ key.text
  | negative path => path ++ (": vm memory and max-steps must not be negative" : Bytes)

namespace Manifest

def fileName : Bytes := "lya.toml"

/-- A field of a manifest, and how a value is put into it, if it has the right type. -/
structure Field where
  name : String
  set : Toml.Node → Manifest → Option Manifest

def textField (name : String) (set : Bytes → Manifest → Manifest) : Field :=
  ⟨name, fun node m => match node with | .text t => some (set t m) | _ => none⟩

def integerField (name : String) (set : Int64 → Manifest → Manifest) : Field :=
  ⟨name, fun node m => match node with | .integer i => some (set i m) | _ => none⟩

def booleanField (name : String) (set : Bool → Manifest → Manifest) : Field :=
  ⟨name, fun node m => match node with | .boolean b => some (set b m) | _ => none⟩

def sections : List (String × List Field) := [
  ("project", [
    textField "name" fun t m => { m with name := t },
    textField "version" fun t m => { m with version := t },
    textField "entry" fun t m => { m with entry := t }]),
  ("vm", [
    integerField "memory" fun i m => { m with memory := i },
    integerField "max-steps" fun i m => { m with maxSteps := i },
    booleanField "trace" fun b m => { m with trace := b }]),
  ("cache", [
    booleanField "enabled" fun b m => { m with cacheEnabled := b },
    textField "path" fun t m => { m with cachePath := t }])]

def section? (name : Bytes) : Option (List Field) :=
  (sections.find? fun s => Text.equalFold s.1 name).map (·.2)

def field? (fields : List Field) (name : Bytes) : Option Field :=
  fields.find? fun f => Text.equalFold f.name name

def takenKeys (root : Toml.Table) : List Toml.Key :=
  root.flatMap fun (top, node) =>
    match section? top, node with
    | some fields, .table entries =>
      [top] :: (entries.filter fun entry => (field? fields entry.1).isSome).map fun entry => [top, entry.1]
    | _, _ => []

/-- Put the entries of a section into a manifest; unknown ones are passed over. -/
def fill (fields : List Field) (m : Manifest) (entries : Toml.Table) : Option Manifest :=
  entries.foldlM (fun m (name, node) =>
    match field? fields name with
    | some field => field.set node m
    | none => some m) m

/-- Put a document into a manifest; unknown sections are passed over. -/
def fillSections (m : Manifest) (root : Toml.Table) : Option Manifest :=
  root.foldlM (fun m (name, node) =>
    match section? name, node with
    | none, _ => some m
    | some fields, .table entries => fill fields m entries
    | some _, _ => none) m

def decode (folder path data : Bytes) : Except ManifestError Manifest := do
  let some doc := Toml.Document.read? data | throw (.malformed path)
  let some m := fillSections { folder } doc.root | throw (.malformed path)
  let taken := takenKeys doc.root
  if let some key := doc.keys.find? (!taken.contains ·) then throw (.unknownKey path key)
  if m.memory < 0 || m.maxSteps < 0 then throw (.negative path)
  return if m.cachePath.isEmpty then { m with cachePath := ({ folder : Manifest }).cachePath } else m

def line (name : String) (value : Bytes) : Bytes :=
  ("  " : Bytes) ++ (name : Bytes) ++ (" = " : Bytes) ++ value ++ ("\n" : Bytes)

def truth (b : Bool) : Bytes := if b then "true" else "false"

/-- The file that describes a manifest. An empty version and a trace that is off are left out. -/
def encode (m : Manifest) : Bytes :=
  ("[project]\n" : Bytes) ++ line "name" (Toml.quote m.name) ++
    (if m.version.isEmpty then [] else line "version" (Toml.quote m.version)) ++
    line "entry" (Toml.quote m.entry) ++
  ("\n[vm]\n" : Bytes) ++ line "memory" (Text.ofInt64 m.memory) ++
    line "max-steps" (Text.ofInt64 m.maxSteps) ++
    (if m.trace then line "trace" (truth m.trace) else []) ++
  ("\n[cache]\n" : Bytes) ++ line "enabled" (truth m.cacheEnabled) ++ line "path" (Toml.quote m.cachePath)

def resolve (m : Manifest) (path : Bytes) : Bytes :=
  if path.isEmpty then [] else Path.within m.folder path

/-- The main source file, as an absolute path. -/
def entryPath (m : Manifest) : Bytes := m.resolve m.entry

def cacheFile (m : Manifest) : Bytes := m.resolve m.cachePath

variable {m : Type → Type} [Monad m] [Host m]

def load (folder : Bytes) : m (Except ManifestError Manifest) := do
  let path := Path.join folder fileName
  match ← Host.read path with
  | .error e => return .error (.unreadable path e)
  | .ok data => return decode (← Host.absolute folder) path data

def findIn : List Bytes → m (Except ManifestError (Option Manifest))
  | [] => return .ok none
  | folder :: rest => do
    match ← Host.stat (Path.join folder fileName) with
    | .ok _ => return (← load folder).map some
    | .error e => if e.fault == .missing then findIn rest else return .error (.unreachable e)

/-- Load the manifest that holds for a folder: the one in it or in the nearest folder above. -/
def find (folder : Bytes) : m (Except ManifestError (Option Manifest)) := do
  findIn (Path.ancestors (← Host.absolute folder))

def save (manifest : Manifest) (folder : Bytes) : m (Except ManifestError Unit) := do
  let path := Path.join folder fileName
  match ← Host.create path manifest.encode with
  | .error e => return .error (.uncreated path e)
  | .ok () => return .ok ()

end Manifest

end LyaLang
