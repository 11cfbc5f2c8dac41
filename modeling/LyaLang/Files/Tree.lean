import LyaLang.Files.Path

/-! # File trees

A file tree holds files and folders under their routes from the root, which is always a folder. A path
is followed part by part: every part but the last must name a folder, and `..` leads to the folder
above. A name has at most 255 bytes, a path fewer than 4096, and neither has a zero byte. What goes
wrong is told with the action and the path.
-/

namespace LyaLang

/-- Why a file action fails. -/
inductive FileFault where
  | missing | notFolder | isFolder | taken | badName | longName
deriving DecidableEq, Repr

def FileFault.message : FileFault → String
  | missing => "no such file or directory"
  | notFolder => "not a directory"
  | isFolder => "is a directory"
  | taken => "file exists"
  | badName => "invalid argument"
  | longName => "file name too long"

/-- A failed action on a path. -/
structure FileError where
  action : String
  path : Bytes
  fault : FileFault
deriving DecidableEq, Repr

def FileError.message (e : FileError) : Bytes :=
  (e.action : Bytes) ++ (" " : Bytes) ++ e.path ++ (": " : Bytes) ++ (e.fault.message : Bytes)

/-- The parts that lead from the root to a file or folder. -/
abbrev Route := List Bytes

def Route.beginnings (route : Route) : List Route :=
  (List.range route.length).map fun n => route.take (n + 1)

/-- What a route leads to. -/
inductive FileItem where
  | file (data : Bytes)
  | folder
deriving DecidableEq, Repr

/-- Files and folders by route. -/
structure FileTree where
  items : List (Route × FileItem) := []

namespace FileTree

def item? (t : FileTree) (route : Route) : Option FileItem :=
  if route.isEmpty then some .folder else (t.items.find? fun entry => entry.1 == route).map (·.2)

def put (t : FileTree) (route : Route) (item : FileItem) : FileTree :=
  ⟨(t.items.filter fun entry => entry.1 != route) ++ [(route, item)]⟩

def putFolders (t : FileTree) (route : Route) : FileTree :=
  (Route.beginnings route).foldl (fun t r => if (t.item? r).isSome then t else t.put r .folder) t

def putFile (t : FileTree) (route : Route) (data : Bytes) : FileTree :=
  (t.putFolders route.dropLast).put route (.file data)

def follow (t : FileTree) : Route → List Bytes → Except FileFault Route
  | route, [] => .ok route
  | route, part :: rest =>
    match t.item? route with
    | none => .error .missing
    | some (.file _) => .error .notFolder
    | some .folder =>
      if part.isEmpty || part == "." then t.follow route rest
      else if part == ".." then t.follow route.dropLast rest
      else if 255 < part.length then .error .longName
      else t.follow (route ++ [part]) rest

def locate (t : FileTree) (start : Route) (path : Bytes) : Except FileFault Route :=
  if path.isEmpty then .error .missing
  else if path.contains 0 then .error .badName
  else if 4096 ≤ path.length then .error .longName
  else t.follow (if Path.isAbsolute path then [] else start) (Path.parts path)

def blame {α : Type} (action : String) (path : Bytes) : Except FileFault α → Except FileError α
  | .ok value => .ok value
  | .error fault => .error ⟨action, path, fault⟩

def stat (t : FileTree) (start : Route) (path : Bytes) : Except FileError Bool :=
  blame "stat" path do
    match t.item? (← t.locate start path) with
    | none => throw .missing
    | some item => return item == .folder

def read (t : FileTree) (start : Route) (path : Bytes) : Except FileError Bytes := do
  let item ← blame "open" path do
    match t.item? (← t.locate start path) with
    | none => throw .missing
    | some item => return item
  match item with
  | .file data => return data
  | .folder => throw ⟨"read", path, .isFolder⟩

def write (t : FileTree) (start : Route) (path data : Bytes) : Except FileError FileTree :=
  blame "open" path do
    let route ← t.locate start path
    if t.item? route == some .folder then throw .isFolder
    return t.put route (.file data)

def create (t : FileTree) (start : Route) (path data : Bytes) : Except FileError FileTree :=
  blame "open" path do
    let route ← t.locate start path
    if (t.item? route).isSome then throw .taken
    return t.put route (.file data)

def makeFolder (start : Route) (t : FileTree) (path : Bytes) : Except FileError FileTree :=
  match t.stat start path with
  | .ok true => .ok t
  | .ok false => .error ⟨"mkdir", path, .notFolder⟩
  | .error _ => blame "mkdir" path do return t.put (← t.locate start path) .folder

/-- The tree after making the folders of a clean path, one by one from the top. -/
def makeFolders (t : FileTree) (start : Route) (path : Bytes) : Except FileError FileTree :=
  let heads := (Route.beginnings (Path.parts path)).map (Bytes.join [Path.slash])
  (heads.filter (!·.isEmpty)).foldlM (makeFolder start) t

def filesBelow (t : FileTree) (route : Route) : List Bytes :=
  let below := t.items.filterMap fun (r, item) =>
    match item with
    | .file _ => if route.isPrefixOf r then some (Bytes.join [Path.slash] (r.drop route.length)) else none
    | .folder => none
  below.mergeSort fun a b => !Bytes.before b a

end FileTree

end LyaLang
