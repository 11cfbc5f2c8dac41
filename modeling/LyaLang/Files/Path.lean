import LyaLang.Text.Bytes

/-! # Paths

A path is text whose parts stand between slashes. It is absolute if it starts with a slash. A clean
path has no empty part, no `.`, and `..` only at the front of a relative path.
-/

namespace LyaLang.Path

def slash : UInt8 := 0x2F

def parts (path : Bytes) : List Bytes := Bytes.split slash path

def isAbsolute (path : Bytes) : Bool := path.head? == some slash

/-- Add a part to the clean parts before it, the last of which stands first. -/
def push (rooted : Bool) (stack : List Bytes) (part : Bytes) : List Bytes :=
  if part.isEmpty || part == "." then stack
  else if part == ".." then
    match stack with
    | [] => if rooted then [] else [".."]
    | top :: rest => if top == ".." then ".." :: stack else rest
  else part :: stack

/-- The shortest path with the same meaning, as far as the text alone tells. -/
def clean (path : Bytes) : Bytes :=
  let rooted := isAbsolute path
  let body := Bytes.join [slash] ((parts path).foldl (push rooted) []).reverse
  if rooted then slash :: body else if body.isEmpty then "." else body

def join (folder path : Bytes) : Bytes :=
  if folder.isEmpty then
    if path.isEmpty then [] else clean path
  else clean (folder ++ slash :: path)

/-- Everything up to the last slash, and everything after it. -/
def cutLast (path : Bytes) : Bytes × Bytes :=
  let name := (path.reverse.takeWhile (· != slash)).reverse
  (path.take (path.length - name.length), name)

def folder (path : Bytes) : Bytes := clean (cutLast path).1

def baseName (path : Bytes) : Bytes :=
  if path.isEmpty then "."
  else
    let name := (cutLast (Bytes.dropRightWhile (· == slash) path)).2
    if name.isEmpty then [slash] else name

/-- The path without the extension of its last part, which starts at the last dot. -/
def dropExtension (path : Bytes) : Bytes :=
  let (front, name) := cutLast path
  let extension := name.reverse.takeWhile (· != 0x2E)
  if extension.length == name.length then path
  else front ++ name.take (name.length - extension.length - 1)

def within (folder path : Bytes) : Bytes := if isAbsolute path then path else join folder path

/-- An absolute path and the folders above it, up to the root. -/
def ancestors (path : Bytes) : List Bytes :=
  let names := (parts path).filter (!·.isEmpty)
  (List.range (names.length + 1)).map fun n =>
    slash :: Bytes.join [slash] (names.take (names.length - n))

end LyaLang.Path
