import LyaLang.Toml.Grammar

/-! # TOML documents

The statements of a document build one table. A heading opens a table, and the tables on the way to it
come into being with it; such a table, and one that a dotted key goes through, stays open for one
heading of its own. A key that has a value may not be given another.
-/

namespace LyaLang.Toml

/-- A value of a document. A list of tables grows by headings, and a path leads into its last table. -/
inductive Node where
  | text (value : Bytes)
  | integer (value : Int64)
  | float (source : Bytes)
  | boolean (value : Bool)
  | moment (source : Bytes)
  | list (items : List Node)
  | table (entries : List (Bytes × Node))
  | tables (before : List (List (Bytes × Node))) (last : List (Bytes × Node))

abbrev Table := List (Bytes × Node)

namespace Table

def get? (t : Table) (name : Bytes) : Option Node := (t.find? fun entry => entry.1 == name).map (·.2)

def set (t : Table) (name : Bytes) (node : Node) : Table :=
  if t.any fun entry => entry.1 == name then
    t.map fun entry => if entry.1 == name then (name, node) else entry
  else t ++ [(name, node)]

/-- Change the table that a path leads to, making the tables on the way; there is none if the path leads
through another value. -/
def alter? (f : Table → Option Table) : Key → Table → Option Table
  | [], t => f t
  | name :: rest, t =>
    match t.get? name with
    | none => do return t.set name (.table (← alter? f rest []))
    | some (.table inner) => do return t.set name (.table (← alter? f rest inner))
    | some (.tables before last) => do return t.set name (.tables before (← alter? f rest last))
    | some _ => none

/-- Whether a path leads to a value. -/
def has : Key → Table → Bool
  | [], _ => true
  | name :: rest, t =>
    match t.get? name with
    | some (.table inner) => has rest inner
    | some (.tables _ last) => has rest last
    | some _ => rest.isEmpty
    | none => false

end Table

/-- A document under construction. -/
structure Document where
  root : Table := []
  context : Key := []
  /-- The tables that are still open for a heading. -/
  implicit : List Key := []
  lists : List Key := []
  keys : List Key := []

namespace Document

/-- Leave a table open for a heading. -/
def addImplicit (key : Key) (d : Document) : Document :=
  if d.implicit.contains key then d else { d with implicit := key :: d.implicit }

/-- Close a table for headings. -/
def removeImplicit (key : Key) (d : Document) : Document :=
  { d with implicit := d.implicit.filter (· != key) }

def setKind (key : Key) (isList : Bool) (d : Document) : Document :=
  let others := d.lists.filter (· != key)
  { d with lists := if isList then key :: others else others }

/-- Note whether a name of the context holds a list. For an empty name the note stands with the table
around it, if there is one. -/
def setKindOf (name : Bytes) (isList : Bool) (d : Document) : Document :=
  d.setKind (if name.isEmpty && !d.context.isEmpty then d.context else d.context ++ [name]) isList

def addKey (key : Key) (d : Document) : Document := { d with keys := d.keys ++ [key] }

/-- Give a value to a name in the context. A name that has one keeps it and must still be open; only a
list gives way. -/
def setValue (name : Bytes) (node : Node) (d : Document) : Option Document := do
  let key := d.context ++ [name]
  let isList := d.lists.contains key
  let isOpen := d.implicit.contains key
  let root ← d.root.alter? (fun t =>
    if (t.get? name).isNone then some (t.set name node)
    else if !isOpen then none
    else some (if isList then t.set name node else t)) d.context
  let d' := { d with root }
  return if d.root.has key then d'.removeImplicit key else d'

def beginnings (key : Key) : List Key := (List.range key.length).map fun n => key.take (n + 1)

def enter (key : Key) (isElement : Bool) (d : Document) : Option Document := do
  let parents := key.dropLast
  let name := key.getLastD []
  let missing := (beginnings parents).filter fun k => !d.root.has k
  let d := missing.foldl (fun d k => d.addImplicit k) d
  let d := { d with root := ← d.root.alter? some parents, context := parents }
  let d ←
    if isElement then do
      let root ← d.root.alter? (fun t =>
        match t.get? name with
        | none => some (t.set name (.tables [] []))
        | some (.tables before last) => some (t.set name (.tables (before ++ [last]) []))
        | some _ => none) parents
      pure { d with root }
    else d.setValue name (.table [])
  return { d with context := key }

def enterParents (parents : Key) (d : Document) : Option Document :=
  parents.foldlM (fun d part => (d.addImplicit (d.context ++ [part])).enter (d.context ++ [part]) false) d

mutual

/-- The value of a literal under a name of the context. Inline tables are entered on the way. -/
def value (name : Bytes) (inList : Bool) : Literal → Document → Option (Node × Document)
  | .text t, d => some (.text t, d)
  | .integer i, d => some (.integer i, d)
  | .float s, d => some (.float s, d)
  | .boolean b, d => some (.boolean b, d)
  | .moment s, d => some (.moment s, d)
  | .array items, d => do
    let (nodes, d) ← values name items (d.setKindOf name true)
    return (.list nodes, d)
  | .table pairs, d => do
    let inner := d.context ++ [name]
    let entered ← (d.addImplicit inner).enter inner inList
    let (entries, filled) ← entries inner pairs [] entered
    return (.table entries, { filled with context := d.context })

def values (name : Bytes) : List Literal → Document → Option (List Node × Document)
  | [], d => some ([], d)
  | item :: rest, d => do
    let (node, d) ← value name true item d
    let (nodes, d) ← values name rest d
    return (node :: nodes, d)

def entries (context : Key) : List (Key × Literal) → Table → Document → Option (Table × Document)
  | [], t, d => some (t, d)
  | (key, literal) :: rest, t, d => do
    let name := key.getLastD []
    let d ← d.enterParents key.dropLast
    let (node, d) ← value name false literal (d.addKey (d.context ++ [name]))
    let d ← d.setValue name node
    let d := d.setKindOf name (node matches .list _)
    let t ← t.alter? (fun inner => some (inner.set name node)) key.dropLast
    entries context rest t { d with context }

end

def execute (d : Document) : Statement → Option Document
  | .heading key => do return ((← d.enter key false).setKind key false).addKey key
  | .element key => do return ((← d.enter key true).setKind key false).addKey key
  | .assign key literal => do
    let name := key.getLastD []
    let inner ← d.enterParents key.dropLast
    let (node, inner) ← value name false literal (inner.addKey (inner.context ++ [name]))
    let inner ← inner.setValue name node
    return { inner.setKindOf name (node matches .list _) with context := d.context }

/-- Read a document; there is none if the text is malformed or a key is given twice. -/
def read? (source : Bytes) : Option Document := do
  (← statements? source).foldlM execute {}

end Document

end LyaLang.Toml
