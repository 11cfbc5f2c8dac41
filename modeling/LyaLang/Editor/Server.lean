import LyaLang.Editor.Document

/-! # The language server

The server keeps the open documents and answers questions about them: what a name denotes, how a word
may go on, where a name is declared and where it is used. A document that cannot be analyzed leaves
the one before it in place. After a shutdown nothing is analyzed any more.
-/

namespace LyaLang.Editor

open Ast

def serverName : String := "lya-lsp"

/-- What the server offers: how documents are kept in step (by full text), and which questions it
answers. -/
structure Capabilities where
  openClose : Bool := true
  /-- The way changes arrive: 1 stands for the full text. -/
  change : Nat := 1
  completion : Bool := true
  hover : Bool := true
  definition : Bool := true
  references : Bool := true

/-- The state of the server. -/
structure Server where
  version : Bytes
  documents : List (Bytes × Document) := []
  stopped : Bool := false

/-- What a word may go on to: a label, the number of its kind, and a description. -/
structure Completion where
  label : Bytes
  kind : Nat
  detail : Bytes
deriving DecidableEq, Repr

/-- What is shown about a name. -/
structure Hover where
  text : Bytes
  area : Option Area
deriving DecidableEq, Repr

/-- The diagnostics that are published for a document. -/
structure Publication where
  uri : Bytes
  diagnostics : List Diagnostic
deriving DecidableEq, Repr

/-- A change of a document: its full text, or the text of a stretch. -/
inductive Change where
  | full (text : Bytes)
  | part (area : Area) (text : Bytes)
deriving DecidableEq, Repr

def Publication.method : String := "textDocument/publishDiagnostics"

def Diagnostic.severity : Nat := 1

namespace Server

def document? (s : Server) (uri : Bytes) : Option Document :=
  if s.stopped then none else (s.documents.find? fun entry => entry.1 == uri).map (·.2)

/-- Take in a text under an address; nothing is published if it cannot be analyzed. -/
def update (s : Server) (uri text : Bytes) : Server × Option Publication :=
  if s.stopped then (s, none)
  else match Document.analyze? uri text with
    | none => (s, none)
    | some d =>
      ({ s with documents := (uri, d) :: s.documents.filter fun entry => entry.1 != uri },
        some ⟨uri, d.diagnostics⟩)

/-- Take in changes: the last one counts, if it holds the full text. -/
def change (s : Server) (uri : Bytes) (changes : List Change) : Server × Option Publication :=
  match changes.getLast? with
  | some (.full text) => s.update uri text
  | _ => (s, none)

def close (s : Server) (uri : Bytes) : Server × Publication :=
  let documents := if s.stopped then s.documents else s.documents.filter fun entry => entry.1 != uri
  ({ s with documents }, ⟨uri, []⟩)

/-- Stop analyzing. -/
def shutdown (s : Server) : Server := { s with stopped := true }

end Server

def predefinedSymbols : List Symbol := Context.fresh.environment.root.symbols

def completionKind : Category → Nat
  | .mode => 7
  | .procedure => 3
  | .synonym => 21
  | _ => 6

def keywordKind : Nat := 14

def maxCompletions : Nat := 100

/-- How the word before a place may go on: by symbols of the document, predefined symbols, and
keywords if the word has begun. -/
def completions (d : Document) (p : Place) : List Completion :=
  let word := (wordAround d.text p).1
  let start := Text.toLower word
  let fits (name : Bytes) : Bool := Bytes.startsWith (Text.toLower name) start
  let symbols := (d.symbols ++ predefinedSymbols).filter fun s => fits s.name
  let words := if word.isEmpty then [] else keywords.filter fits
  let named : List Completion := symbols.map fun s => ⟨s.name, completionKind s.category, s.summary⟩
  let reserved : List Completion := words.map fun w => ⟨w, keywordKind, "keyword"⟩
  (named ++ reserved).take maxCompletions

def hoverText (s : Symbol) : Bytes :=
  let origin :=
    if s.line > 0 then ("\n\nDeclared on line " : Bytes) ++ Text.ofInt64 s.line else "\n\nBuiltin"
  let storage :=
    if s.category.hasStorage then
      ("; frame level " : Bytes) ++ Text.ofInt64 s.level ++ (", offset " : Bytes) ++ Text.ofInt64 s.offset
    else []
  ("```lya\n" : Bytes) ++ s.summary ++ ("\n```" : Bytes) ++ origin ++ storage

/-- What is shown at a place: about the symbol of the name there, or about a predefined symbol of the
same spelling as the word there. -/
def hover? (d : Document) (p : Place) : Option Hover := do
  let ident := d.identAt? p
  let area := ident.map Document.areaOf
  match ident.bind (·.note.symbol) with
  | some symbol => return ⟨hoverText symbol, area⟩
  | none =>
    let (before, after) := wordAround d.text p
    let word := before ++ after
    if word.isEmpty then none
    let symbol ← predefinedSymbols.find? fun s => Text.equalFold s.name word
    return ⟨hoverText symbol, area⟩

def definitions (d : Document) (p : Place) : List Area :=
  match (d.identAt? p).bind (·.note.symbol) with
  | none => []
  | some symbol => ((d.declaration? symbol).map Document.areaOf).toList

def referenceAreas (d : Document) (p : Place) (withDeclaration : Bool) : List Area :=
  match (d.identAt? p).bind (·.note.symbol) with
  | none => []
  | some symbol =>
    ((d.references symbol).filter fun i => withDeclaration || !Document.declares i).map Document.areaOf

/-- The answer to a request for completions; a stopped server refuses. -/
def Server.complete (s : Server) (uri : Bytes) (p : Place) : Except String (List Completion) :=
  if s.stopped then .error "worker stopped"
  else .ok (((s.document? uri).map fun d => completions d p).getD [])

/-- The answer to a request for a description. -/
def Server.hover (s : Server) (uri : Bytes) (p : Place) : Option Hover :=
  (s.document? uri).bind fun d => hover? d p

/-- The answer to a request for a declaration. -/
def Server.definition (s : Server) (uri : Bytes) (p : Place) : List Area :=
  ((s.document? uri).map fun d => definitions d p).getD []

/-- The answer to a request for uses. -/
def Server.references (s : Server) (uri : Bytes) (p : Place) (withDeclaration : Bool) : List Area :=
  ((s.document? uri).map fun d => referenceAreas d p withDeclaration).getD []

/-- What an editor tells or asks the server. -/
inductive Request where
  | opened (uri text : Bytes)
  | changed (uri : Bytes) (changes : List Change)
  | closed (uri : Bytes)
  | complete (uri : Bytes) (p : Place)
  | hover (uri : Bytes) (p : Place)
  | definition (uri : Bytes) (p : Place)
  | references (uri : Bytes) (p : Place) (withDeclaration : Bool)

/-- What the server answers. -/
inductive Reply where
  | published (p : Option Publication)
  | completions (found : Except String (List Completion))
  | hover (found : Option Hover)
  | areas (found : List Area)

def Server.handle (s : Server) : Request → Server × Reply
  | .opened uri text => (s.update uri text).map id .published
  | .changed uri changes => (s.change uri changes).map id .published
  | .closed uri => (s.close uri).map id (.published ∘ some)
  | .complete uri p => (s, .completions (s.complete uri p))
  | .hover uri p => (s, .hover (s.hover uri p))
  | .definition uri p => (s, .areas (s.definition uri p))
  | .references uri p withDeclaration => (s, .areas (s.references uri p withDeclaration))

end LyaLang.Editor
