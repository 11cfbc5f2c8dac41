import LyaLang.Scope.Symbol
import LyaLang.Text.Utf8

/-! # Scopes

The environment is a stack of scopes that always holds the root. Names are looked up from the
innermost scope outward and without regard to case. A procedure opens a frame of its own, one display
level deeper; a block allocates in the frame around it, and the words of a closed block are given
out again. The size of a frame is the most that was ever in use at once.
-/

namespace LyaLang

/-- A name of a scope with the symbol first and the symbol last declared under it. -/
structure ScopeEntry where
  key : Bytes
  first : Symbol
  current : Symbol
deriving DecidableEq, Repr

/-- One scope. Entries are in the order of their first declaration. -/
structure Scope where
  entries : List ScopeEntry := []
  /-- The offset of the next word to give out. -/
  next : Int64 := 0
  level : Int64 := 0
  /-- The procedure whose body the scope belongs to. -/
  owner : Option Symbol := none
  opensFrame : Bool := true
  /-- The size of the frame so far, if the scope opened it. -/
  highWater : Int64 := 0
deriving DecidableEq, Repr, Inhabited

namespace Scope

def keyOf (name : Bytes) : Bytes := Text.toLower name

def find? (s : Scope) (name : Bytes) : Option Symbol :=
  (s.entries.find? fun e => e.key == keyOf name).map (·.current)

def insertEntry (key : Bytes) (symbol : Symbol) : List ScopeEntry → List ScopeEntry
  | [] => [⟨key, symbol, symbol⟩]
  | e :: rest =>
    if e.key == key then { e with current := symbol } :: rest else e :: insertEntry key symbol rest

def insert (s : Scope) (name : Bytes) (symbol : Symbol) : Scope :=
  { s with entries := insertEntry (keyOf name) symbol s.entries }

/-- The symbols in the order of their declaration; a name declared twice shows its first symbol. -/
def symbols (s : Scope) : List Symbol := s.entries.map (·.first)

def mapSymbols (f : Symbol → Symbol) (s : Scope) : Scope :=
  { s with
    entries := s.entries.map fun e => { e with first := f e.first, current := f e.current }
    owner := s.owner.map f }

end Scope

/-- The stack of scopes: the innermost one and those around it, the root last. -/
structure Environment where
  inner : Scope := {}
  outer : List Scope := []
deriving DecidableEq, Repr, Inhabited

namespace Environment

def scopes (e : Environment) : List Scope := e.inner :: e.outer

/-- The number of scopes. -/
def depth (e : Environment) : Nat := e.outer.length + 1

def root (e : Environment) : Scope := e.outer.getLast?.getD e.inner

def frameScope (e : Environment) : Scope :=
  (e.scopes.find? (·.opensFrame)).getD e.root

def frameSize (e : Environment) : Int64 := e.frameScope.highWater

/-- Open a frame one display level deeper. -/
def push (e : Environment) (owner : Option Symbol) : Environment :=
  { inner := { owner, level := e.inner.level + 1 }, outer := e.inner :: e.outer }

/-- Open a scope in the innermost frame. Without an owner of its own it has the owner around it. -/
def pushBlock (e : Environment) (owner : Option Symbol) : Environment :=
  { inner :=
      { next := e.inner.next, level := e.inner.level, owner := owner.or e.inner.owner, opensFrame := false },
    outer := e.inner :: e.outer }

/-- Leave the innermost scope; the root is never left. -/
def pop (e : Environment) : Environment :=
  match e.outer with
  | [] => e
  | s :: rest => { inner := s, outer := rest }

/-- The scopes after the frame of the first of them has grown to at least a size. -/
def raise (size : Int64) : List Scope → List Scope
  | [] => []
  | s :: rest =>
    if s.opensFrame then (if size > s.highWater then { s with highWater := size } else s) :: rest
    else s :: raise size rest

/-- Give out words of the innermost frame; the result is the offset of the first. -/
def reserve (e : Environment) (count : Int64) : Environment × Int64 :=
  let next := e.inner.next + count
  match raise next ({ e.inner with next } :: e.outer) with
  | [] => (e, e.inner.next)
  | inner :: outer => ({ inner, outer }, e.inner.next)

def declareAt (e : Environment) (name : Bytes) (symbol : Symbol) (offset level : Int64) :
    Environment × Symbol :=
  let symbol := { symbol with offset, level }
  ({ e with inner := e.inner.insert name symbol }, symbol)

/-- Declare a symbol in the innermost scope. It gets the display level of the scope and, if it has
storage, the next words of the frame. -/
def declare (e : Environment) (name : Bytes) (symbol : Symbol) : Environment × Symbol :=
  if symbol.category.hasStorage then
    let (e, offset) := e.reserve symbol.size
    e.declareAt name symbol offset e.inner.level
  else e.declareAt name symbol symbol.offset e.inner.level

def insertLast (name : Bytes) (symbol : Symbol) : List Scope → List Scope
  | [] => []
  | [s] => [s.insert name symbol]
  | s :: rest => s :: insertLast name symbol rest

def declareRoot (e : Environment) (name : Bytes) (symbol : Symbol) : Environment :=
  match e.outer with
  | [] => { e with inner := e.inner.insert name symbol }
  | outer => { e with outer := insertLast name symbol outer }

def find? (e : Environment) (name : Bytes) : Option Symbol := e.inner.find? name

def lookup? (e : Environment) (name : Bytes) : Option Symbol :=
  e.scopes.findSome? (·.find? name)

def mapSymbols (f : Symbol → Symbol) (e : Environment) : Environment :=
  { inner := e.inner.mapSymbols f, outer := e.outer.map (·.mapSymbols f) }

end Environment

end LyaLang
