import LyaLang.Cache.Store

/-! # Open caches

A handle on a store refuses everything once it is closed, and refuses an action that has been
canceled.
-/

namespace LyaLang.Cache

/-- Why an action on a cache fails. -/
inductive Failure where
  | closed
  /-- The action was canceled while it did what the text says. -/
  | canceled (doing : Bytes)
  | badKey (key : Bytes)
deriving DecidableEq, Repr

def Failure.message : Failure → Bytes
  | closed => "cache closed"
  | canceled doing => doing ++ (": context canceled" : Bytes)
  | badKey key => ("listing: bad key " : Bytes) ++ Text.quote key

/-- A store that may have been closed. -/
structure Handle where
  store : Store := {}
  isOpen : Bool := true

namespace Handle

/-- Let an action through if the handle is open and the action is not canceled. -/
def pass (h : Handle) (canceled : Bool) (doing : Bytes) : Except Failure Store :=
  if !h.isOpen then .error .closed
  else if canceled then .error (.canceled doing)
  else .ok h.store

def get (h : Handle) (canceled : Bool) (key : Bytes) (now : Int64) : Handle × Except Failure (Option Code) :=
  match h.pass canceled (("loading " : Bytes) ++ key) with
  | .error e => (h, .error e)
  | .ok store =>
    let (store, code) := store.get key now
    ({ h with store }, .ok code)

/-- Store a program. -/
def put (h : Handle) (canceled : Bool) (key name : Bytes) (code : Code) (now : Int64) :
    Handle × Except Failure Unit :=
  match h.pass canceled (("storing " : Bytes) ++ key) with
  | .error e => (h, .error e)
  | .ok store => ({ h with store := store.put key name code now }, .ok ())

/-- Drop everything last used before a time, and count it. -/
def prune (h : Handle) (canceled : Bool) (cutoff : Int64) : Handle × Except Failure Nat :=
  match h.pass canceled "pruning" with
  | .error e => (h, .error e)
  | .ok store =>
    let (store, count) := store.prune cutoff
    ({ h with store }, .ok count)

/-- The stored programs, the most recently used first. -/
def entries (h : Handle) (canceled : Bool) : Except Failure (List Entry) := do
  let store ← h.pass canceled "listing"
  match store.entries with
  | .ok entries => return entries
  | .error key => throw (.badKey key)

def close (h : Handle) : Handle := { h with isOpen := false }

def reopen (h : Handle) : Handle := { h with isOpen := true }

end Handle

end LyaLang.Cache
