import LyaLang.Text.Bytes

/-! # The worker

Many clients act on one workspace, and a worker applies their actions to it. A call offers its action to a bounded
queue, and waits for the answer that the worker leaves for it. Once the worker is told to stop, a call that has not
returned may give up at any moment. What clients, worker and stop do in which order is up to chance: a step is what
one of them does next.
-/

namespace LyaLang.Editor.Worker

/-- Why a call comes to nothing: the worker was stopped, or the action panicked. -/
inductive Failure where
  | stopped
  | panicked (text : Bytes)
deriving DecidableEq, Repr

/-- What a client wants done with a workspace: it leaves a workspace, and a value or the text of a panic. -/
abbrev Action (W V : Type) := W → W × Except Bytes V

/-- How far a call is: before its first look at whether the worker is stopped, at the queue, at its answer, or over. -/
inductive Stage where
  | called
  | offering
  | waiting
  | returned
deriving DecidableEq, Repr

/-- A call, with the room for one answer. -/
structure Call (W V : Type) where
  action : Action W V
  stage : Stage := .called
  answer : Option (Except Bytes V) := none

/-- What the worker is at. A call is named by its number. -/
inductive Task (V : Type) where
  | idle
  | running (call : Nat)
  | answering (call : Nat) (answer : Except Bytes V)
  | gone

structure State (W V : Type) where
  workspace : W
  calls : List (Call W V) := []
  /-- The calls whose actions wait to be applied. -/
  queue : List Nat := []
  task : Task V := .idle
  stopped : Bool := false

/-- What happens in a step. -/
inductive Event (W V : Type) where
  | called (action : Action W V)
  | passed (call : Nat)
  | entered (call : Nat)
  | returned (call : Nat) (outcome : Except Failure V)
  | started (call : Nat)
  | applied (call : Nat) (action : Action W V)
  | answered (call : Nat)
  | left
  | stopped
  | stopReturned

/-- The number of actions that may wait. -/
def queueLimit : Nat := 64

variable {W V : Type}

def State.set (s : State W V) (i : Nat) (c : Call W V) : State W V := { s with calls := s.calls.set i c }

inductive Step : State W V → Event W V → State W V → Prop where
  | call {s} (action) : Step s (.called action) { s with calls := s.calls ++ [{ action }] }
  | pass {s : State W V} {i c} (isCall : s.calls[i]? = some c) (stage : c.stage = .called) (runs : s.stopped = false) :
      Step s (.passed i) (s.set i { c with stage := .offering })
  | enter {s : State W V} {i c} (isCall : s.calls[i]? = some c) (stage : c.stage = .offering)
      (room : s.queue.length < queueLimit) :
      Step s (.entered i) { s.set i { c with stage := .waiting } with queue := s.queue ++ [i] }
  | receive {s : State W V} {i c r} (isCall : s.calls[i]? = some c) (stage : c.stage = .waiting)
      (answer : c.answer = some r) :
      Step s (.returned i (r.mapError .panicked)) (s.set i { c with stage := .returned, answer := none })
  | giveUp {s : State W V} {i c} (isCall : s.calls[i]? = some c) (stage : c.stage ≠ .returned) (stops : s.stopped = true) :
      Step s (.returned i (.error .stopped)) (s.set i { c with stage := .returned })
  | start {s : State W V} {i rest} (idle : s.task = .idle) (first : s.queue = i :: rest) :
      Step s (.started i) { s with queue := rest, task := .running i }
  | apply {s : State W V} {i c} (running : s.task = .running i) (isCall : s.calls[i]? = some c) :
      Step s (.applied i c.action)
        { s with workspace := (c.action s.workspace).1, task := .answering i (c.action s.workspace).2 }
  | answer {s : State W V} {i c r} (answering : s.task = .answering i r) (isCall : s.calls[i]? = some c) :
      Step s (.answered i) { s.set i { c with answer := some r } with task := .idle }
  | leave {s : State W V} (idle : s.task = .idle) (stops : s.stopped = true) : Step s .left { s with task := .gone }
  | stop {s : State W V} : Step s .stopped { s with stopped := true }
  | stopReturn {s : State W V} (stops : s.stopped = true) : Step s .stopReturned s

/-- The steps from one state to another, with what happens in them. -/
inductive Run : State W V → List (Event W V) → State W V → Prop where
  | nil {s} : Run s [] s
  | cons {s m t e history} (step : Step s e m) (rest : Run m history t) : Run s (e :: history) t

end LyaLang.Editor.Worker
