import Mathlib
import LyaLang.Editor.Worker

/-! # Actions one after the other

Whatever the order of steps, the worker applies actions in the order in which they entered the queue, each once, and a
call that returns an answer returns that of its own action. Each fact is first proved of one step.
-/

namespace LyaLang.Editor.Worker

variable {W V : Type} {start : W} {history : List (Event W V)} {s t : State W V} {e : Event W V} {i : Nat}

/-! ## What happened so far -/

namespace Event

/-- The call that the event is a move of. -/
def call? : Event W V → Option Nat
  | passed i | entered i | returned i _ => some i
  | _ => none

def action? : Event W V → Option (Action W V)
  | called action => some action
  | _ => none

def entry? : Event W V → Option Nat
  | entered i => some i
  | _ => none

def start? : Event W V → Option Nat
  | started i => some i
  | _ => none

def application? : Event W V → Option (Nat × Action W V)
  | applied i action => some (i, action)
  | _ => none

end Event

/-- The actions of the calls, in the order of the calls: a call is named by its place. -/
def actions (history : List (Event W V)) : List (Action W V) := history.filterMap Event.action?

/-- The calls whose actions entered the queue, in that order. -/
def entries (history : List (Event W V)) : List Nat := history.filterMap Event.entry?

/-- The calls whose actions the worker began to apply. -/
def starts (history : List (Event W V)) : List Nat := history.filterMap Event.start?

/-- The actions that were applied, with their calls. -/
def applications (history : List (Event W V)) : List (Nat × Action W V) := history.filterMap Event.application?

def applied (history : List (Event W V)) : List Nat := (applications history).map (·.1)

/-- A workspace after actions. -/
def after (start : W) (applied : List (Nat × Action W V)) : W := applied.foldl (fun w x => (x.2 w).1) start

/-- The action of a call was applied, and had a result. -/
def Answers (start : W) (history : List (Event W V)) (i : Nat) (result : Except Bytes V) : Prop :=
  ∃ before action later, applications history = before ++ (i, action) :: later ∧ (action (after start before)).2 = result

theorem filterMap_snoc {α : Type} (f : Event W V → Option α) :
    (history ++ [e]).filterMap f = history.filterMap f ++ (f e).toList := by
  rw [List.filterMap_append, List.filterMap_cons]
  cases f e <;> rfl

theorem actions_snoc : actions (history ++ [e]) = actions history ++ e.action?.toList := filterMap_snoc _

theorem entries_snoc : entries (history ++ [e]) = entries history ++ e.entry?.toList := filterMap_snoc _

theorem starts_snoc : starts (history ++ [e]) = starts history ++ e.start?.toList := filterMap_snoc _

theorem applications_snoc : applications (history ++ [e]) = applications history ++ e.application?.toList := filterMap_snoc _

theorem applied_snoc : applied (history ++ [e]) = applied history ++ e.application?.toList.map (·.1) := by
  rw [applied, applications_snoc, List.map_append]
  rfl

theorem applied_append {past later : List (Event W V)} : applied (past ++ later) = applied past ++ applied later := by
  rw [applied, applications, List.filterMap_append, List.map_append]
  rfl

theorem mem_entries : i ∈ entries history ↔ .entered i ∈ history := by
  constructor
  · intro member
    obtain ⟨e, member, isEntry⟩ := List.mem_filterMap.mp member
    cases e <;> cases isEntry
    exact member
  · exact fun member => List.mem_filterMap.mpr ⟨_, member, rfl⟩

/-! ## What one step does -/

def Task.running? : Task V → Option Nat
  | running i => some i
  | _ => none

/-- An answer that is on its way to a call. -/
def State.Holds (s : State W V) (i : Nat) (answer : Except Bytes V) : Prop :=
  s.task = .answering i answer ∨ ∃ c, s.calls[i]? = some c ∧ c.answer = some answer

/-- A call that has not entered the queue. -/
def State.Fresh (s : State W V) (i : Nat) : Prop :=
  ∃ c, s.calls[i]? = some c ∧ (c.stage = .called ∨ c.stage = .offering)

theorem State.getElem?_set {c c' : Call W V} (isCall : s.calls[i]? = some c) (j : Nat) :
    (s.set i c').calls[j]? = if i = j then some c' else s.calls[j]? := by
  have bound := (List.getElem?_eq_some_iff.mp isCall).1
  rw [State.set, List.getElem?_set, if_pos bound]

theorem State.map_set {c c' : Call W V} (isCall : s.calls[i]? = some c) (same : c'.action = c.action) :
    (s.set i c').calls.map (·.action) = s.calls.map (·.action) := by
  refine List.ext_getElem? fun j => ?_
  rw [List.getElem?_map, List.getElem?_map, getElem?_set isCall]
  split
  · rename_i here
    rw [← here, isCall, Option.map_some, Option.map_some, same]
  · rfl

namespace Step

variable (step : Step s e t)

include step

theorem actions_eq : t.calls.map (·.action) = s.calls.map (·.action) ++ e.action?.toList := by
  cases step with
  | call action => exact List.map_append
  | pass isCall | enter isCall | receive isCall | giveUp isCall =>
    refine Eq.trans (State.map_set isCall ?_) (List.append_nil _).symm
    rfl
  | answer _ isCall =>
    refine Eq.trans (State.map_set isCall ?_) (List.append_nil _).symm
    rfl
  | _ => exact (List.append_nil _).symm

theorem known (isCall : e.call? = some i) : i < s.calls.length := by
  cases step with
  | pass found | enter found | receive found | giveUp found =>
    cases isCall
    exact (List.getElem?_eq_some_iff.mp found).1
  | _ => cases isCall

/-- The action under way is the one that is applied next. -/
theorem running_eq : s.task.running?.toList ++ e.start?.toList =
    (e.application?.toList.map (·.1)) ++ t.task.running?.toList := by
  cases step with
  | start idle | leave idle =>
    rw [idle]
    rfl
  | apply running => rw [running]; rfl
  | answer answering => rw [answering]; rfl
  | _ => exact List.append_nil _

/-- The queue is served in its order. -/
theorem queue_eq : s.queue ++ e.entry?.toList = e.start?.toList ++ t.queue := by
  cases step with
  | enter => rfl
  | start _ first => exact (List.append_nil _).trans first
  | _ => exact List.append_nil _

theorem fresh (bound : i < s.calls.length) (fresh : t.Fresh i) : s.Fresh i ∧ e.entry? ≠ some i := by
  unfold State.Fresh at *
  cases step <;> grind [State.set, Event.entry?]

theorem fresh_of_entry (enters : e.entry? = some i) : s.Fresh i := by
  cases step with
  | enter isCall stage =>
    cases enters
    exact ⟨_, isCall, .inr stage⟩
  | _ => cases enters

theorem workspace_eq : t.workspace = after s.workspace e.application?.toList := by
  cases step <;> rfl

theorem own {x : Nat × Action W V} (applies : e.application? = some x) :
    (s.calls.map (·.action))[x.1]? = some x.2 := by
  cases step with
  | apply _ isCall =>
    cases applies
    rw [List.getElem?_map, isCall]
    rfl
  | _ => cases applies

/-- An answer is that of an action that was just applied, or was on its way before. -/
theorem holds {r : Except Bytes V} (holds : t.Holds i r) :
    s.Holds i r ∨ ∃ action, e.application? = some (i, action) ∧ (action s.workspace).2 = r := by
  unfold State.Holds at *
  cases step with
  | apply running isCall =>
    rcases holds with answers | holds
    · cases answers
      exact .inr ⟨_, rfl, rfl⟩
    · exact .inl (.inr holds)
  | _ => grind [State.set]

theorem returned {outcome : Except Failure V} (returns : e = .returned i outcome) (answered : outcome ≠ .error .stopped) :
    ∃ r, s.Holds i r ∧ outcome = r.mapError .panicked := by
  cases step with
  | receive isCall stage answer =>
    cases returns
    exact ⟨_, .inr ⟨_, isCall, answer⟩, rfl⟩
  | giveUp =>
    cases returns
    exact absurd rfl answered
  | _ => cases returns

theorem stopped (stops : s.stopped = true ∨ e = .stopReturned) : t.stopped = true := by
  cases step <;> simp_all [State.set]

/-- A call of a stopped worker that has made no move can only give up. -/
theorem refused {c : Call W V} (stops : s.stopped = true) (isCall : s.calls[i]? = some c)
    (stage : c.stage = .called ∨ c.stage = .returned) :
    (e.call? = some i → e = .returned i (.error .stopped)) ∧ ∃ c', t.calls[i]? = some c' ∧
      (c'.stage = c.stage ∨ c'.stage = .returned ∧ e = .returned i (.error .stopped)) := by
  cases step <;> grind [State.set, Event.call?]

end Step

/-- What every step keeps, every run keeps. -/
theorem Run.keeps {P : List (Event W V) → State W V → Prop} {later : List (Event W V)} (run : Run s later t)
    (step : ∀ {history s e t}, P history s → Step s e t → P (history ++ [e]) t) (history : List (Event W V)) (holds : P history s) : P (history ++ later) t := by
  induction run generalizing history with
  | nil => rwa [List.append_nil]
  | cons first _ ih =>
    rw [List.append_cons]
    exact ih _ (step holds first)

theorem Run.split {past later : List (Event W V)} (run : Run s (past ++ later) t) : ∃ m, Run s past m ∧ Run m later t := by
  induction past generalizing s with
  | nil => exact ⟨s, .nil, run⟩
  | cons e past ih =>
    cases run with
    | cons step rest =>
      obtain ⟨m, front, rest⟩ := ih rest
      exact ⟨m, .cons step front, rest⟩

/-! ## What every run keeps -/

/-- The order of actions. -/
structure Ordered (history : List (Event W V)) (s : State W V) : Prop where
  calls : actions history = s.calls.map (·.action)
  known : ∀ e ∈ history, ∀ i, e.call? = some i → i < s.calls.length
  started : starts history = applied history ++ s.task.running?.toList
  entered : entries history = starts history ++ s.queue
  nodup : (entries history).Nodup
  fresh : ∀ i, s.Fresh i → i ∉ entries history

theorem Ordered.lt_of_mem (ordered : Ordered history s) (member : i ∈ entries history) : i < s.calls.length :=
  ordered.known _ (mem_entries.mp member) i rfl

theorem Ordered.step (ordered : Ordered history s) (step : Step s e t) : Ordered (history ++ [e]) t := by
  have calls : actions (history ++ [e]) = t.calls.map (·.action) := by
    rw [actions_snoc, step.actions_eq, ordered.calls]
  have grows : s.calls.length ≤ t.calls.length := by
    have lengths := congrArg List.length step.actions_eq
    simp only [List.length_map, List.length_append] at lengths
    omega
  refine ⟨calls, fun e' member i isCall => ?_, ?_, ?_, ?_, fun i fresh => ?_⟩
  · rcases List.mem_append.mp member with member | member
    · exact Nat.lt_of_lt_of_le (ordered.known e' member i isCall) grows
    · cases List.mem_singleton.mp member
      exact Nat.lt_of_lt_of_le (step.known isCall) grows
  · rw [starts_snoc, ordered.started, List.append_assoc, step.running_eq, applied_snoc, List.append_assoc]
  · rw [entries_snoc, ordered.entered, List.append_assoc, step.queue_eq, starts_snoc, List.append_assoc]
  · rw [entries_snoc]
    cases enters : e.entry? with
    | none => simpa using ordered.nodup
    | some i =>
      have fresh := ordered.fresh i (step.fresh_of_entry enters)
      exact List.nodup_append.mpr ⟨ordered.nodup, List.nodup_singleton i, fun a member b single same =>
        fresh (List.mem_singleton.mp single ▸ same ▸ member)⟩
  · rw [entries_snoc, List.mem_append, Option.mem_toList, not_or]
    by_cases bound : i < s.calls.length
    · obtain ⟨early, other⟩ := step.fresh bound fresh
      exact ⟨ordered.fresh i early, other⟩
    · refine ⟨fun member => bound (ordered.lt_of_mem member), fun enters => bound ?_⟩
      obtain ⟨c, found, _⟩ := step.fresh_of_entry enters
      exact (List.getElem?_eq_some_iff.mp found).1

/-- The results of actions. -/
structure Answered (start : W) (history : List (Event W V)) (s : State W V) : Prop where
  own : ∀ x ∈ applications history, (s.calls.map (·.action))[x.1]? = some x.2
  workspace : s.workspace = after start (applications history)
  answers : ∀ i r, s.Holds i r → Answers start history i r
  returned : ∀ i outcome, .returned i outcome ∈ history → outcome ≠ .error .stopped →
    ∃ r, Answers start history i r ∧ outcome = r.mapError .panicked

theorem Answers.snoc {r : Except Bytes V} (answers : Answers start history i r) : Answers start (history ++ [e]) i r := by
  obtain ⟨before, action, later, split, result⟩ := answers
  refine ⟨before, action, later ++ e.application?.toList, ?_, result⟩
  rw [applications_snoc, split, List.append_assoc]
  rfl

theorem Answered.step (answered : Answered start history s) (step : Step s e t) : Answered start (history ++ [e]) t := by
  refine ⟨fun x member => ?_, ?_, fun i r holds => ?_, fun i outcome member isAnswer => ?_⟩
  · have own : (s.calls.map (·.action))[x.1]? = some x.2 := by
      rw [applications_snoc, List.mem_append, Option.mem_toList] at member
      exact member.elim (answered.own x) step.own
    rw [step.actions_eq, List.getElem?_append_left (List.getElem?_eq_some_iff.mp own).1, own]
  · rw [step.workspace_eq, answered.workspace, applications_snoc, after, after, after, List.foldl_append]
  · rcases step.holds holds with before | ⟨action, applies, result⟩
    · exact (answered.answers i r before).snoc
    · refine ⟨applications history, action, [], ?_, answered.workspace ▸ result⟩
      rw [applications_snoc, applies]
      rfl
  · rcases List.mem_append.mp member with member | member
    · obtain ⟨r, answers, same⟩ := answered.returned i outcome member isAnswer
      exact ⟨r, answers.snoc, same⟩
    · obtain ⟨r, holds, same⟩ := step.returned (List.mem_singleton.mp member).symm isAnswer
      exact ⟨r, (answered.answers i r holds).snoc, same⟩

theorem Run.ordered (run : Run { workspace := start } history s) : Ordered history s := by
  refine run.keeps Ordered.step [] ⟨rfl, fun e member => ?_, rfl, rfl, List.nodup_nil, fun i _ member => ?_⟩
  · cases member
  · cases member

theorem Run.answered (run : Run { workspace := start } history s) : Answered start history s := by
  refine run.keeps Answered.step [] ⟨fun x member => ?_, rfl, fun i r holds => ?_, fun i outcome member => ?_⟩
  · cases member
  · rcases holds with holds | ⟨c, isCall, _⟩
    · cases holds
    · cases isCall
  · cases member

theorem Run.stopped (run : Run s history t) (stops : s.stopped = true ∨ .stopReturned ∈ history) : t.stopped = true := by
  induction run with
  | nil => exact stops.resolve_right List.not_mem_nil
  | cons step _ ih =>
    refine ih ?_
    rcases stops with stops | member
    · exact .inl (step.stopped (.inl stops))
    · rcases List.mem_cons.mp member with here | later
      · exact .inl (step.stopped (.inr here.symm))
      · exact .inr later

/-- A call of a stopped worker has made no move, or it has returned and made no other. -/
structure Refused (i : Nat) (later : List (Event W V)) (s : State W V) : Prop where
  stops : s.stopped = true
  moves : ∀ e ∈ later, e.call? = some i → e = .returned i (.error .stopped)
  stage : ∃ c, s.calls[i]? = some c ∧ (c.stage = .called ∨ c.stage = .returned ∧ .returned i (.error .stopped) ∈ later)

theorem Refused.step (refused : Refused i history s) (step : Step s e t) : Refused i (history ++ [e]) t := by
  obtain ⟨stops, moves, c, isCall, stage⟩ := refused
  obtain ⟨move, c', isCall', stage'⟩ := step.refused stops isCall (stage.imp_right And.left)
  refine ⟨step.stopped (.inl stops), fun e' member isMove => ?_, c', isCall', ?_⟩
  · rcases List.mem_append.mp member with member | member
    · exact moves e' member isMove
    · cases List.mem_singleton.mp member
      exact move isMove
  · rcases stage' with same | ⟨returned, rfl⟩
    · rw [same]
      exact stage.imp_right fun ⟨returned, member⟩ => ⟨returned, List.mem_append_left _ member⟩
    · exact .inr ⟨returned, List.mem_append_right _ (List.mem_singleton_self _)⟩

/-! ## Runs -/

/-- What a run of the worker comes to. -/
structure Serial (start : W) (history : List (Event W V)) (s : State W V) : Prop where
  /-- At every moment, the actions that were begun are applied but for one at most. -/
  single : ∀ past later, history = past ++ later → ∃ current : Option Nat, starts past = applied past ++ current.toList
  /-- Actions are begun in the order in which they entered the queue. -/
  order : starts history <+: entries history
  once : (entries history).Nodup
  own : ∀ x ∈ applications history, (actions history)[x.1]? = some x.2
  workspace : s.workspace = after start (applications history)
  /-- A call that returns other than stopped returns what its own action gave, which was applied exactly once. -/
  answered : ∀ i outcome, .returned i outcome ∈ history → outcome ≠ .error .stopped →
    (applied history).count i = 1 ∧ ∃ r, Answers start history i r ∧ outcome = r.mapError .panicked
  /-- Whoever returned other than stopped before a call comes first. -/
  first : ∀ past action later i outcome, history = past ++ .called action :: later → .returned i outcome ∈ past →
    outcome ≠ .error .stopped → i ∈ applied past ∧
      ((actions past).length ∈ applied history → [i, (actions past).length].Sublist (applied history))
  /-- A call after a stop has returned is stopped, or can be at once, and its action never enters the queue. -/
  late : ∀ past action later, history = past ++ .called action :: later → .stopReturned ∈ past →
    (actions past).length ∉ entries history ∧ (actions past).length ∉ applied history ∧
    (∀ outcome, .returned (actions past).length outcome ∈ history → outcome = .error .stopped) ∧
    (.returned (actions past).length (.error .stopped) ∈ history ∨
      ∃ t, Step s (.returned (actions past).length (.error .stopped)) t)

/-- A call that is yet to come has made no move. -/
theorem Ordered.call?_ne (ordered : Ordered history s) (member : e ∈ history) : e.call? ≠ some (actions history).length := by
  intro isMove
  have bound := ordered.known e member _ isMove
  rw [ordered.calls, List.length_map] at bound
  exact Nat.lt_irrefl _ bound

theorem Run.refused {action : Action W V} {later : List (Event W V)} (ordered : Ordered history s) (stops : s.stopped = true)
    (run : Run s (.called action :: later) t) : Refused (actions history).length (.called action :: later) t := by
  cases run with
  | cons step rest =>
    cases step with
    | call =>
      refine rest.keeps Refused.step [.called action] ⟨stops, fun e member isMove => ?_, { action }, ?_, .inl rfl⟩
      · cases List.mem_singleton.mp member
        cases isMove
      · rw [ordered.calls, List.length_map]
        exact List.getElem?_concat_length ..

theorem Answers.mem_applied {r : Except Bytes V} (answers : Answers start history i r) : i ∈ applied history := by
  obtain ⟨before, action, later, split, _⟩ := answers
  rw [applied, split]
  simp

theorem Ordered.applied_prefix (ordered : Ordered history s) : applied history <+: entries history := by
  rw [ordered.entered, ordered.started, List.append_assoc]
  exact List.prefix_append _ _

/-- Actions are applied one after the other. -/
theorem actions_are_serialized (run : Run { workspace := start } history s) : Serial start history s := by
  have ordered := run.ordered
  have answered := run.answered
  have nodup : (applied history).Nodup := ordered.nodup.sublist ordered.applied_prefix.sublist
  constructor
  case single =>
    rintro past later rfl
    obtain ⟨m, front, _⟩ := run.split
    exact ⟨_, front.ordered.started⟩
  case order => exact ⟨_, ordered.entered.symm⟩
  case once => exact ordered.nodup
  case own => exact ordered.calls ▸ answered.own
  case workspace => exact answered.workspace
  case answered =>
    intro i outcome returned isAnswer
    obtain ⟨r, answers, same⟩ := answered.returned i outcome returned isAnswer
    exact ⟨List.count_eq_one_of_mem nodup answers.mem_applied, r, answers, same⟩
  case first =>
    rintro past action later i outcome rfl returned isAnswer
    obtain ⟨m, front, _⟩ := run.split
    obtain ⟨r, answers, _⟩ := front.answered.returned i outcome returned isAnswer
    refine ⟨answers.mem_applied, fun member => ?_⟩
    have new : (actions past).length ∉ applied past := fun member =>
      front.ordered.call?_ne (mem_entries.mp (front.ordered.applied_prefix.mem member)) rfl
    rw [applied_append] at member ⊢
    have later := (List.mem_append.mp member).resolve_left new
    exact (List.singleton_sublist.mpr answers.mem_applied).append (List.singleton_sublist.mpr later)
  case late =>
    rintro past action later rfl stopped
    obtain ⟨m, front, rest⟩ := run.split
    have refused := rest.refused front.ordered (front.stopped (.inr stopped))
    have move {e : Event W V} (member : e ∈ past ++ .called action :: later)
        (isMove : e.call? = some (actions past).length) : e = .returned (actions past).length (.error .stopped) :=
      (List.mem_append.mp member).elim (fun early => absurd isMove (front.ordered.call?_ne early))
        fun later => refused.moves e later isMove
    have outside : (actions past).length ∉ entries (past ++ .called action :: later) := fun member => by
      cases move (mem_entries.mp member) rfl
    refine ⟨outside, fun member => outside (ordered.applied_prefix.mem member), fun outcome member => ?_, ?_⟩
    · cases move member rfl
      rfl
    · obtain ⟨c, isCall, called | ⟨_, returned⟩⟩ := refused.stage
      · exact .inr ⟨_, .giveUp isCall (called ▸ Stage.noConfusion) refused.stops⟩
      · exact .inl (List.mem_append_right _ returned)

/-- Three calls: one panics, one is called after that has returned and gives up before it is applied, and one is called
after a stop. -/
theorem three_calls_are_serialized :
    let add (n : Nat) : Action Nat Nat := fun w => (w + n, .ok w)
    let fail : Action Nat Nat := fun w => (w, .error "boom")
    let history : List (Event Nat Nat) :=
      [.called fail, .passed 0, .entered 0, .started 0, .applied 0 fail, .answered 0,
        .returned 0 (.error (.panicked "boom")), .called (add 5), .passed 1, .entered 1, .stopped, .stopReturned,
        .called (add 7), .returned 2 (.error .stopped), .returned 1 (.error .stopped), .started 1, .applied 1 (add 5)]
    ∃ s, Run { workspace := 1 } history s ∧ s.workspace = 6 ∧ Serial 1 history s := by
  intro add fail history
  have run : Run { workspace := 1 } history
      { workspace := 6, task := .answering 1 (.ok 1), stopped := true
        calls := [⟨fail, .returned, none⟩, ⟨add 5, .returned, none⟩, ⟨add 7, .returned, none⟩] } := by
    refine .cons (.call _) (.cons (.pass rfl rfl rfl) (.cons (.enter rfl rfl (by decide)) (.cons (.start rfl rfl) ?_)))
    refine .cons (.apply (c := ⟨fail, .waiting, none⟩) rfl rfl) (.cons (.answer rfl rfl) ?_)
    refine .cons (.receive (r := .error "boom") rfl rfl rfl) ?_
    change Run { workspace := 1, calls := [⟨fail, .returned, none⟩] } _ _
    refine .cons (.call _) (.cons (.pass rfl rfl rfl) (.cons (.enter rfl rfl (by decide)) (.cons .stop ?_)))
    refine .cons (.stopReturn rfl) (.cons (.call _) (.cons (.giveUp rfl (by decide) rfl) ?_))
    refine .cons (.giveUp rfl (by decide) rfl) (.cons (.start rfl rfl) ?_)
    exact .cons (.apply (c := ⟨add 5, .returned, none⟩) rfl rfl) .nil
  exact ⟨_, run, rfl, actions_are_serialized run⟩

end LyaLang.Editor.Worker
