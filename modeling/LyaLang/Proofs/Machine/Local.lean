import LyaLang.Proofs.Machine.Overrun
import LyaLang.Proofs.Machine.Run

/-! # What no action does

An action never changes the size of memory, never makes the display shorter, only takes from the front of the input,
and counts no steps. It does not look at what has been printed: behind other output it does the same and prints the
same. It never finds a label defined twice, and only a jump misses a label, its own. This holds of every instruction,
also of one that stops at a fault or crashes, whatever its operands are.
-/

namespace LyaLang

/-- What an action keeps. -/
structure Machine.Extends (m m' : Machine) : Prop where
  size : m'.memory.size = m.memory.size
  display : m.display.size ≤ m'.display.size
  input : m'.input <:+ m.input
  steps : m'.steps = m.steps

/-- The machine with other output before its own. -/
def Machine.behind (out : Array UInt8) (m : Machine) : Machine := { m with output := out ++ m.output }

/-- A failure that is about no label but those that are allowed to be missed. -/
def Halt.Finds (missed : Int64 → Prop) : Halt → Prop
  | .fault (.unresolvedLabel l) => missed l
  | .fault (.duplicateLabel _) => False
  | _ => True

namespace Exec

variable {α β : Type}

/-- The machine that an action leaves. -/
def final : EStateM.Result Halt Machine α → Machine
  | .ok _ m | .error _ m => m

/-- An outcome with other output before its own. -/
def outcomeBehind (out : Array UInt8) : EStateM.Result Halt Machine α → EStateM.Result Halt Machine α
  | .ok a m => .ok a (m.behind out)
  | .error halt m => .error halt (m.behind out)

/-- An outcome that misses no label but those that are allowed to be missed. -/
def Finds (missed : Int64 → Prop) : EStateM.Result Halt Machine α → Prop
  | .ok _ _ => True
  | .error halt _ => halt.Finds missed

/-- An action that keeps what every action keeps, does not look at the output, and misses no other labels. -/
structure Local (missed : Int64 → Prop) (x : Exec α) : Prop where
  keeps : ∀ m : Machine, m.Extends (final (x m))
  blind : ∀ out (m : Machine), x (m.behind out) = outcomeBehind out (x m)
  finds : ∀ m : Machine, Finds missed (x m)

namespace Local

variable {missed : Int64 → Prop}

/-! ## Rules -/

theorem pure (a : α) : Local missed (pure a) :=
  ⟨fun _ => ⟨rfl, le_rfl, List.suffix_rfl, rfl⟩, fun _ _ => rfl, fun _ => trivial⟩

theorem fail {f : RuntimeFault} (finds : (Halt.fault f).Finds missed) : Local missed (fail f : Exec α) :=
  ⟨fun _ => ⟨rfl, le_rfl, List.suffix_rfl, rfl⟩, fun _ _ => rfl, fun _ => finds⟩

theorem crash : Local missed (crash : Exec α) :=
  ⟨fun _ => ⟨rfl, le_rfl, List.suffix_rfl, rfl⟩, fun _ _ => rfl, fun _ => trivial⟩

theorem bind {x : Exec α} {f : α → Exec β} (first : Local missed x) (second : ∀ a, Local missed (f a)) :
    Local missed (x >>= f) := by
  refine ⟨fun m => ?_, fun out m => ?_, fun m => ?_⟩
  · have kept := first.keeps m
    rw [bind_run]
    cases ran : x m with
    | error halt m' =>
      rw [ran] at kept
      exact kept
    | ok a m' =>
      rw [ran] at kept
      have kept' := (second a).keeps m'
      exact ⟨kept'.size.trans kept.size, kept.display.trans kept'.display, kept'.input.trans kept.input,
        kept'.steps.trans kept.steps⟩
  · rw [bind_run, bind_run, first.blind]
    cases x m with
    | error halt m' => rfl
    | ok a m' => exact (second a).blind out m'
  · have found := first.finds m
    rw [bind_run]
    cases ran : x m with
    | error halt m' =>
      rw [ran] at found
      exact found
    | ok a m' => exact (second a).finds m'

theorem ite {c : Prop} [Decidable c] {x y : Exec α} (yes : Local missed x) (no : Local missed y) :
    Local missed (if c then x else y) := by
  split
  · exact yes
  · exact no

/-- An action that goes on unless a condition stops it. -/
theorem guard {c : Prop} [Decidable c] {x : Exec Unit} {rest : Unit → Exec α} (stops : Local missed x)
    (goes : Local missed (rest ())) : Local missed (if c then x >>= rest else rest ()) := ite (stops.bind fun _ => goes) goes

theorem ofFunction {f : Machine → α × Machine} (keeps : ∀ m : Machine, m.Extends (f m).2)
    (blind : ∀ out (m : Machine), f (m.behind out) = ((f m).1, (f m).2.behind out)) : Local missed (modifyGet f) := by
  refine ⟨keeps, fun out m => ?_, fun _ => trivial⟩
  rw [modifyGet_run, blind]
  rfl

/-- An action that only looks. -/
theorem look {f : Machine → α} (blind : ∀ out (m : Machine), f (m.behind out) = f m) :
    Local missed (modifyGet fun m => (f m, m)) :=
  ofFunction (fun _ => ⟨rfl, le_rfl, List.suffix_rfl, rfl⟩) fun out m => by rw [blind]

theorem ofUpdate {f : Machine → Machine} (keeps : ∀ m : Machine, m.Extends (f m))
    (blind : ∀ out (m : Machine), f (m.behind out) = (f m).behind out) : Local missed (modify f) :=
  ofFunction keeps fun out m => by rw [blind]

/-! ## Words -/

theorem sp : Local missed sp := look fun _ _ => rfl

theorem setSp (sp : Int64) : Local missed (setSp sp) := ofUpdate (fun _ => ⟨rfl, le_rfl, List.suffix_rfl, rfl⟩) fun _ _ => rfl

theorem size : Local missed size := look fun _ _ => rfl

theorem peek (addr : Int64) : Local missed (peek addr) := by
  refine .bind (look fun _ _ => rfl) fun w? => ?_
  cases w? with
  | some w => exact .pure w
  | none => exact .crash

theorem poke (addr : Int64) (w : Word) : Local missed (poke addr w) := by
  refine .bind (ofFunction (fun m => ?_) fun out m => ?_) fun _ => .ite .crash (.pure _)
  · split
    · exact ⟨Array.size_setIfInBounds, le_rfl, List.suffix_rfl, rfl⟩
    · exact ⟨rfl, le_rfl, List.suffix_rfl, rfl⟩
  · change (if inside addr m.memory.size then _ else _) = _
    split <;> rfl

theorem load (addr : Int64) : Local missed (load addr) := .bind size fun _ => .guard (.fail trivial) (.peek addr)

theorem store (addr : Int64) (w : Word) : Local missed (store addr w) := .bind size fun _ => .guard (.fail trivial) (.poke addr w)

theorem push (w : Word) : Local missed (push w) :=
  .bind sp fun _ => .bind size fun _ => .guard (.fail trivial) (.bind (.setSp _) fun _ => .poke _ w)

theorem pop : Local missed pop :=
  .bind sp fun _ => .guard (.fail trivial) (.bind (.peek _) fun _ => .bind (.setSp _) fun _ => .pure _)

theorem need (count : Int64) : Local missed (need count) := .bind sp fun _ => .ite (.fail trivial) (.pure _)

theorem operands : Local missed operands :=
  .bind (.need 2) fun _ => .bind sp fun _ => .bind (.peek _) fun _ => .bind (.setSp _) fun _ => .bind (.peek _) fun _ =>
    .pure _

theorem setTop (w : Word) : Local missed (setTop w) := .bind sp fun _ => .poke _ w

theorem shrink (count : Int64) : Local missed (shrink count) := .bind sp fun _ => .guard (.fail trivial) (.setSp _)

theorem grow (count : Int64) : Local missed (grow count) :=
  .ite (.shrink _) (.bind sp fun _ => .bind size fun _ => .guard (.fail trivial) (.guard .crash
    (.ofUpdate (fun _ => ⟨size_clear _ _ _, le_rfl, List.suffix_rfl, rfl⟩) fun _ _ => rfl)))

theorem frameAddress (level offset : Int64) : Local missed (frameAddress level offset) := by
  refine .bind (look fun _ _ => rfl) fun base? => ?_
  cases base? with
  | some base => exact .pure _
  | none => exact .fail trivial

/-! ## Blocks and texts -/

theorem checkBlock (addr count : Int64) : Local missed (checkBlock addr count) := .bind size fun _ => .ite (.fail trivial) (.pure _)

theorem block (addr count : Int64) : Local missed (block addr count) :=
  .bind size fun _ => .guard .crash (.look fun _ _ => rfl)

theorem setBlock (addr : Int64) (ws : List Word) : Local missed (setBlock addr ws) :=
  .bind size fun _ => .guard .crash
    (.ofUpdate (fun _ => ⟨size_overwrite _ _ _, le_rfl, List.suffix_rfl, rfl⟩) fun _ _ => rfl)

theorem print (text : Bytes) : Local missed (print text) := by
  refine .ofUpdate (fun _ => ⟨rfl, le_rfl, List.suffix_rfl, rfl⟩) fun out m => ?_
  have pushed (front back : Array UInt8) : text.foldl Array.push (front ++ back) = front ++ text.foldl Array.push back := by
    simp
  exact congrArg (fun output => { m with output }) (pushed out m.output)

theorem readLine : Local missed readLine := by
  refine .bind (.ofFunction (fun m => ?_) fun out m => ?_) fun line? => ?_
  · split
    · exact ⟨rfl, le_rfl, List.suffix_rfl, rfl⟩
    · exact ⟨rfl, le_rfl, List.drop_suffix _ _, rfl⟩
  · change (if m.input.isEmpty then _ else _) = _
    split <;> rfl
  · cases line? with
    | none => exact .fail trivial
    | some line => exact .pure _

theorem writeString (addr : Int64) (text : Bytes) (capacity : Int64) : Local missed (writeString addr text capacity) :=
  .bind (.checkBlock _ _) fun _ => .setBlock _ _

theorem string (image : Image) (w : Word) : Local missed (string image w) := by
  have stored : Local missed (do
      let length := (← Exec.load w.number).toInt
      Exec.checkBlock (w.number + 1) length
      let words ← Exec.block (w.number + 1) length
      return Text.encode (words.map Word.toChar)) :=
    .bind (.load _) fun _ => .bind (.checkBlock _ _) fun _ => .bind (.block _ _) fun _ => .pure _
  refine .ite (.pure _) (.ite ?_ stored)
  cases image.strings[(-w.number - 1).toNatClampNeg]? with
  | some s => exact .pure s
  | none => exact .bind (.fail trivial) fun _ => stored

theorem stringOperands (image : Image) : Local missed (stringOperands image) :=
  .bind .operands fun _ => .bind (.string image _) fun _ => .bind (.string image _) fun _ => .pure _

theorem pooled (image : Image) (index : Int64) : Local missed (pooled image index) := by
  unfold Exec.pooled
  refine .guard (.fail trivial) ?_
  cases image.strings[index.toNatClampNeg]? with
  | some s => exact .pure s
  | none => exact .fail trivial

theorem loadBlock (count : Int64) : Local missed (loadBlock count) :=
  .bind (.need 1) fun _ => .bind sp fun _ => .bind (.peek _) fun _ => .bind (.checkBlock _ _) fun _ => .bind size fun _ =>
    .guard (.fail trivial) (.guard .crash (.bind (.block _ _) fun _ => .bind (.setBlock _ _) fun _ => .setSp _))

theorem storeBlock (count : Int64) : Local missed (storeBlock count) :=
  .bind (.need _) fun _ => .bind sp fun _ => .bind (.peek _) fun _ => .bind (.checkBlock _ _) fun _ =>
    .bind (.block _ _) fun _ => .bind (.setBlock _ _) fun _ => .setSp _

theorem copyBlock (count : Int64) : Local missed (copyBlock count) :=
  .bind (.need 2) fun _ => .bind sp fun _ => .bind (.peek _) fun _ => .bind (.peek _) fun _ =>
    .bind (.checkBlock _ _) fun _ => .bind (.checkBlock _ _) fun _ => .bind (.block _ _) fun _ =>
      .bind (.setBlock _ _) fun _ => .setSp _

theorem printTop (count : Int64) : Local missed (printTop count) :=
  .bind (.need _) fun _ => .bind sp fun _ => .bind (.block _ _) fun _ => .bind (.print _) fun _ => .setSp _

/-! ## Control -/

theorem labelTarget (image : Image) {label : Int64} (allowed : image.labels.get? label = none → missed label) :
    Local missed (labelTarget image label) := by
  unfold Exec.labelTarget
  cases found : image.labels.get? label with
  | some position => exact .pure _
  | none => exact .fail (allowed found)

theorem enterFrame (level : Int64) : Local missed (enterFrame level) := by
  unfold Exec.enterFrame
  refine .guard (.fail trivial) ?_
  refine .bind (.ofFunction (fun m => ?_) fun _ _ => rfl) fun _ => .bind (.push _) fun _ =>
    .ofUpdate (fun m => ?_) fun _ _ => rfl
  · exact ⟨rfl, by simp, List.suffix_rfl, rfl⟩
  · exact ⟨rfl, by simp, List.suffix_rfl, rfl⟩

theorem leaveFrame (level count : Int64) : Local missed (leaveFrame level count) := by
  refine .bind (.look fun _ _ => rfl) fun _ => .guard (.fail trivial) (.bind (.need 2) fun _ => .bind sp fun _ =>
    .bind (.peek _) fun _ => .bind (.ofUpdate (fun m => ?_) fun _ _ => rfl) fun _ => .bind (.peek _) fun _ =>
      .bind (.shrink _) fun _ => .pure _)
  exact ⟨rfl, by simp, List.suffix_rfl, rfl⟩

/-! ## Instructions -/

theorem onTop (f : Word → Word) : Local missed (onTop f) :=
  .bind (.need 1) fun _ => .bind sp fun _ => .bind (.peek _) fun _ => .setTop _

theorem plain (image : Image) (i : Instruction) : Local missed (plain image i) := by
  obtain ⟨op, a, b, k⟩ := i
  cases op
  case nop | lbl | jmp | jof | cfu | ret | stp => exact .pure ()
  case ldc => exact .push k
  case ldv => exact .bind (.frameAddress a b) fun _ => .bind (.load _) fun _ => .push _
  case ldr => exact .bind (.frameAddress a b) fun _ => .push _
  case stv => exact .bind (.frameAddress a b) fun _ => .bind .pop fun _ => .store _ _
  case lrv => exact .bind (.frameAddress a b) fun _ => .bind (.load _) fun _ => .bind (.load _) fun _ => .push _
  case srv => exact .bind (.frameAddress a b) fun _ => .bind (.load _) fun _ => .bind .pop fun _ => .store _ _
  case alc => exact .grow a
  case dlc => exact .shrink a
  case dup => exact .bind (.need 1) fun _ => .bind .sp fun _ => .bind (.peek _) fun _ => .push _
  case add | sub | mul | and | lor | les | leq | grt | gre | equ | neq | idx => exact .bind .operands fun _ => .setTop _
  case div | mod => exact .bind .operands fun _ => .guard (.fail trivial) (.setTop _)
  case neg | abs | not | asc | num | upc | lwc => exact .onTop _
  case grc => exact .bind (.need 1) fun _ => .bind .sp fun _ => .bind (.peek _) fun _ => .bind (.load _) fun _ => .setTop _
  case lmv => exact .loadBlock a
  case smv => exact .storeBlock a
  case smr => exact .copyBlock a
  case chk => exact .bind (.need 1) fun _ => .bind .sp fun _ => .bind (.peek _) fun _ => .ite (.fail trivial) (.pure _)
  case sts => exact .bind (.pooled image a) fun _ => .bind .pop fun _ => .writeString _ _ b
  case lsc => exact .bind (.pooled image a) fun _ => .push _
  case scp => exact .bind .pop fun _ => .bind .pop fun _ => .bind (.string image _) fun _ => .writeString _ _ a
  case scat => exact .bind (.stringOperands image) fun _ => .bind .size fun _ => .guard (.fail trivial) (.setTop _)
  case seq | sne => exact .bind (.stringOperands image) fun _ => .setTop _
  case rdv => exact .bind .readLine fun _ => .push _
  case rds => exact .bind .pop fun _ => .bind .readLine fun _ => .writeString _ _ a
  case prv => exact .bind .pop fun _ => .print _
  case prt => exact .printTop a
  case prc => exact .bind (.pooled image a) fun _ => .print _
  case prs => exact .bind .pop fun _ => .bind (.string image _) fun _ => .print _
  case enf => exact .enterFrame a
  case unknown code => exact .fail trivial

/-- Every instruction is local, and only a jump misses a label: its own, if the program does not define it. -/
theorem step (image : Image) (pc : Int64) (i : Instruction) :
    Local (fun l => i.op.isJump = true ∧ l = i.a ∧ image.labels.get? l = none) (step image pc i) := by
  have plain {missed} : Local missed _ := Local.plain image i
  obtain ⟨op, a, b, k⟩ := i
  cases op
  case jmp => exact .bind (.labelTarget image fun unknown => ⟨rfl, rfl, unknown⟩) fun _ => .pure _
  case jof =>
    exact .bind .pop fun _ =>
      .ite (.pure _) (.bind (.labelTarget image fun unknown => ⟨rfl, rfl, unknown⟩) fun _ => .pure _)
  case cfu =>
    exact .bind (.labelTarget image fun unknown => ⟨rfl, rfl, unknown⟩) fun _ => .bind (.push _) fun _ => .pure _
  case ret => exact .bind (.leaveFrame a b) fun _ => .pure _
  all_goals exact .bind plain fun _ => .pure _

end Local

end Exec

end LyaLang
