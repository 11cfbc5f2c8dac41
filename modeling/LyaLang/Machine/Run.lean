import LyaLang.Machine.Step

/-! # Runs

A run loads a program, which clears memory and display, and then repeats steps until a stop, the end
of the code, a fault, or the step limit. Input that a run leaves unread is there for the next. Whether
the run was canceled is looked at once in a fixed number of steps.
-/

namespace LyaLang

/-- The resources of a run. -/
structure Limits where
  /-- The greatest number of steps; zero or less is no limit. -/
  maxSteps : Int := 0
  canceled : Bool := false

/-- The number of steps between two looks at cancellation. -/
def cancelInterval : Nat := 1024

inductive RunEnd where
  | finished
  | failed (error : RuntimeError)
  | canceled
  | crashed
  /-- The fuel of the evaluation ran out; the run would go on. -/
  | unfinished
deriving DecidableEq, Repr

namespace Machine

def defaultSize : Nat := 65536

/-- A machine with a memory of the given size, or of the default size if that is not positive. -/
def create (size : Int) (input : Bytes) : Machine :=
  { memory := Array.replicate (if size ≤ 0 then defaultSize else size.toNat) {}, input }

/-- The machine before the first step of a program. -/
def reset (m : Machine) : Machine :=
  { m with memory := Array.replicate m.memory.size {}, display := #[0], sp := -1, pc := 0, steps := 0 }

/-- The word at an address, zero outside memory. -/
def word (m : Machine) (addr : Int64) : Word :=
  if addr < 0 then {} else m.memory.getD addr.toNatClampNeg {}

/-- The words on the stack, or nothing if the stack pointer lies outside memory. -/
def stack? (m : Machine) : Option (List Word) :=
  let count := m.sp + 1
  if 0 ≤ count && count ≤ Int64.ofNat m.memory.size then
    some (m.memory.extract 0 count.toNatClampNeg).toList
  else none

/-- Run at most `fuel` steps. -/
def execute (image : Image) (limits : Limits) : Nat → Machine → RunEnd × Machine
  | 0, m => (.unfinished, m)
  | fuel + 1, m =>
    if m.pc ≥ Int64.ofNat image.instructions.size then (.finished, m)
    else if m.pc < 0 then (.crashed, m)
    else match image.instructions[m.pc.toNatClampNeg]? with
      | none => (.finished, m)
      | some i =>
        let pc := m.pc
        let m := { m with steps := m.steps + 1 }
        if 0 < limits.maxSteps && limits.maxSteps < m.steps then
          (.failed ⟨pc, i.op, .stepLimit⟩, m)
        else if limits.canceled && m.steps % cancelInterval == 0 then (.canceled, m)
        else match Exec.step image pc i m with
          | .ok (some next) m => execute image limits fuel { m with pc := next }
          | .ok none m => (.finished, { m with pc := Int64.ofNat image.instructions.size })
          | .error (.fault f) m => (.failed ⟨pc, i.op, f⟩, m)
          | .error .crash m => (.crashed, m)

/-- The outcome of a run: how it ended, and the stack it left. -/
structure Outcome where
  finish : RunEnd
  stack : List Word

/-- Load a program and run at most `fuel` steps of it. A run whose stack pointer ends outside memory
has crashed. -/
def run (code : Code) (limits : Limits) (fuel : Nat) (m : Machine) : Outcome × Machine :=
  match code.image with
  | .error d => (⟨.failed ⟨0, .lbl, .duplicateLabel d⟩, []⟩, m)
  | .ok image =>
    let (finish, m) := execute image limits fuel m.reset
    match finish, m.stack? with
    | .crashed, _ | _, none => (⟨.crashed, []⟩, m)
    | finish, some stack => (⟨finish, stack⟩, m)

end Machine

end LyaLang
