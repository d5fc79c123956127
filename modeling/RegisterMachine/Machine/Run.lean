/-
# Running a program

A `Machine` is a loaded program with the state it has reached, the number of
instructions carried out, its status, and the trace so far. `Machine.step`
carries out one statement. It traps if there is none at the program counter, or
if there is one but the steps that are allowed have been made; a trap keeps
state and count as they were. The counter of instructions has 64 bits. It wraps
on a machine that may make any number of steps, and only there, since a limit
has 64 bits too.

A machine that has halted or trapped stays as it is; `Machine.run` steps until
then. A machine that is to make any number of steps has so many different states
that it must be in one of them twice if it makes more steps than that; then it
never stops, and `run` has no result.

Key definitions: `Settings`, `Status`, `Machine`, `Machine.step`, `Machine.run`,
`RunResult.report`, `interpret`.
Key lemmas: `Machine.step_of_stopped`, `Machine.runFor_of_stopped`.
-/
import RegisterMachine.Machine.Execute
import RegisterMachine.Machine.Trace

namespace RegisterMachine

/-- How a program is run. -/
structure Settings where
  mode : TraceMode := .off
  /-- The source files that a trace can show. -/
  registry : Option Registry := none
  /-- How many steps are allowed; 0 allows any number. -/
  stepLimit : UInt64 := 0
deriving DecidableEq, Repr, Inhabited

/-- How far a run has come. -/
inductive Status where
  | ready
  | running
  | halted
  | trapped (cause : TrapCause)
deriving DecidableEq, Repr, Inhabited

namespace Status

/-- The run is over. -/
def isStopped : Status → Bool
  | ready | running => false
  | halted | trapped _ => true

/-- The name of a status. -/
def name : Status → Bytes
  | ready => ascii "Ready"
  | running => ascii "Running"
  | halted => ascii "Halted"
  | trapped _ => ascii "Trapped"

end Status

/-- A machine with a program. -/
structure Machine where
  settings : Settings := {}
  program : Array Statement := #[]
  state : State := {}
  status : Status := .ready
  /-- How many instructions were carried out, modulo `2 ^ 64`. -/
  count : UInt64 := 0
  /-- The source files that the trace has looked at. -/
  sources : SourceCache := []
  /-- The lines of the trace, the last one first. -/
  trace : List Bytes := []
deriving DecidableEq, Repr, Inhabited

namespace Machine

/-- The machine with another program, to be run from `initial`. What it has seen of source files
and its trace are kept. -/
def load (m : Machine) (program : Program) (initial : State := {}) : Machine :=
  { m with program := program.toArray, state := initial, status := .ready, count := 0 }

/-- The statement at the program counter, if it may be carried out. -/
def fetch (m : Machine) : Except TrapCause Statement :=
  match m.program[m.state.pc.toNat]? with
  | none => .error (.outOfBounds m.state.pc)
  | some s =>
    if m.settings.stepLimit ≠ 0 ∧ m.count ≥ m.settings.stepLimit then
      .error (.stepLimit m.settings.stepLimit)
    else .ok s

/-- The machine after it has trapped. -/
def stop (m : Machine) (cause : TrapCause) : Machine := { m with status := .trapped cause }

/-- The machine after the execution of a statement. -/
def carryOut (m : Machine) (s : Statement) : Machine :=
  let execution := s.execute m.state
  match execution.verdict with
  | .trap cause => m.stop cause
  | .halt => { m with state := execution.state, count := m.count + 1, status := .halted }
  | .next pc =>
    { m with state := { execution.state with pc }, count := m.count + 1, status := .running }

/-- The machine after it has traced a statement. -/
def traced (m : Machine) (read : Reader) (s : Statement) : Machine :=
  let (line, sources) :=
    Trace.ofStatement m.settings.mode m.settings.registry read m.sources m.state.pc s
  { m with sources, trace := if line = [] then m.trace else line :: m.trace }

/-- One step of the machine; `read` gives what source files hold. -/
def step (read : Reader) (m : Machine) : Machine :=
  if m.status.isStopped then m
  else
    match m.fetch with
    | .error cause => m.stop cause
    | .ok s => (m.traced read s).carryOut s

/-- Steps until the machine has stopped, at most `fuel` times. -/
def runFor (read : Reader) : Nat → Machine → Option Machine
  | 0, m => if m.status.isStopped then some m else none
  | fuel + 1, m => if m.status.isStopped then some m else runFor read fuel (m.step read)

/-- How many states there are: of a counter of 16 bits, two flags and fifteen registers. -/
def stateCount : Nat := Nat.pow 2 138

/-- A number of steps after which a machine that can stop has stopped. -/
def enough (m : Machine) : Nat :=
  if m.settings.stepLimit = 0 then stateCount + 1
  else m.settings.stepLimit.toNat - m.count.toNat + 1

/-- Steps until the machine has stopped, if it ever does. -/
def run (read : Reader) (m : Machine) : Option Machine := m.runFor read m.enough

/-- The trap that has stopped the machine. -/
def trap? (m : Machine) : Option Trap :=
  match m.status with
  | .trapped cause => some { kind := cause.kind, pc := m.state.pc, message := cause.message }
  | _ => none

/-- The trace as text. -/
def traceText (m : Machine) : Bytes := m.trace.reverse.flatten

/-- A machine that has stopped makes no step. -/
theorem step_of_stopped (read : Reader) {m : Machine} (h : m.status.isStopped = true) :
    m.step read = m := by
  simp [step, h]

/-- A machine that has stopped is where a run ends. -/
theorem runFor_of_stopped (read : Reader) (fuel : Nat) {m : Machine}
    (h : m.status.isStopped = true) : m.runFor read fuel = some m := by
  cases fuel <;> simp [runFor, h]

end Machine

/-- What a run has come to. -/
structure RunResult where
  state : State
  /-- How many instructions were carried out, modulo `2 ^ 64`. -/
  steps : UInt64
  /-- The trap, if the machine did not halt. -/
  trap : Option Trap
  trace : Bytes := []
deriving DecidableEq, Repr, Inhabited

/-- What is shown of a result: the state and the number of steps, a line for each part. -/
def RunResult.report (result : RunResult) : Bytes :=
  result.state.text ++ State.field (ascii "steps") result.steps.toNat

/-- The result of a machine that has stopped. -/
def Machine.result (m : Machine) : RunResult :=
  { state := m.state, steps := m.count, trap := m.trap?, trace := m.traceText }

/-- Runs a program from a state, if the run ends. -/
def interpret (settings : Settings) (read : Reader) (program : Program) (initial : State := {}) :
    Option RunResult :=
  (((({ settings } : Machine).load program initial).run read).map (·.result))

end RegisterMachine
