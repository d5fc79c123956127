/-
# The life of a machine

A client loads programs into a machine, steps it and runs it, in any order and
as often as it likes (`Call`, `Machine.serve`), while source files may change
from one call to the next. What it sees of the machine is its `Observation`:
everything but the trace and what the machine remembers of source files.

Neither of these has an influence on the rest (`Machine.quiet_step`). So after a
`load` a machine is seen as a new one would be, whatever has happened to it
(`Machine.map_quiet_serve`). And a run is seen as any steps followed by a run,
or as steps until one of them does not leave the machine running
(`Machine.map_observe_run_eq_some_iff`), because both follow the one course that
the machine has without its trace.

What is kept by `load` and by every step, all machines have at any time of their
life (`Machine.serve_invariant`); that a machine which has halted is at a `halt`
is kept (`Machine.RestsOnHalt.step`).

Key definitions: `Call`, `Machine.serve`, `Observation`, `Machine.observe`,
`Machine.RestsOnHalt`.
Key theorems: `Machine.serve_invariant`, `Machine.run_after`,
`Machine.map_observe_run_eq_some_iff`, `Machine.map_quiet_serve`,
`Machine.lifecycle`.
-/
import RegisterMachine.Proofs.Aliases
import RegisterMachine.Proofs.Atomicity
import RegisterMachine.Proofs.Noninterference
import RegisterMachine.Proofs.Tracing

namespace RegisterMachine

/-! ### Calls -/

/-- What a client asks of a machine. -/
inductive Call where
  /-- Take this program, to be run from this state. -/
  | load (program : Program) (initial : State)
  | step
  | run
deriving DecidableEq, Repr, Inhabited

/-- What a client can see of a machine. -/
structure Observation where
  status : Status
  state : State
  /-- How many instructions were carried out. -/
  count : UInt64
  /-- The kind of the trap; there is none before a trap. -/
  kind : TrapKind
  /-- The message of the trap, empty before one. -/
  message : Bytes
  /-- The record of the trap, if there is one. -/
  error : Option Trap
deriving DecidableEq, Repr, Inhabited

namespace Machine

/-- What can be seen of a machine. -/
def observe (m : Machine) : Observation :=
  { status := m.status
    state := m.state
    count := m.count
    kind := (m.trap?.map (·.kind)).getD .none
    message := (m.trap?.map (·.message)).getD []
    error := m.trap? }

/-- The machine after a call, if the call ends; `read` gives what source files hold meanwhile. -/
def answer (read : Reader) (m : Machine) : Call → Option Machine
  | .load program initial => some (m.load program initial)
  | .step => some (m.step read)
  | .run => m.run read

/-- The machine after calls, if all of them end. -/
def serve (m : Machine) : List (Reader × Call) → Option Machine
  | [] => some m
  | (read, call) :: calls => (m.answer read call).bind fun n => n.serve calls

/-- What `load` and every step keep, a machine has after any calls. -/
theorem serve_invariant {P : Machine → Prop}
    (hload : ∀ m program initial, P m → P (m.load program initial))
    (hstep : ∀ read m, P m → P (m.step read)) {calls : List (Reader × Call)} {m m' : Machine}
    (hm : P m) (h : m.serve calls = some m') : P m' := by
  induction calls generalizing m with
  | nil =>
    cases h
    exact hm
  | cons c calls ih =>
    obtain ⟨read, call⟩ := c
    obtain ⟨n, hn, hrest⟩ := Option.bind_eq_some_iff.mp h
    refine ih ?_ hrest
    cases call with
    | load program initial =>
      cases hn
      exact hload m program initial hm
    | step =>
      cases hn
      exact hstep read m hm
    | run => exact runFor_invariant read (hstep read) hm hn

theorem settings_of_serve {calls : List (Reader × Call)} {m m' : Machine}
    (h : m.serve calls = some m') : m'.settings = m.settings :=
  serve_invariant (P := fun n => n.settings = m.settings) (fun _ _ _ hn => hn)
    (fun read n hn => (step_fixed read n).1.trans hn) rfl h

theorem serve_of_stopped {m : Machine} (hm : m.status.isStopped = true)
    {calls : List (Reader × Call)} (h : ∀ c ∈ calls, c.2 = .step ∨ c.2 = .run) :
    m.serve calls = some m := by
  induction calls with
  | nil => rfl
  | cons c calls ih =>
    obtain ⟨read, call⟩ := c
    have hanswer : m.answer read call = some m := by
      rcases h _ List.mem_cons_self with hcall | hcall
      · rw [show call = .step from hcall, answer, step_of_stopped read hm]
      · rw [show call = .run from hcall, answer]
        exact runFor_of_stopped read _ hm
    rw [serve, hanswer]
    exact ih fun c hc => h c (List.mem_cons_of_mem _ hc)

/-! ### What is seen of a run -/

theorem map_observe_of_quiet {x y : Option Machine} (h : x.map quiet = y.map quiet) :
    x.map observe = y.map observe := by
  have hquiet (x : Option Machine) : (x.map quiet).map observe = x.map observe := by
    rw [Option.map_map]
    rfl
  rw [← hquiet x, h, hquiet]

section

variable (m : Machine)

theorem quiet_run (read other : Reader) : (m.run read).map quiet = m.quiet.run other := by
  have henough : m.quiet.enough = m.enough := rfl
  rw [run, run, henough]
  exact quiet_runFor read other m m.enough

/-- Whatever source files hold at the steps, a machine takes the course of the quiet one. -/
theorem quiet_afterEach (files : List Reader) (other : Reader) :
    (m.afterEach files).quiet = m.quiet.after other files.length := by
  induction files generalizing m with
  | nil => rfl
  | cons read files ih =>
    calc (m.afterEach (read :: files)).quiet
        = (m.step read).quiet.after other files.length := ih (m.step read)
      _ = (m.quiet.step other).after other files.length := by rw [quiet_step read other]
      _ = m.quiet.after other (files.length + 1) := rfl

theorem quiet_after (read other : Reader) (k : Nat) :
    (m.after read k).quiet = m.quiet.after other k := by
  rw [← afterEach_replicate, quiet_afterEach m _ other, List.length_replicate]

theorem run_after (read : Reader) (k : Nat) : (m.after read k).run read = m.run read := by
  apply Option.ext
  intro m'
  rw [run_eq_some_iff, run_eq_some_iff]
  constructor
  · rintro ⟨l, hl, hstopped⟩
    exact ⟨k + l, by rw [after_add, hl], hstopped⟩
  · rintro ⟨l, rfl, hstopped⟩
    refine ⟨l, ?_, hstopped⟩
    rw [← after_add]
    exact after_of_le hstopped (Nat.le_add_left l k)

theorem map_observe_run_afterEach (files : List Reader) (read later : Reader) :
    ((m.afterEach files).run later).map observe = (m.run read).map observe := by
  apply map_observe_of_quiet
  calc ((m.afterEach files).run later).map quiet
      = (m.afterEach files).quiet.run read := quiet_run _ later read
    _ = (m.quiet.after read files.length).run read := by rw [quiet_afterEach m files read]
    _ = m.quiet.run read := m.quiet.run_after read files.length
    _ = (m.run read).map quiet := (m.quiet_run read read).symm

theorem status_step_cases (read : Reader) :
    (m.step read).status = .running ∨ (m.step read).status.isStopped = true := by
  cases h : (m.step read).status with
  | running => exact Or.inl rfl
  | halted | trapped _ => exact Or.inr rfl
  | ready =>
    exfalso
    rcases m.step_cases read with ⟨hstopped, hstep⟩ | ⟨-, cause, -, hstep⟩ | ⟨-, s, -, hstep⟩
    · rw [← hstep, h] at hstopped
      cases hstopped
    · rw [hstep] at h
      cases h
    · rw [hstep] at h
      unfold carryOut at h
      simp only at h
      split at h <;> cases h

/-- **A run is seen as steps until one does not leave the machine running**, whatever source files
hold at each of them. -/
theorem map_observe_run_eq_some_iff (read : Reader) (files : Nat → Reader) (o : Observation) :
    let steps (k : Nat) : Machine := m.afterEach ((List.range k).map files)
    (m.run read).map observe = some o ↔
      ∃ k, (steps (k + 1)).observe = o ∧ o.status ≠ .running ∧
        ∀ j < k, (steps (j + 1)).status = .running := by
  intro steps
  have hquiet (k : Nat) : (steps k).quiet = (m.after read k).quiet := by
    rw [quiet_afterEach m _ read, quiet_after m read read, List.length_map, List.length_range]
  have hobserve (k : Nat) : (steps k).observe = (m.after read k).observe := by
    show (steps k).quiet.observe = (m.after read k).quiet.observe
    rw [hquiet]
  have hstatus (k : Nat) : (steps k).status = (m.after read k).status :=
    congrArg Observation.status (hobserve k)
  have hcases (k : Nat) : (steps (k + 1)).status = .running ∨
      (steps (k + 1)).status.isStopped = true := by
    have hsucc : steps (k + 1) = (steps k).step (files k) := by
      simp [steps, afterEach, List.range_succ]
    rw [hsucc]
    exact status_step_cases _ _
  constructor
  · intro h
    obtain ⟨m', hrun, rfl⟩ := Option.map_eq_some_iff.mp h
    obtain ⟨l, rfl, hstopped⟩ := run_eq_some_iff.mp hrun
    have hexists : ∃ k, (steps (k + 1)).status.isStopped = true := by
      refine ⟨l, ?_⟩
      rw [hstatus, after_of_le hstopped (Nat.le_succ l)]
      exact hstopped
    have hfirst := Nat.find_spec hexists
    rw [hstatus] at hfirst
    refine ⟨Nat.find hexists, ?_, fun hrunning => ?_, fun j hj => ?_⟩
    · rw [hobserve, after_eq_of_stopped hfirst hstopped]
    · rw [show (m.after read l).status = .running from hrunning] at hstopped
      cases hstopped
    · exact (hcases j).resolve_right (Nat.find_min hexists hj)
  · rintro ⟨k, rfl, hend, -⟩
    have hstopped := (hcases k).resolve_left hend
    rw [hstatus] at hstopped
    rw [run_eq_some_iff.mpr ⟨k + 1, rfl, hstopped⟩, hobserve]
    rfl

end

/-! ### A machine that is loaded anew -/

/-- Machines that differ in their traces answer calls alike, whatever source files hold. -/
theorem map_quiet_serve {m n : Machine} (h : m.quiet = n.quiet) {calls calls' : List (Reader × Call)}
    (hcalls : calls.map Prod.snd = calls'.map Prod.snd) :
    (m.serve calls).map quiet = (n.serve calls').map quiet := by
  induction calls generalizing m n calls' with
  | nil =>
    obtain rfl : calls' = [] := by simpa using hcalls.symm
    exact congrArg some h
  | cons c calls ih =>
    obtain ⟨⟨read', call⟩, rest, rfl⟩ : ∃ c' rest, calls' = c' :: rest :=
      List.exists_cons_of_ne_nil (by rintro rfl; cases hcalls)
    obtain ⟨read, call'⟩ := c
    obtain ⟨rfl, hrest⟩ : call' = call ∧ calls.map Prod.snd = rest.map Prod.snd := by
      simpa using hcalls
    have hanswer : (m.answer read call').map quiet = (n.answer read' call').map quiet := by
      cases call' with
      | load program initial => exact congrArg (fun k => some (k.load program initial)) h
      | step =>
        refine congrArg some ?_
        rw [quiet_step read read m, quiet_step read' read n, h]
      | run =>
        show (m.run read).map quiet = (n.run read').map quiet
        rw [quiet_run m read read, quiet_run n read' read, h]
    rw [serve, serve]
    -- Both calls end, or neither does.
    cases hm : m.answer read call' with
    | none =>
      rw [hm, Option.map_none, eq_comm, Option.map_eq_none_iff] at hanswer
      rw [hanswer]
      rfl
    | some m' =>
      rw [hm, Option.map_some, eq_comm] at hanswer
      obtain ⟨n', hn, hquiet⟩ := Option.map_eq_some_iff.mp hanswer
      rw [hn]
      exact ih hquiet.symm hrest

end Machine

/-! ### Where machines halt -/

/-- Only `halt` halts a machine. -/
theorem Statement.operation_of_halt {s : Statement} {state : State}
    (h : (s.execute state).verdict = .halt) : s.operation = .halt := by
  unfold execute at h
  split at h
  · rename_i i hi
    cases i with
    | halt => exact (parts_of_instruction hi).1
    | branch c target =>
      cases c with
      | always => cases h
      | zero | nonzero =>
        simp only [Instruction.execute] at h
        split at h <;> cases h
    | _ => cases h
  · cases h

namespace Machine

/-- If the machine has halted, its counter is at a `halt`. -/
def RestsOnHalt (m : Machine) : Prop :=
  m.status = .halted → ∃ s, m.program[m.state.pc.toNat]? = some s ∧ s.operation = .halt

theorem RestsOnHalt.step (read : Reader) (m : Machine) (h : m.RestsOnHalt) :
    (m.step read).RestsOnHalt := by
  intro hhalted
  rcases m.step_cases read with ⟨-, hstep⟩ | ⟨-, cause, -, hstep⟩ | ⟨-, s, hfetch, hstep⟩
  · rw [hstep] at hhalted ⊢
    exact h hhalted
  · rw [hstep] at hhalted
    cases hhalted
  · rw [hstep] at hhalted ⊢
    cases hverdict : (s.execute (m.traced read s).state).verdict with
    | trap cause =>
      rw [carryOut_of_trap hverdict] at hhalted
      cases hhalted
    | next pc =>
      rw [carryOut_of_next hverdict] at hhalted
      cases hhalted
    | halt =>
      rw [carryOut_of_halt hverdict]
      refine ⟨s, ?_, Statement.operation_of_halt hverdict⟩
      show m.program[(s.execute m.state).state.pc.toNat]? = some s
      rw [s.execute_pc m.state]
      exact (fetch_eq_ok hfetch).1

theorem isSome_trap?_iff (m : Machine) :
    m.trap?.isSome = true ↔ ∃ cause, m.status = .trapped cause := by
  unfold trap?
  split <;> simp_all

/-- **What holds at any time in the life of a machine.** If it has stopped, it stays as it is, the
trace and all, until a program is loaded. A run is seen as any steps followed by a run, and as steps
until one of them does not leave the machine running, whatever source files hold at each of them.
From a `load` on, calls are answered as a new machine with the same settings answers them. A trap is
reported if the machine has trapped and only then, and if it has halted, it is at a `halt`. -/
theorem lifecycle {settings : Settings} {history : List (Reader × Call)} {m : Machine}
    (h : ({ settings } : Machine).serve history = some m) :
    (m.status.isStopped = true → ∀ calls : List (Reader × Call),
      (∀ c ∈ calls, c.2 = .step ∨ c.2 = .run) → m.serve calls = some m) ∧
    (∀ (files : List Reader) (read later : Reader),
      ((m.afterEach files).run later).map observe = (m.run read).map observe) ∧
    (∀ (read : Reader) (files : Nat → Reader) (o : Observation),
      let steps (k : Nat) : Machine := m.afterEach ((List.range k).map files)
      (m.run read).map observe = some o ↔
        ∃ k, (steps (k + 1)).observe = o ∧ o.status ≠ .running ∧
          ∀ j < k, (steps (j + 1)).status = .running) ∧
    (∀ (program : Program) (initial : State) (calls calls' : List (Reader × Call)),
      calls.map Prod.snd = calls'.map Prod.snd →
        ((m.load program initial).serve calls).map observe =
          ((({ settings } : Machine).load program initial).serve calls').map observe) ∧
    (m.trap?.isSome = true ↔ ∃ cause, m.status = .trapped cause) ∧
    (m.status = .halted → ∃ s, m.program[m.state.pc.toNat]? = some s ∧ s.operation = .halt) := by
  have hsettings : m.settings = settings := settings_of_serve h
  have hrests : m.RestsOnHalt :=
    serve_invariant (fun _ _ _ _ hstatus => by cases hstatus) RestsOnHalt.step
      (fun hstatus => by cases hstatus) h
  refine ⟨fun hstopped calls hcalls => serve_of_stopped hstopped hcalls,
    m.map_observe_run_afterEach, m.map_observe_run_eq_some_iff,
    fun program initial calls calls' hcalls => ?_, m.isSome_trap?_iff, hrests⟩
  apply map_observe_of_quiet
  refine map_quiet_serve ?_ hcalls
  subst hsettings
  rfl

/-- A machine that has trapped at an addition without operands is loaded with a program that halts,
and then with the first one again. -/
theorem lifecycle_of_reload :
    let broken : Program := [{ operation := .nop }, { operation := .add }]
    let halting : Program := [{ operation := .halt }]
    let read : Reader := fun _ => none
    let settings : Settings := { mode := .instructions, stepLimit := 3 }
    let history : List (Reader × Call) := [(read, .load broken {}), (read, .run),
      (read, .load halting {}), (read, .step)]
    let seen : Observation :=
      { status := .trapped (.malformed { operation := .add } (.operandCount 0))
        state := { pc := 1 }
        count := 1
        kind := .invalidOperand
        message := ascii "'add' has 0 operands, expected 3"
        error := some {
          kind := .invalidOperand
          pc := 1
          message := ascii "'add' has 0 operands, expected 3" } }
    ∃ m, ({ settings } : Machine).serve history = some m ∧ m.status = .halted ∧
      m.trace.length = 3 ∧ m.serve [(read, .run), (read, .step)] = some m ∧
      (∃ s, m.program[m.state.pc.toNat]? = some s ∧ s.operation = .halt) ∧
      ((m.load broken {}).serve [(read, .run)]).map observe = some seen := by
  intro broken halting read settings history seen
  obtain ⟨m, hm⟩ : ∃ m, ({ settings } : Machine).serve history = some m :=
    Option.isSome_iff_exists.mp (by decide)
  have hend : (({ settings } : Machine).serve history).map (fun n => (n.status, n.trace.length)) =
      some (.halted, 3) := by decide
  rw [hm, Option.map_some, Option.some.injEq, Prod.mk.injEq] at hend
  obtain ⟨hstatus, htrace⟩ := hend
  obtain ⟨hstays, -, -, hreload, -, hrests⟩ := lifecycle hm
  refine ⟨m, hm, hstatus, htrace, hstays (by rw [hstatus]; rfl) _ (by decide), hrests hstatus, ?_⟩
  rw [hreload broken {} [(read, .run)] [(read, .run)] rfl]
  decide

end Machine
end RegisterMachine
