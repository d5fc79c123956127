/-
# A trace of instructions is exact

An `Attempt` is a statement that a machine has fetched and is about to carry
out, with the state it is in then. A step makes one attempt or none: none if the
machine has stopped, or stops at the fetch (`Machine.step_attempt_cases`). So
the attempts on a course can be listed without a look at the trace
(`Machine.attempts`), and the trace of instructions is a line for each of them
(`Machine.trace_after`).

What the attempts have to do with each other is an invariant of the course,
`Machine.Attempted`. The first is made in the state that the machine was loaded
with, and each of the others in the state that the one before leads to. Where
the last one leads to depends on how the machine stands. All attempts are carried
out but one that traps, and then the machine has stopped.

How many were carried out is a number of the attempts, `Machine.executed`. The
counter of the machine is this number modulo `2 ^ 64`, and the number itself if
the steps are limited (`Machine.Attempted.toNat_count`).

Key definitions: `Attempt`, `Attempt.line`, `Attempt.LeadsTo`,
`Attempt.executed`, `Machine.attempts`, `Machine.executed`, `Machine.Attempted`.
Key theorems: `Machine.step_attempt_cases`, `Machine.carryOut_cases`,
`Machine.trace_after`, `Machine.Attempted.step`, `Machine.attempted_after`,
`Machine.Attempted.toNat_count`, `interpret_trace_of_attempts`.
-/
import RegisterMachine.Proofs.Runs
import RegisterMachine.Proofs.Tracing

namespace RegisterMachine

/-- A statement that is about to be carried out, and the state it is to be carried out in. -/
structure Attempt where
  state : State
  statement : Statement
deriving DecidableEq, Repr, Inhabited

namespace Attempt

/-- What the attempt comes to. -/
def execution (a : Attempt) : Execution := a.statement.execute a.state

/-- The line that shows the attempt in a trace of instructions. -/
def line (a : Attempt) : Bytes :=
  ascii "[trace] pc=" ++ Numeral.zeroPadded 4 a.state.pc.toNat ++ ascii " " ++ a.statement.text ++
    ascii "\n"

theorem statementLine_eq (a : Attempt) : Trace.statementLine a.state.pc a.statement = a.line := by
  have htag : ascii "[trace] pc=" = Trace.tag ++ ascii "pc=" := by decide
  have hend : ascii "\n" = [Bytes.newline] := by decide
  rw [line, Trace.statementLine, htag, hend]

theorem line_ne_nil (a : Attempt) : a.line ≠ [] := by
  unfold line
  exact List.append_ne_nil_of_right_ne_nil _ (by decide)

/-- The attempt is an instruction, and is carried out. -/
def isCarriedOut (a : Attempt) : Bool :=
  match a.execution.verdict with
  | .next _ | .halt => true
  | .trap _ => false

/-- How many of the attempts are carried out. -/
def executed (attempts : List Attempt) : Nat := attempts.countP isCarriedOut

theorem executed_concat (attempts : List Attempt) (a : Attempt) :
    executed (attempts ++ [a]) = executed attempts + if a.isCarriedOut then 1 else 0 := by
  rw [executed, List.countP_append, List.countP_singleton]
  rfl

/-- The attempt is an instruction that sends the machine on in this state. -/
def LeadsTo (a : Attempt) (s : State) : Prop :=
  a.execution.verdict = .next s.pc ∧ s = { a.execution.state with pc := s.pc }

/-- The state that attempts lead to, the first of which is made in `initial`. -/
def Arrive (initial : State) (attempts : List Attempt) (s : State) : Prop :=
  match attempts.getLast? with
  | none => s = initial
  | some a => a.LeadsTo s

end Attempt

namespace Machine

/-! ### The attempts on a course -/

/-- The attempt that the next step makes, if it makes one. -/
def attempt? (m : Machine) : Option Attempt :=
  if m.status.isStopped then none
  else
    match m.fetch with
    | .error _ => none
    | .ok s => some { state := m.state, statement := s }

/-- The attempts that the next steps make, in their order. -/
def attempts (read : Reader) (m : Machine) : Nat → List Attempt
  | 0 => []
  | k + 1 => m.attempts read k ++ (m.after read k).attempt?.toList

/-- How many instructions the next steps carry out. -/
def executed (read : Reader) (m : Machine) (k : Nat) : Nat := Attempt.executed (m.attempts read k)

/-- A step that makes no attempt leaves the machine as it is or stops it at the fetch, and a step
that makes one traces it and carries it out. -/
theorem step_attempt_cases (read : Reader) (m : Machine) :
    (m.attempt? = none ∧ m.status.isStopped = true ∧ m.step read = m) ∨
      (m.attempt? = none ∧ m.status.isStopped = false ∧
        ∃ cause, m.fetch = .error cause ∧ m.step read = m.stop cause) ∨
      ∃ s, m.attempt? = some { state := m.state, statement := s } ∧ m.status.isStopped = false ∧
        m.fetch = .ok s ∧ m.step read = (m.traced read s).carryOut s := by
  unfold attempt?
  rcases m.step_cases read with
    ⟨hstopped, hstep⟩ | ⟨hgoing, cause, hfetch, hstep⟩ | ⟨hgoing, s, hfetch, hstep⟩
  · simp [hstopped, hstep]
  · simp [hgoing, hfetch, hstep]
  · simp [hgoing, hfetch, hstep]

/-- An attempt traps, with the fault of its statement, or it is carried out and counted: the machine
halts or goes on. -/
theorem carryOut_cases {m : Machine} {a : Attempt} (hstate : m.state = a.state) :
    (∃ fault, a.execution.verdict = .trap (.malformed a.statement fault) ∧
        a.isCarriedOut = false ∧ m.carryOut a.statement = m.stop (.malformed a.statement fault)) ∨
      a.isCarriedOut = true ∧
        (a.execution.verdict = .halt ∧ m.carryOut a.statement =
            { m with state := a.execution.state, count := m.count + 1, status := .halted } ∨
          ∃ pc, a.execution.verdict = .next pc ∧ m.carryOut a.statement =
            { m with state := { a.execution.state with pc }, count := m.count + 1,
                     status := .running }) := by
  have hexecution : a.statement.execute m.state = a.execution := by rw [hstate, Attempt.execution]
  cases hverdict : a.execution.verdict with
  | trap cause =>
    obtain ⟨fault, rfl⟩ := Statement.malformed_of_execute hverdict
    exact Or.inl ⟨fault, rfl, by rw [Attempt.isCarriedOut, hverdict],
      carryOut_of_trap (hexecution ▸ hverdict)⟩
  | halt =>
    refine Or.inr ⟨by rw [Attempt.isCarriedOut, hverdict], Or.inl ⟨rfl, ?_⟩⟩
    rw [carryOut_of_halt (hexecution ▸ hverdict), hexecution]
  | next pc =>
    refine Or.inr ⟨by rw [Attempt.isCarriedOut, hverdict], Or.inr ⟨pc, rfl, ?_⟩⟩
    rw [carryOut_of_next (hexecution ▸ hverdict), hexecution]

/-! ### How many are carried out -/

section

variable {read : Reader} {m : Machine} {k : Nat}

theorem executed_of_none (h : (m.after read k).attempt? = none) :
    m.executed read (k + 1) = m.executed read k := by
  rw [executed, attempts, h, Option.toList_none, List.append_nil, executed]

theorem executed_of_some {a : Attempt} (h : (m.after read k).attempt? = some a) :
    m.executed read (k + 1) = m.executed read k + if a.isCarriedOut then 1 else 0 := by
  rw [executed, attempts, h]
  exact Attempt.executed_concat _ _

theorem executed_succ (read : Reader) (m : Machine) (k : Nat) :
    m.executed read k ≤ m.executed read (k + 1) ∧
      m.executed read (k + 1) ≤ m.executed read k + 1 := by
  cases h : (m.after read k).attempt? with
  | none =>
    rw [executed_of_none h]
    exact ⟨Nat.le_refl _, Nat.le_succ _⟩
  | some a =>
    rw [executed_of_some h]
    split <;> omega

theorem executed_le (read : Reader) (m : Machine) (k : Nat) : m.executed read k ≤ k := by
  induction k with
  | zero => exact Nat.le_refl _
  | succ k ih => exact (executed_succ read m k).2.trans (Nat.succ_le_succ ih)

theorem executed_mono (read : Reader) (m : Machine) {k l : Nat} (h : k ≤ l) :
    m.executed read k ≤ m.executed read l := by
  induction l, h using Nat.le_induction with
  | base => exact Nat.le_refl _
  | succ l _ ih => exact ih.trans (executed_succ read m l).1

theorem executed_of_le {l : Nat} (h : (m.after read k).status.isStopped = true) (hkl : k ≤ l) :
    m.executed read l = m.executed read k := by
  induction l, hkl using Nat.le_induction with
  | base => rfl
  | succ l hkl ih =>
    have hstopped : (m.after read l).status.isStopped = true := by rwa [after_of_le h hkl]
    rw [executed_of_none (by rw [attempt?, if_pos hstopped]), ih]

end

/-! ### The trace of a course -/

section

variable {m : Machine}

theorem traced_trace (hm : m.settings.mode = .instructions) (read : Reader) (s : Statement) :
    (m.traced read s).trace = Attempt.line { state := m.state, statement := s } :: m.trace := by
  have hline := Attempt.statementLine_eq { state := m.state, statement := s }
  simp [traced, Trace.ofStatement, Trace.sourcePath, hm, hline, Attempt.line_ne_nil]

theorem trace_step (hm : m.settings.mode = .instructions) (read : Reader) :
    (m.step read).trace = m.attempt?.toList.map Attempt.line ++ m.trace := by
  rcases m.step_attempt_cases read with
    ⟨hnone, -, hstep⟩ | ⟨hnone, -, cause, -, hstep⟩ | ⟨s, hsome, -, -, hstep⟩
  · rw [hstep, hnone]
    rfl
  · rw [hstep, hnone]
    rfl
  · rw [hstep, hsome, carryOut_trace, traced_trace hm]
    rfl

end

/-! ### How attempts follow each other -/

/-- What the machine has attempted since it was loaded with the state `initial`. -/
structure Attempted (m : Machine) (initial : State) (attempts : List Attempt) : Prop where
  fetched : ∀ a ∈ attempts, m.program[a.state.pc.toNat]? = some a.statement
  first : ∀ a ∈ attempts.head?, a.state = initial
  chain : attempts.IsChain fun a b => a.LeadsTo b.state
  count : m.count = (Attempt.executed attempts).toUInt64
  limited : m.settings.stepLimit ≠ 0 → Attempt.executed attempts ≤ m.settings.stepLimit.toNat
  standing : match m.status with
    | .ready | .running | .trapped (.outOfBounds _) | .trapped (.stepLimit _) =>
      attempts.length = Attempt.executed attempts ∧ Attempt.Arrive initial attempts m.state
    | .halted => attempts.length = Attempt.executed attempts ∧
      ∃ a ∈ attempts.getLast?, a.execution.verdict = .halt ∧ m.state = a.execution.state
    | .trapped (.malformed s fault) => attempts.length = Attempt.executed attempts + 1 ∧
      ∃ a ∈ attempts.getLast?, a.execution.verdict = .trap (.malformed s fault) ∧ m.state = a.state

namespace Attempted

variable {m : Machine} {initial : State} {attempts : List Attempt}

/-- While it is going, a machine is where its attempts lead to. -/
theorem arrive (h : m.Attempted initial attempts) (hgoing : m.status.isStopped = false) :
    attempts.length = Attempt.executed attempts ∧ Attempt.Arrive initial attempts m.state := by
  have hstanding := h.standing
  cases hstatus : m.status with
  | ready | running => simpa [hstatus] using hstanding
  | halted | trapped cause =>
    rw [hstatus] at hgoing
    cases hgoing

/-- With a limit, and also below `2 ^ 64` instructions, the counter has not wrapped. -/
theorem toNat_count (h : m.Attempted initial attempts)
    (hbound : m.settings.stepLimit ≠ 0 ∨ Attempt.executed attempts < 2 ^ 64) :
    m.count.toNat = Attempt.executed attempts := by
  have hlt : Attempt.executed attempts < 2 ^ 64 := by
    rcases hbound with hlimit | hlt
    · exact Nat.lt_of_le_of_lt (h.limited hlimit) m.settings.stepLimit.toNat_lt
    · exact hlt
  rw [h.count]
  exact Nat.mod_eq_of_lt hlt

/-- An instruction that is carried out is one more for the counter, and within the limit. -/
theorem carriedOut (h : m.Attempted initial attempts) {a : Attempt} (ha : a.isCarriedOut = true)
    (hfetch : m.fetch = .ok a.statement) :
    m.count + 1 = (Attempt.executed (attempts ++ [a])).toUInt64 ∧
      (m.settings.stepLimit ≠ 0 →
        Attempt.executed (attempts ++ [a]) ≤ m.settings.stepLimit.toNat) := by
  rw [Attempt.executed_concat, if_pos ha]
  refine ⟨?_, fun hlimit => ?_⟩
  · rw [h.count]
    exact (UInt64.ofNat_add _ 1).symm
  · have hlt := UInt64.lt_iff_toNat_lt.mp ((fetch_eq_ok hfetch).2 hlimit)
    rw [h.toNat_count (Or.inl hlimit)] at hlt
    exact hlt

theorem follow (h : m.Attempted initial attempts) (hgoing : m.status.isStopped = false)
    {s : Statement} (hs : m.program[m.state.pc.toNat]? = some s) :
    let next : List Attempt := attempts ++ [{ state := m.state, statement := s }]
    (∀ a ∈ next, m.program[a.state.pc.toNat]? = some a.statement) ∧
      (∀ a ∈ next.head?, a.state = initial) ∧
      next.IsChain fun a b => a.LeadsTo b.state := by
  intro next
  have harrive := (h.arrive hgoing).2
  refine ⟨?_, ?_, ?_⟩
  · rw [List.forall_mem_append]
    exact ⟨h.fetched, List.forall_mem_singleton.mpr hs⟩
  · cases attempts with
    | nil => simpa [next, Attempt.Arrive] using harrive
    | cons a rest => exact h.first
  · refine List.isChain_append.mpr ⟨h.chain, List.isChain_singleton _, ?_⟩
    intro a ha b hb
    obtain rfl : { state := m.state, statement := s } = b := by simpa using hb
    rw [Attempt.Arrive, Option.mem_def.mp ha] at harrive
    exact harrive

/-- **A step makes one more attempt, or none.** -/
theorem step (h : m.Attempted initial attempts) (read : Reader) :
    (m.step read).Attempted initial (attempts ++ m.attempt?.toList) := by
  rcases m.step_attempt_cases read with
    ⟨hnone, -, hstep⟩ | ⟨hnone, hgoing, cause, hfetch, hstep⟩ | ⟨s, hsome, hgoing, hfetch, hstep⟩
  · rwa [hstep, hnone, Option.toList_none, List.append_nil]
  · rw [hstep, hnone, Option.toList_none, List.append_nil]
    refine ⟨h.fetched, h.first, h.chain, h.count, h.limited, ?_⟩
    rcases fetch_eq_error hfetch with rfl | rfl
    · exact h.arrive hgoing
    · exact h.arrive hgoing
  · let next : Attempt := { state := m.state, statement := s }
    rw [hstep, hsome, Option.toList_some]
    obtain ⟨hfetched, hfirst, hchain⟩ := h.follow hgoing (fetch_eq_ok hfetch).1
    obtain ⟨hlength, -⟩ := h.arrive hgoing
    have hlast : (attempts ++ [next]).getLast? = some next := List.getLast?_concat
    have hlonger : (attempts ++ [next]).length = Attempt.executed attempts + 1 := by
      rw [List.length_append, hlength, List.length_singleton]
    have hstate : (m.traced read s).state = next.state := rfl
    -- The attempt is the last one now, and what it comes to decides how the machine stands.
    rcases carryOut_cases hstate with
      ⟨fault, hverdict, hnot, hcarryOut⟩ | ⟨hcarried, ⟨hverdict, hcarryOut⟩ | ⟨pc, hverdict, hcarryOut⟩⟩
    · have hexecuted : Attempt.executed (attempts ++ [next]) = Attempt.executed attempts := by
        rw [Attempt.executed_concat, hnot]
        rfl
      rw [hcarryOut]
      refine ⟨hfetched, hfirst, hchain, ?_, ?_, ?_, next, hlast, hverdict, rfl⟩
      · rw [hexecuted]
        exact h.count
      · rw [hexecuted]
        exact h.limited
      · rw [hexecuted, hlonger]
    · obtain ⟨hcount, hlimited⟩ := h.carriedOut hcarried hfetch
      rw [hcarryOut]
      refine ⟨hfetched, hfirst, hchain, hcount, hlimited, ?_, next, hlast, hverdict, rfl⟩
      rw [Attempt.executed_concat, if_pos hcarried, hlonger]
    · obtain ⟨hcount, hlimited⟩ := h.carriedOut hcarried hfetch
      rw [hcarryOut]
      refine ⟨hfetched, hfirst, hchain, hcount, hlimited, ?_, ?_⟩
      · rw [Attempt.executed_concat, if_pos hcarried, hlonger]
      · rw [Attempt.Arrive, hlast]
        exact ⟨hverdict, rfl⟩

end Attempted

theorem attempted_after {m : Machine} (hready : m.status = .ready) (hcount : m.count = 0)
    (read : Reader) (k : Nat) : (m.after read k).Attempted m.state (m.attempts read k) := by
  induction k with
  | zero =>
    refine ⟨by simp [attempts], by simp [attempts], List.isChain_nil, hcount, fun _ => ?_, ?_⟩
    · exact Nat.zero_le _
    · rw [after_zero, hready]
      exact ⟨rfl, rfl⟩
  | succ k ih =>
    rw [after_succ, attempts]
    exact ih.step read

/-- Up to what a counter can hold, it holds the number of instructions carried out. -/
theorem toNat_count_after {m : Machine} (hready : m.status = .ready) (hcount : m.count = 0)
    (read : Reader) {n : UInt64} {k : Nat} (h : m.executed read k ≤ n.toNat) :
    (m.after read k).count.toNat = m.executed read k :=
  (attempted_after hready hcount read k).toNat_count (Or.inr (Nat.lt_of_le_of_lt h n.toNat_lt))

end Machine

end RegisterMachine
