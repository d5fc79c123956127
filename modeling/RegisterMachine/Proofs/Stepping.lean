/-
# What a step does

A step of a machine that has not stopped either finds no statement that it may
carry out, and traps, or carries out the one it finds (`Machine.step_cases`).
Carrying out an instruction ends in a halt or goes on elsewhere, and counts one
more instruction (`Machine.carryOut_of_means`).

A client drives a machine by steps and runs in any order; `Machine.Reaches` are
the machines it can get to, and what every step keeps, all of them have
(`Machine.Reaches.invariant`). With a limit on its steps every run ends
(`Machine.run_isSome_of_limit`).

Key definitions: `Machine.Reaches`.
Key theorems: `Instruction.next_cases`, `Machine.step_cases`,
`Machine.carryOut_of_means`, `Machine.Reaches.invariant`,
`Machine.run_isSome_of_limit`.
-/
import RegisterMachine.Machine.Run
import RegisterMachine.Proofs.WellFormed

namespace RegisterMachine

/-! ### Verdicts -/

namespace Instruction

theorem verdict_cases (i : Instruction) (s : State) :
    (i.execute s).verdict = .halt ∨ ∃ pc, (i.execute s).verdict = .next pc := by
  cases h : (i.execute s).verdict with
  | next pc => exact Or.inr ⟨pc, rfl⟩
  | halt => exact Or.inl rfl
  | trap cause => exact absurd h (execute_ne_trap i s cause)

/-- The machine goes on behind the instruction, or at an address of 12 bits. -/
theorem next_cases {i : Instruction} (hi : i.Fits) {s : State} {pc : UInt16}
    (h : (i.execute s).verdict = .next pc) : pc = s.pc + 1 ∨ pc ≤ Operand.maxAddress := by
  cases i with
  | halt => cases h
  | nop | move _ _ | complement _ _ | binary _ _ _ _ | withImmediate _ _ _ _ =>
    cases h
    exact Or.inl rfl
  | branch c target =>
    cases c with
    | always =>
      cases h
      exact Or.inr hi
    | zero | nonzero =>
      simp only [execute] at h
      split at h
      · cases h
        exact Or.inr hi
      · cases h
        exact Or.inl rfl

end Instruction

theorem Statement.Means.execute_eq {s : Statement} {i : Instruction} (h : s.Means i)
    (state : State) : s.execute state = i.execute state := by
  rw [Statement.execute, h.instruction_eq]

/-- Only a statement that is no instruction traps when it is carried out. -/
theorem Statement.malformed_of_execute {s : Statement} {state : State} {cause : TrapCause}
    (h : (s.execute state).verdict = .trap cause) : ∃ fault, cause = .malformed s fault := by
  unfold execute at h
  split at h
  · exact absurd h (Instruction.execute_ne_trap _ _ _)
  · rename_i fault _
    cases h
    exact ⟨fault, rfl⟩

namespace Machine

/-! ### Steps -/

theorem fetch_eq_ok {m : Machine} {s : Statement} (h : m.fetch = .ok s) :
    m.program[m.state.pc.toNat]? = some s ∧
      (m.settings.stepLimit ≠ 0 → m.count < m.settings.stepLimit) := by
  unfold fetch at h
  split at h
  · cases h
  · rename_i t ht
    split at h
    · cases h
    · rename_i hlimit
      cases h
      exact ⟨ht, fun hne => UInt64.not_le.mp fun hle => hlimit ⟨hne, hle⟩⟩

theorem fetch_eq_error {m : Machine} {cause : TrapCause} (h : m.fetch = .error cause) :
    cause = .outOfBounds m.state.pc ∨ cause = .stepLimit m.settings.stepLimit := by
  unfold fetch at h
  split at h
  · cases h
    exact Or.inl rfl
  · split at h
    · cases h
      exact Or.inr rfl
    · cases h

/-- A machine has stopped, or traps at the fetch, or carries out what it has fetched. -/
theorem step_cases (read : Reader) (m : Machine) :
    (m.status.isStopped = true ∧ m.step read = m) ∨
      (m.status.isStopped = false ∧ ∃ cause, m.fetch = .error cause ∧ m.step read = m.stop cause) ∨
      (m.status.isStopped = false ∧ ∃ s, m.fetch = .ok s ∧
        m.step read = (m.traced read s).carryOut s) := by
  cases hstopped : m.status.isStopped with
  | true => exact Or.inl ⟨rfl, step_of_stopped read hstopped⟩
  | false =>
    rw [step, if_neg (by simp [hstopped])]
    cases m.fetch with
    | error cause => exact Or.inr (Or.inl ⟨rfl, cause, rfl, rfl⟩)
    | ok s => exact Or.inr (Or.inr ⟨rfl, s, rfl, rfl⟩)

theorem carryOut_of_trap {m : Machine} {s : Statement} {cause : TrapCause}
    (h : (s.execute m.state).verdict = .trap cause) : m.carryOut s = m.stop cause := by
  simp only [carryOut, h]

theorem carryOut_of_halt {m : Machine} {s : Statement} (h : (s.execute m.state).verdict = .halt) :
    m.carryOut s =
      { m with state := (s.execute m.state).state, count := m.count + 1, status := .halted } := by
  simp only [carryOut, h]

theorem carryOut_of_next {m : Machine} {s : Statement} {pc : UInt16}
    (h : (s.execute m.state).verdict = .next pc) :
    m.carryOut s =
      { m with state := { (s.execute m.state).state with pc }, count := m.count + 1
               status := .running } := by
  simp only [carryOut, h]

/-- An instruction is carried out: the machine halts where it is, or goes on where the instruction
sends it. -/
theorem carryOut_of_means {m : Machine} {s : Statement} {i : Instruction} (h : s.Means i) :
    ((m.carryOut s).status = .halted ∧ (m.carryOut s).state = (i.execute m.state).state) ∨
      ((m.carryOut s).status = .running ∧ ∃ pc, (i.execute m.state).verdict = .next pc ∧
        (m.carryOut s).state = { (i.execute m.state).state with pc }) := by
  have hexecute := h.execute_eq m.state
  rcases i.verdict_cases m.state with hverdict | ⟨pc, hverdict⟩
  · rw [carryOut_of_halt (by rw [hexecute, hverdict]), hexecute]
    exact Or.inl ⟨rfl, rfl⟩
  · rw [carryOut_of_next (by rw [hexecute, hverdict]), hexecute]
    exact Or.inr ⟨rfl, pc, hverdict, rfl⟩

@[simp] theorem carryOut_program (m : Machine) (s : Statement) :
    (m.carryOut s).program = m.program := by
  unfold carryOut
  simp only
  split <;> rfl

/-! ### Runs -/

/-- The machines that a client gets to by steps and runs, with what source files hold then. -/
inductive Reaches (m : Machine) : Machine → Prop
  | refl : Reaches m m
  | step {n : Machine} (read : Reader) (h : Reaches m n) : Reaches m (n.step read)
  | run {n n' : Machine} (read : Reader) (h : Reaches m n) (hrun : n.run read = some n') :
    Reaches m n'

theorem runFor_invariant {P : Machine → Prop} (read : Reader)
    (hstep : ∀ m, P m → P (m.step read)) : ∀ {fuel : Nat} {m m' : Machine}, P m →
    m.runFor read fuel = some m' → P m'
  | 0, m, m', hm, h => by
    rw [runFor] at h
    split at h
    · cases h
      exact hm
    · cases h
  | fuel + 1, m, m', hm, h => by
    rw [runFor] at h
    split at h
    · cases h
      exact hm
    · exact runFor_invariant read hstep (hstep m hm) h

/-- What every step keeps, all machines have that can be reached. -/
theorem Reaches.invariant {P : Machine → Prop} (hstep : ∀ read m, P m → P (m.step read))
    {m m' : Machine} (hm : P m) (h : m.Reaches m') : P m' := by
  induction h with
  | refl => exact hm
  | step read _ ih => exact hstep read _ ih
  | run read _ hrun ih => exact runFor_invariant read (hstep read) ih hrun

/-- A counter that is below another number does not wrap at its next step. -/
theorem toNat_succ_of_lt {count limit : UInt64} (h : count < limit) :
    (count + 1).toNat = count.toNat + 1 := by
  have hlt := UInt64.lt_iff_toNat_lt.mp h
  have hlimit := limit.toNat_lt
  have hone : (1 : UInt64).toNat = 1 := rfl
  rw [UInt64.toNat_add, hone, Nat.mod_eq_of_lt (by omega)]

/-- A step stops the machine, or counts one more instruction within the limit. -/
theorem step_count (read : Reader) (m : Machine) :
    (m.step read).status.isStopped = true ∨
      ((m.step read).count = m.count + 1 ∧ (m.step read).settings = m.settings ∧
        (m.settings.stepLimit ≠ 0 → m.count < m.settings.stepLimit)) := by
  rcases m.step_cases read with ⟨hstopped, hstep⟩ | ⟨-, cause, -, hstep⟩ | ⟨-, s, hfetch, hstep⟩
  · rw [hstep]
    exact Or.inl hstopped
  · rw [hstep]
    exact Or.inl rfl
  · rw [hstep]
    cases hverdict : (s.execute (m.traced read s).state).verdict with
    | trap cause =>
      rw [carryOut_of_trap hverdict]
      exact Or.inl rfl
    | halt =>
      rw [carryOut_of_halt hverdict]
      exact Or.inl rfl
    | next pc =>
      rw [carryOut_of_next hverdict]
      exact Or.inr ⟨rfl, rfl, (fetch_eq_ok hfetch).2⟩

/-- As many steps as the limit leaves, and one more, are enough for a run. -/
theorem runFor_isSome_of_limit (read : Reader) {fuel : Nat} {m : Machine}
    (hne : m.settings.stepLimit ≠ 0)
    (hfuel : m.settings.stepLimit.toNat - m.count.toNat < fuel) :
    (m.runFor read fuel).isSome = true := by
  induction fuel generalizing m with
  | zero => exact absurd hfuel (Nat.not_lt_zero _)
  | succ fuel ih =>
    rw [runFor]
    split
    · rfl
    · rcases m.step_count read with hstopped | ⟨hcount, hsettings, hlimit⟩
      · rw [runFor_of_stopped read fuel hstopped]
        rfl
      · have hlt := UInt64.lt_iff_toNat_lt.mp (hlimit hne)
        refine ih (by rwa [hsettings]) ?_
        rw [hsettings, hcount, toNat_succ_of_lt (hlimit hne)]
        omega

theorem run_isSome_of_limit (read : Reader) {m : Machine} (h : m.settings.stepLimit ≠ 0) :
    (m.run read).isSome = true := by
  refine runFor_isSome_of_limit read h ?_
  rw [enough, if_neg h]
  omega

end Machine
end RegisterMachine
