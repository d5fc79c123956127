/-
# A trap changes nothing

A statement is checked as a whole before it is carried out. Its registers are
then taken by the low 8 bits of their numbers, and the write of a result fails
if there is no register of that number (`State.commit?`). After the check it
cannot fail: a number below 16 is what its low 8 bits say
(`Register.ofIndex?_toUInt8`), so no operand of a statement that is carried out
names another register than the one that was checked. So a check followed by an
execution on the operands as they are (`Statement.executeByNumber?`) never
misses a register and is what `Statement.execute` does
(`Statement.executeByNumber?_eq`).

A step that traps therefore stops the machine where it is: at the fetch, with
nothing touched, or at the check, with one more line in the trace
(`Machine.step_of_trapped`). A run that ends in a trap ends in the state in
which its last step began (`Machine.exists_last_step`).

Key definitions: `State.commit?`, `Statement.executeByNumber?`,
`Machine.TrapsAs`.
Key theorems: `State.commit?_of_isValue`, `Statement.executeByNumber?_eq`,
`Machine.status_step_eq_trapped_iff`, `Machine.step_of_trapped`,
`Machine.exists_last_step`, `Machine.trap_atomic`.
-/
import RegisterMachine.Proofs.Checking
import RegisterMachine.Proofs.Runs

namespace RegisterMachine

/-! ### Numbers of registers -/

/-- The state with a result in the register with this number and in the flags, if there is such a
register. -/
def State.commit? (s : State) (index : UInt8) (result : UInt8 × Bool) : Option State :=
  (s.registers.write? index result.1).map fun registers =>
    { s with registers, flags := { zero := result.1 == 0, overflow := result.2 } }

/-- The low 8 bits of the number of a register name that register. -/
theorem Register.ofIndex?_toUInt8 {index : UInt16} (h : (Operand.register index).IsValue) :
    ∃ r : Register, r.val = index.toNat ∧ ofIndex? index.toUInt8 = some r := by
  have hlt : index.toNat < 16 := UInt16.lt_iff_toNat_lt.mp h
  have hcut : index.toUInt8.toNat = index.toNat := by
    rw [UInt16.toNat_toUInt8]
    exact Nat.mod_eq_of_lt (by omega)
  refine ⟨⟨index.toNat, hlt⟩, rfl, ?_⟩
  rw [ofIndex?, dif_pos (hcut ▸ hlt)]
  exact congrArg some (Fin.ext hcut)

/-- A register that was checked can be read and written by the low 8 bits of its number. -/
theorem State.commit?_of_isValue {index : UInt16} (h : (Operand.register index).IsValue)
    (s : State) : ∃ r : Register, r.val = index.toNat ∧
      s.registers.read? index.toUInt8 = some (s.registers.get r) ∧
      ∀ result, s.commit? index.toUInt8 result = some (s.commit r result) := by
  obtain ⟨r, hr, hindex⟩ := Register.ofIndex?_toUInt8 h
  refine ⟨r, hr, ?_, fun result => ?_⟩
  · rw [Registers.read?, hindex]
    rfl
  · rw [commit?, Registers.write?, hindex]
    rfl

namespace Statement

variable {s : Statement}

theorem Executable.isValue {o : Operand} (h : s.Executable) (ho : o ∈ s.operands) : o.IsValue := by
  obtain ⟨shape, -, hshape⟩ := exists_left_of_forall₂ h.operands o ho
  exact hshape.2

theorem execute_pc (s : Statement) (state : State) : (s.execute state).state.pc = state.pc := by
  unfold execute
  split
  · exact Instruction.execute_pc _ _
  · rfl

end Statement

/-! ### A check, and an execution by number -/

/-- The number that an operand holds, whatever it is the number of; a label holds none. -/
def Operand.number? : Operand → Option UInt16
  | register index => some index
  | immediate value => some value
  | address value => some value
  | label _ => none

namespace Statement

/-- The number that the operand at a place holds. -/
def number? (s : Statement) (place : Nat) : Option UInt16 := s.operands[place]?.bind Operand.number?

/-- The value of the register that the operand at a place names by its low 8 bits. -/
def load? (s : Statement) (state : State) (place : Nat) : Option UInt8 :=
  (s.number? place).bind fun number => state.registers.read? number.toUInt8

/-- Goes on with a result in the register that the first operand names by its low 8 bits, or traps
if there is no such register. -/
def store? (s : Statement) (state : State) (result : UInt8 × Bool) : Option Execution :=
  (s.number? 0).map fun number =>
    match state.commit? number.toUInt8 result with
    | some written => { state := written, verdict := .next (state.pc + 1) }
    | none => { state, verdict := .trap (.malformed s (.noRegister number.toUInt8.toUInt16)) }

/-- Carries out the operation of a statement on what its operands hold, whatever they are. There is
no result of a label, nor where an operand is missing or a register that does not exist is read. -/
def operate? (s : Statement) (state : State) : Option Execution :=
  let behind : Verdict := .next (state.pc + 1)
  let unary (f : UInt8 → UInt8) : Option Execution := do
    s.store? state (f (← s.load? state 1), false)
  let binary (f : Binary) : Option Execution := do
    s.store? state (f.apply (← s.load? state 1) (← s.load? state 2))
  let immediate (f : Immediate) : Option Execution := do
    s.store? state (f.toBinary.apply (← s.load? state 1) (← s.number? 2).toUInt8)
  let branch (taken : Bool) : Option Execution := do
    let target ← s.number? 0
    return { state, verdict := if taken then .next target else behind }
  match s.operation with
  | .halt => some { state := state.resetFlags, verdict := .halt }
  | .nop => some { state := state.resetFlags, verdict := behind }
  | .mv => unary id
  | .not => unary (~~~ ·)
  | .add => binary .add
  | .sub => binary .sub
  | .and => binary .and
  | .or => binary .or
  | .xor => binary .xor
  | .addi => immediate .add
  | .andi => immediate .and
  | .ori => immediate .or
  | .xori => immediate .xor
  | .jmp => do return { state := state.resetFlags, verdict := .next (← s.number? 0) }
  | .bz => branch state.flags.zero
  | .bnz => branch !state.flags.zero
  | .label => none

/-- Checks a statement as a whole, and then carries it out on what its operands hold. -/
def executeByNumber? (s : Statement) (state : State) : Option Execution :=
  match s.fault? with
  | some fault => some { state, verdict := .trap (.malformed s fault) }
  | none => s.operate? state

section

variable {s : Statement} {place : Nat} {r : Register}

theorem number?_of_place {o : Operand} (h : s.operands[place]? = some o) :
    s.number? place = o.number? := by
  rw [number?, h, Option.bind_some]

theorem load?_of_place (h : s.operands[place]? = some (.ofRegister r)) (state : State) :
    s.load? state place = some (state.registers.get r) := by
  obtain ⟨q, hq, hread, -⟩ := State.commit?_of_isValue (Shape.takes_ofRegister r).2 state
  obtain rfl : q = r := Fin.ext (hq.trans r.toNat_toUInt16)
  rw [load?, number?_of_place h]
  exact hread

theorem store?_of_place (h : s.operands[0]? = some (.ofRegister r)) (state : State)
    (result : UInt8 × Bool) : s.store? state result =
      some { state := state.commit r result, verdict := .next (state.pc + 1) } := by
  obtain ⟨q, hq, -, hcommit⟩ := State.commit?_of_isValue (Shape.takes_ofRegister r).2 state
  obtain rfl : q = r := Fin.ext (hq.trans r.toNat_toUInt16)
  rw [store?, number?_of_place h, Operand.ofRegister, Operand.number?, Option.map_some, hcommit]

theorem operate?_of_instruction {i : Instruction} (h : s.instruction = .ok i) (state : State) :
    s.operate? state = some (i.execute state) := by
  obtain ⟨hoperation, hoperands⟩ := parts_of_instruction h
  unfold operate?
  rw [hoperation]
  cases i with
  | halt | nop => rfl
  | move rd rs | complement rd rs =>
    have hload : s.load? state 1 = some (state.registers.get rs) :=
      load?_of_place (by rw [hoperands]; rfl) state
    have hstore := store?_of_place (s := s) (r := rd) (by rw [hoperands]; rfl) state
    simp [Instruction.statement, Instruction.execute, hload, hstore]
  | binary f rd rs₁ rs₂ =>
    have hload₁ : s.load? state 1 = some (state.registers.get rs₁) :=
      load?_of_place (by rw [hoperands]; rfl) state
    have hload₂ : s.load? state 2 = some (state.registers.get rs₂) :=
      load?_of_place (by rw [hoperands]; rfl) state
    have hstore := store?_of_place (s := s) (r := rd) (by rw [hoperands]; rfl) state
    cases f <;>
      simp [Instruction.statement, Binary.operation, Instruction.execute, hload₁, hload₂, hstore]
  | withImmediate f rd rs value =>
    have hload : s.load? state 1 = some (state.registers.get rs) :=
      load?_of_place (by rw [hoperands]; rfl) state
    have hvalue : s.number? 2 = some value := by rw [number?, hoperands]; rfl
    have hstore := store?_of_place (s := s) (r := rd) (by rw [hoperands]; rfl) state
    cases f <;>
      simp [Instruction.statement, Immediate.operation, Instruction.execute, hload, hvalue, hstore]
  | branch c target =>
    have htarget : s.number? 0 = some target := by rw [number?, hoperands]; rfl
    cases c with
    | always | nonzero =>
      simp [Instruction.statement, Condition.operation, Condition.holds, Instruction.execute,
        htarget]
    | zero =>
      simp only [Instruction.statement, Condition.operation, htarget]
      rfl

end

/-- **The check and the execution by number are one execution**, of every statement in every
state. -/
theorem executeByNumber?_eq (s : Statement) (state : State) :
    s.executeByNumber? state = some (s.execute state) := by
  unfold executeByNumber? execute
  cases hinstruction : s.instruction with
  | error fault => rw [instruction_eq_error_iff.mp hinstruction]
  | ok i =>
    rw [executable_iff.mp (executable_iff_exists.mpr ⟨i, hinstruction⟩)]
    exact operate?_of_instruction hinstruction state

end Statement

namespace Machine

variable {read : Reader} {m m' : Machine} {cause : TrapCause}

/-! ### Steps that trap -/

/-- A trap has taken the machine `m` to `m'`, which reports it at the counter of `m`. -/
structure TrapsAs (m m' : Machine) (cause : TrapCause) : Prop where
  state : m'.state = m.state
  count : m'.count = m.count
  trap : m'.trap? =
    some { kind := cause.kind, pc := m.state.pc, message := cause.message }

theorem TrapsAs.stop (m : Machine) (cause : TrapCause) : m.TrapsAs (m.stop cause) cause :=
  ⟨rfl, rfl, rfl⟩

theorem TrapsAs.traced (m : Machine) (read : Reader) (s : Statement) (cause : TrapCause) :
    m.TrapsAs ((m.traced read s).stop cause) cause :=
  ⟨rfl, rfl, rfl⟩

theorem status_carryOut_eq_trapped_iff {s : Statement} :
    (m.carryOut s).status = .trapped cause ↔
      ∃ fault, s.fault? = some fault ∧ .malformed s fault = cause := by
  rw [← Statement.trap_iff]
  cases hverdict : (s.execute m.state).verdict with
  | trap found => simp [carryOut_of_trap hverdict, stop]
  | halt => simp [carryOut_of_halt hverdict]
  | next pc => simp [carryOut_of_next hverdict]

/-- A step traps at the fetch, or because of what is wrong with the statement it has fetched. -/
theorem status_step_eq_trapped_iff (hgoing : m.status.isStopped = false) :
    (m.step read).status = .trapped cause ↔
      m.fetch = .error cause ∨ ∃ s fault, m.fetch = .ok s ∧ s.fault? = some fault ∧
        .malformed s fault = cause := by
  rcases m.step_cases read with ⟨hstopped, -⟩ | ⟨-, found, hfetch, hstep⟩ | ⟨-, s, hfetch, hstep⟩
  · rw [hgoing] at hstopped
    cases hstopped
  · rw [hstep, hfetch]
    simp [stop]
  · rw [hstep, hfetch, status_carryOut_eq_trapped_iff]
    simp

theorem step_of_trapped (hgoing : m.status.isStopped = false)
    (h : (m.step read).status = .trapped cause) : m.TrapsAs (m.step read) cause := by
  rcases m.step_cases read with ⟨hstopped, -⟩ | ⟨-, found, -, hstep⟩ | ⟨-, s, -, hstep⟩
  · rw [hgoing] at hstopped
    cases hstopped
  · rw [hstep] at h ⊢
    cases h
    exact .stop m _
  · rw [hstep] at h ⊢
    obtain ⟨fault, hfault, rfl⟩ := status_carryOut_eq_trapped_iff.mp h
    rw [carryOut_of_trap (Statement.trap_iff.mpr ⟨fault, hfault, rfl⟩)]
    exact .traced m read s _

/-! ### Runs that end in a trap -/

/-- A machine that has stopped on its course made a last step before. -/
theorem exists_last_step (hgoing : m.status.isStopped = false) {k : Nat}
    (h : (m.after read k).status.isStopped = true) :
    ∃ j, (m.after read j).status.isStopped = false ∧
      (m.after read j).step read = m.after read k := by
  induction k with
  | zero =>
    rw [after_zero, hgoing] at h
    cases h
  | succ k ih =>
    cases hbefore : (m.after read k).status.isStopped with
    | true =>
      rw [after_succ, step_of_stopped read hbefore]
      exact ih hbefore
    | false => exact ⟨k, hbefore, (after_succ read m k).symm⟩

/-- **A trap changes nothing.** No statement moves the program counter, and one that traps leaves
registers and flags as they are. If it does not trap, each of its registers can be read and written
by the low 8 bits of its number, which name that register. A step traps if there is nothing to fetch
or something is wrong with what is fetched; it leaves state and count of the machine as they are,
and the trap is reported at the counter of the fetch. So a run that traps ends in the state in
which its last step began. -/
theorem trap_atomic (s : Statement) (state : State) (read : Reader) (m : Machine) :
    (s.execute state).state.pc = state.pc ∧
      (∀ cause, (s.execute state).verdict = .trap cause →
        (s.execute state).state.registers = state.registers ∧
          (s.execute state).state.flags = state.flags) ∧
      ((∀ cause, (s.execute state).verdict ≠ .trap cause) →
        ∀ index, .register index ∈ s.operands → ∃ r : Register, r.val = index.toNat ∧
          state.registers.read? index.toUInt8 = some (state.registers.get r) ∧
          ∀ result, state.commit? index.toUInt8 result = some (state.commit r result)) ∧
      (m.status.isStopped = false →
        (∀ cause, ((m.step read).status = .trapped cause ↔
            m.fetch = .error cause ∨ ∃ s fault, m.fetch = .ok s ∧ s.fault? = some fault ∧
              .malformed s fault = cause) ∧
          ((m.step read).status = .trapped cause → m.TrapsAs (m.step read) cause)) ∧
        ∀ m' cause, m.run read = some m' → m'.status = .trapped cause →
          ∃ k, (m.after read k).status.isStopped = false ∧
            (m.after read k).step read = m' ∧ (m.after read k).TrapsAs m' cause) := by
  refine ⟨s.execute_pc state, fun cause h => ?_, fun h index hindex => ?_, fun hgoing =>
    ⟨fun cause => ⟨status_step_eq_trapped_iff hgoing, step_of_trapped hgoing⟩,
      fun m' cause hrun hcause => ?_⟩⟩
  · rw [Statement.execute_eq_self_of_trap h]
    exact ⟨rfl, rfl⟩
  · have hexecutable := (Statement.executable_iff_not_trap state).mpr h
    exact State.commit?_of_isValue (hexecutable.isValue hindex) state
  · obtain ⟨k, rfl, hstopped⟩ := run_eq_some_iff.mp hrun
    -- The machine was not trapped at first, so one of its steps has trapped.
    obtain ⟨j, hbefore, hlast⟩ := exists_last_step hgoing hstopped
    refine ⟨j, hbefore, hlast, ?_⟩
    rw [← hlast] at hcause ⊢
    exact step_of_trapped hbefore hcause

/-- An addition to register 257 stops the machine where it is, although the low 8 bits of 257 name
register 1. -/
theorem trap_atomic_of_wide_register :
    let s : Statement :=
      { operation := .add, operands := [.register 257, .register 1, .register 1] }
    let m : Machine :=
      { program := #[{ operation := .nop }, s]
        state := { pc := 1, flags := { zero := false, overflow := true } }
        status := .running, count := 1 }
    let n := m.step fun _ => none
    m.status.isStopped = false ∧ n.status = .trapped (.malformed s (.noRegister 257)) ∧
      Register.ofIndex? (257 : UInt16).toUInt8 = some 1 ∧ n.state = m.state ∧ n.count = 1 ∧
      n.trap? =
        some { kind := .invalidRegister, pc := 1, message := ascii "invalid register r257" } := by
  intro s m n
  have hgoing : m.status.isStopped = false := rfl
  have hstatus : n.status = .trapped (.malformed s (.noRegister 257)) := by decide
  have hstep := (trap_atomic s m.state (fun _ => none) m).2.2.2 hgoing
  have htraps := (hstep.1 _).2 hstatus
  exact ⟨hgoing, hstatus, by decide, htraps.state, htraps.count, htraps.trap⟩

end Machine
end RegisterMachine
