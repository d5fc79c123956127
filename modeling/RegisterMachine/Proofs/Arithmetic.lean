/-
# What the operations compute

The operations on registers, said over the whole numbers: a sum or a difference
is taken modulo 256, with overflow if it lies outside of what 8 bits hold, and
the bitwise operations never overflow (`Operation.result?`). The numbers that
go in are those that the operands stand for before the statement is carried out,
so it makes no difference which of its registers coincide; the result goes to
the first register, unless that is register 0, and to the flags, also if it is
(`Execution.Writes`).

The other operations leave the registers alone. They reset the flags
(`Execution.Resets`) or, as the two branches on the zero flag, keep the state as
it is (`Execution.Branches`); of these two one is taken and the other is not.
The operations that are no branches go on at the next address, and behind the
last one at the first. `Performs` says all this, operation by operation.

Key definitions: `Operand.value`, `Operation.result?`, `Execution.Writes`,
`Performs`.
Key theorems: `Binary.result?_apply`, `Execution.writes_commit`,
`Instruction.performs_execute`, `Statement.performs_of_executable`.
-/
import RegisterMachine.Proofs.Checking

namespace RegisterMachine

/-! ### The operations over whole numbers -/

/-- The number that an operand stands for: what its register holds, or the low 8 bits of an
immediate. -/
def Operand.value (registers : Registers) : Operand → ℕ
  | register index => if h : index.toNat < 16 then (registers.get ⟨index.toNat, h⟩).toNat else 0
  | immediate value => value.toNat % 256
  | address _ | label _ => 0

/-- The result of an operation on registers and immediates, and whether it overflows. -/
def Operation.result? : Operation → List ℕ → Option (ℕ × Bool)
  | mv, [a] => some (a, false)
  | not, [a] => some (255 ^^^ a, false)
  | add, [a, b] | addi, [a, b] => some ((a + b) % 256, decide (a + b > 255))
  | sub, [a, b] => some ((((a : ℤ) - b) % 256).toNat, decide (a < b))
  | and, [a, b] | andi, [a, b] => some (a &&& b, false)
  | or, [a, b] | ori, [a, b] => some (a ||| b, false)
  | xor, [a, b] | xori, [a, b] => some (a ^^^ b, false)
  | _, _ => none

/-- The machine goes on at this address. -/
def Verdict.GoesTo (v : Verdict) (address : ℕ) : Prop :=
  ∃ pc : UInt16, v = .next pc ∧ pc.toNat = address

/-- The next address; behind the last one comes the first. -/
def State.following (s : State) : ℕ := (s.pc.toNat + 1) % 2 ^ 16

/-- An execution has written a result to a register and to the flags, and nothing else, and the
machine goes on at the next address. -/
structure Execution.Writes (e : Execution) (before : State) (rd : UInt16) (result : ℕ)
    (overflow : Bool) : Prop where
  result_lt : result < 256
  pc : e.state.pc = before.pc
  flags : e.state.flags = { zero := decide (result = 0), overflow }
  registers : ∀ r, (e.state.registers.get r).toNat =
    if r.val = rd.toNat ∧ r ≠ 0 then result else (before.registers.get r).toNat
  unwritten : rd = 0 → e.state.registers = before.registers
  verdict : e.verdict.GoesTo before.following

/-- An execution has reset the flags and has changed nothing else. -/
def Execution.Resets (e : Execution) (before : State) : Prop :=
  e.state = { before with flags := { zero := true, overflow := false } }

/-- An execution has kept the state, and the machine goes on at the target of a branch, if that is
taken, or at the next address. -/
def Execution.Branches (e : Execution) (before : State) (operands : List Operand) (taken : Bool) :
    Prop :=
  e.state = before ∧ ∃ target, operands = [.address target] ∧
    e.verdict.GoesTo (if taken then target.toNat else before.following)

/-- What the execution of an operation on these operands has to be. -/
def Performs (operation : Operation) (operands : List Operand) (before : State) (e : Execution) :
    Prop :=
  match operation with
  | .label => False
  | .halt => e.Resets before ∧ e.verdict = .halt
  | .nop => e.Resets before ∧ e.verdict.GoesTo before.following
  | .jmp => e.Resets before ∧
      ∃ target, operands = [.address target] ∧ e.verdict.GoesTo target.toNat
  | .bz => e.Branches before operands before.flags.zero
  | .bnz => e.Branches before operands (!before.flags.zero)
  | operation => ∃ rd sources result overflow, operands = .register rd :: sources ∧
      operation.result? (sources.map (·.value before.registers)) = some (result, overflow) ∧
      e.Writes before rd result overflow

/-! ### Results in 8 bits -/

theorem State.toNat_pc_add_one (s : State) : (s.pc + 1).toNat = s.following := by
  rw [UInt16.toNat_add]
  rfl

theorem Operand.value_ofRegister (registers : Registers) (r : Register) :
    (ofRegister r).value registers = (registers.get r).toNat := by
  simp [ofRegister, value, r.toNat_toUInt16]

theorem Binary.result?_apply (f : Binary) (a b : UInt8) :
    f.operation.result? [a.toNat, b.toNat] = some ((f.apply a b).1.toNat, (f.apply a b).2) := by
  cases f with
  | add => simp [operation, Operation.result?, apply, UInt8.toNat_add]
  | sub =>
    have ha := a.toNat_lt
    have hb := b.toNat_lt
    have hdiff : (((a.toNat : ℤ) - b.toNat) % 256).toNat = (a - b).toNat := by
      rw [UInt8.toNat_sub]
      omega
    simp [operation, Operation.result?, apply, hdiff, UInt8.lt_iff_toNat_lt]
  | and | or | xor => simp [operation, Operation.result?, apply]

theorem Immediate.result?_apply (f : Immediate) (a b : UInt8) :
    f.operation.result? [a.toNat, b.toNat] =
      some ((f.toBinary.apply a b).1.toNat, (f.toBinary.apply a b).2) := by
  have h := f.toBinary.result?_apply a b
  cases f <;> exact h

theorem toNat_complement (a : UInt8) : (~~~a).toNat = 255 ^^^ a.toNat := by
  rw [← UInt8.toNat_toBitVec, UInt8.toBitVec_not, BitVec.not_def, BitVec.toNat_xor]
  rfl

theorem Execution.writes_commit (before : State) (rd : Register) (value : UInt8 × Bool) :
    ({ state := before.commit rd value, verdict := .next (before.pc + 1) } : Execution).Writes
      before rd.val.toUInt16 value.1.toNat value.2 where
  result_lt := value.1.toNat_lt
  pc := rfl
  flags := by
    have hzero : (value.1 == 0) = decide (value.1.toNat = 0) := by
      rw [beq_eq_decide]
      exact decide_eq_decide.mpr UInt8.toNat_inj.symm
    simp [State.commit, hzero]
  registers r := by
    have hsame : r = rd ∧ rd ≠ 0 ↔ r.val = rd.val.toUInt16.toNat ∧ r ≠ 0 := by
      rw [rd.toNat_toUInt16, ← Fin.ext_iff]
      exact and_congr_right fun h => by rw [h]
    simp only [State.commit, Registers.get_set, hsame]
    split <;> rfl
  unwritten h := by
    have hrd : rd = 0 := Fin.ext (by simpa [rd.toNat_toUInt16] using congrArg UInt16.toNat h)
    simp [State.commit, hrd]
  verdict := ⟨_, rfl, before.toNat_pc_add_one⟩

/-! ### Every operation does what it has to -/

/-- An operation that has a result performs what it has to if it writes the result. -/
theorem performs_of_writes {operation : Operation} {rd : Register} {sources : List Operand}
    {before : State} {e : Execution} {result : ℕ} {overflow : Bool}
    (hresult : operation.result? (sources.map (·.value before.registers)) =
      some (result, overflow))
    (hwrites : e.Writes before rd.val.toUInt16 result overflow) :
    Performs operation (.ofRegister rd :: sources) before e := by
  cases operation with
  | label | halt | nop | jmp | bz | bnz => simp [Operation.result?] at hresult
  | mv | not | add | sub | and | or | xor | addi | andi | ori | xori =>
    exact ⟨_, sources, result, overflow, rfl, hresult, hwrites⟩

theorem Instruction.performs_execute (i : Instruction) (before : State) :
    Performs i.statement.operation i.statement.operands before (i.execute before) := by
  cases i with
  | halt => exact ⟨rfl, rfl⟩
  | nop => exact ⟨rfl, _, rfl, before.toNat_pc_add_one⟩
  | move rd rs =>
    refine performs_of_writes ?_ (Execution.writes_commit before rd _)
    simp [statement, Operation.result?, Operand.value_ofRegister]
  | complement rd rs =>
    refine performs_of_writes ?_ (Execution.writes_commit before rd _)
    simp only [statement, List.map_cons, List.map_nil, Operand.value_ofRegister,
      Operation.result?, toNat_complement]
  | binary f rd rs₁ rs₂ =>
    refine performs_of_writes ?_ (Execution.writes_commit before rd _)
    simp only [statement, List.map_cons, List.map_nil, Operand.value_ofRegister]
    exact f.result?_apply _ _
  | withImmediate f rd rs value =>
    refine performs_of_writes ?_ (Execution.writes_commit before rd _)
    simp only [statement, List.map_cons, List.map_nil, Operand.value_ofRegister]
    have hvalue : (Operand.immediate value).value before.registers = value.toUInt8.toNat :=
      (UInt16.toNat_toUInt8 value).symm
    rw [hvalue]
    exact f.result?_apply _ _
  | branch c target =>
    have hfork (taken : Bool) :
        (if taken then Verdict.next target else .next (before.pc + 1)).GoesTo
          (if taken then target.toNat else before.following) := by
      cases taken with
      | true => exact ⟨_, rfl, rfl⟩
      | false => exact ⟨_, rfl, before.toNat_pc_add_one⟩
    cases c with
    | always => exact ⟨rfl, target, rfl, _, rfl, rfl⟩
    | zero => exact ⟨rfl, target, rfl, hfork before.flags.zero⟩
    | nonzero => exact ⟨rfl, target, rfl, hfork !before.flags.zero⟩

namespace Statement

variable {s t : Statement}

theorem performs_execute (h : s.Executable) (before : State) :
    Performs s.operation s.operands before (s.execute before) := by
  obtain ⟨i, hi⟩ := executable_iff_exists.mp h
  obtain ⟨hoperation, hoperands⟩ := parts_of_instruction hi
  rw [hoperation, hoperands, execute, hi]
  exact i.performs_execute before

theorem Executable.of_shapes (h : s.Executable) (hlabel : t.operation ≠ .label)
    (hshapes : t.operation.shapes = s.operation.shapes) (hoperands : t.operands = s.operands) :
    t.Executable := by
  refine ⟨hlabel, ?_⟩
  rw [hshapes, hoperands]
  exact h.operands

/-- **Every operation does what it has to.** A statement that the table allows is carried out as its
operation says over whole numbers, with the numbers that its operands stood for before: the result
goes to the first register, unless that is register 0, and to the flags, and no other register
changes. An operation without a result changes no register, and its flags are reset or, by the
branches on the zero flag, kept. Of these two branches to one target, in one state, one is taken and
the other goes on at the next address. -/
theorem performs_of_executable (h : s.Executable) (before : State) :
    Performs s.operation s.operands before (s.execute before) ∧
      (s.operation = .bz → ∀ twin : Statement, twin.operation = .bnz →
        twin.operands = s.operands → ∃ target, s.operands = [.address target] ∧
          if before.flags.zero then
            (s.execute before).verdict.GoesTo target.toNat ∧
              (twin.execute before).verdict.GoesTo before.following
          else
            (s.execute before).verdict.GoesTo before.following ∧
              (twin.execute before).verdict.GoesTo target.toNat) := by
  refine ⟨performs_execute h before, fun hs twin htwin hsame => ?_⟩
  have hexecutable : twin.Executable :=
    h.of_shapes (by rw [htwin]; decide) (by rw [hs, htwin]; rfl) hsame
  have hzero := performs_execute h before
  have hnonzero := performs_execute hexecutable before
  rw [hs] at hzero
  rw [htwin] at hnonzero
  obtain ⟨-, target, htarget, hgoes⟩ := hzero
  obtain ⟨-, target', htarget', hgoes'⟩ := hnonzero
  rw [hsame, htarget] at htarget'
  cases htarget'
  refine ⟨target, htarget, ?_⟩
  cases hflag : before.flags.zero with
  | true =>
    rw [hflag] at hgoes hgoes'
    exact ⟨hgoes, hgoes'⟩
  | false =>
    rw [hflag] at hgoes hgoes'
    exact ⟨hgoes, hgoes'⟩

/-- At the last address, 5 in register 2 is taken from 3 in register 1, and the result is written
over it; the flags show the borrow, and the machine goes on at the first address. -/
theorem performs_of_executable_of_borrow :
    let s : Statement :=
      { operation := .sub, operands := [.register 2, .register 1, .register 2] }
    let before : State := { pc := 65535, registers := (({} : Registers).set 1 3).set 2 5 }
    let e := s.execute before
    s.Executable ∧ e.state.flags = { zero := false, overflow := true } ∧
      (e.state.registers.get 2).toNat = 254 ∧ (e.state.registers.get 1).toNat = 3 ∧
      e.verdict.GoesTo 0 := by
  intro s before e
  have hexecutable : s.Executable := by decide
  obtain ⟨rd, sources, result, overflow, hoperands, hresult, hwrites⟩ :=
    (performs_of_executable hexecutable before).1
  cases hoperands
  cases hresult.symm.trans (by decide : _ = some (254, true))
  have hfollowing : before.following = 0 := by decide
  exact ⟨hexecutable, hwrites.flags, hwrites.registers 2, hwrites.registers 1,
    hfollowing ▸ hwrites.verdict⟩

end Statement

end RegisterMachine
