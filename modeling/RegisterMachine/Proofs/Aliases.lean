/-
# What is read from a word acts as what was encoded

Three statements share one word: an addition of 0 is encoded as `mv` is, and on
register 0 alone as `nop`. Such a word is read as the last of the three that it
stands for, so a statement that is encoded and decoded may come back under
another name. `Statement.normal` says which, of the operation and the operands
alone; every other statement comes back as it was.

The statement that comes back is carried out like the one that was encoded, in
every state (`Instruction.execute_normal`). What ties the two statements to the
instructions that are encoded is that a statement is an instruction in one way
only: its operation and operands are those of the instruction
(`Statement.parts_of_instruction`).

Key definitions: `Statement.ofCopy`, `Statement.normal`.
Key theorems: `Statement.parts_of_instruction`,
`Instruction.statement_normal`, `Statement.execute_decode_encode`.
-/
import RegisterMachine.Proofs.Decoding
import RegisterMachine.Proofs.Preservation

namespace RegisterMachine

/-! ### The operands of an instruction -/

namespace Operand

theorem eq_of_register? {o : Operand} {r : Register} (h : o.register? = .ok r) :
    o = .ofRegister r := by
  cases o with
  | register index =>
    simp only [register?] at h
    split at h
    · cases h
      simp [ofRegister]
    · cases h
  | immediate _ | address _ | label _ => cases h

theorem eq_of_immediate? {o : Operand} {value : UInt16} (h : o.immediate? = .ok value) :
    o = .immediate value := by
  cases o with
  | immediate _ =>
    cases h
    rfl
  | register _ | address _ | label _ => cases h

theorem eq_of_address? {o : Operand} {value : UInt16} (h : o.address? = .ok value) :
    o = .address value := by
  cases o with
  | address _ =>
    cases h
    rfl
  | register _ | immediate _ | label _ => cases h

theorem ofRegister_eq_zero_iff (r : Register) : ofRegister r = .register 0 ↔ r = 0 := by
  revert r
  decide

end Operand

namespace Instruction

variable {operands : List Operand} {i : Instruction}

theorem eq_of_ofNone {j : Instruction} (h : ofNone j operands = .ok i) :
    operands = [] ∧ i = j := by
  unfold ofNone at h
  split at h
  · cases h
    exact ⟨rfl, rfl⟩
  · cases h

theorem eq_of_ofTwo {build : Register → Register → Instruction}
    (h : ofTwo build operands = .ok i) :
    ∃ rd rs, operands = [.ofRegister rd, .ofRegister rs] ∧ i = build rd rs := by
  unfold ofTwo at h
  split at h
  · obtain ⟨rd, hrd, h⟩ := bind_eq_ok_iff.mp h
    obtain ⟨rs, hrs, h⟩ := bind_eq_ok_iff.mp h
    cases h
    exact ⟨rd, rs, by rw [Operand.eq_of_register? hrd, Operand.eq_of_register? hrs], rfl⟩
  · cases h

theorem eq_of_ofThree {f : Binary} (h : ofThree f operands = .ok i) :
    ∃ rd rs₁ rs₂, operands = [.ofRegister rd, .ofRegister rs₁, .ofRegister rs₂] ∧
      i = .binary f rd rs₁ rs₂ := by
  unfold ofThree at h
  split at h
  · obtain ⟨rd, hrd, h⟩ := bind_eq_ok_iff.mp h
    obtain ⟨rs₁, hrs₁, h⟩ := bind_eq_ok_iff.mp h
    obtain ⟨rs₂, hrs₂, h⟩ := bind_eq_ok_iff.mp h
    cases h
    refine ⟨rd, rs₁, rs₂, ?_, rfl⟩
    rw [Operand.eq_of_register? hrd, Operand.eq_of_register? hrs₁, Operand.eq_of_register? hrs₂]
  · cases h

theorem eq_of_ofImmediate {f : Immediate} (h : ofImmediate f operands = .ok i) :
    ∃ rd rs value, operands = [.ofRegister rd, .ofRegister rs, .immediate value] ∧
      i = .withImmediate f rd rs value := by
  unfold ofImmediate at h
  split at h
  · obtain ⟨rd, hrd, h⟩ := bind_eq_ok_iff.mp h
    obtain ⟨rs, hrs, h⟩ := bind_eq_ok_iff.mp h
    obtain ⟨value, hvalue, h⟩ := bind_eq_ok_iff.mp h
    cases h
    refine ⟨rd, rs, value, ?_, rfl⟩
    rw [Operand.eq_of_register? hrd, Operand.eq_of_register? hrs, Operand.eq_of_immediate? hvalue]
  · cases h

theorem eq_of_ofTarget {c : Condition} (h : ofTarget c operands = .ok i) :
    ∃ target, operands = [.address target] ∧ i = .branch c target := by
  unfold ofTarget at h
  split at h
  · obtain ⟨target, htarget, h⟩ := bind_eq_ok_iff.mp h
    cases h
    exact ⟨target, by rw [Operand.eq_of_address? htarget], rfl⟩
  · cases h

end Instruction

namespace Statement

/-- A statement that is an instruction has the operation and the operands of the instruction. -/
theorem parts_of_instruction {s : Statement} {i : Instruction} (h : s.instruction = .ok i) :
    s.operation = i.statement.operation ∧ s.operands = i.statement.operands := by
  obtain ⟨operation, operands, label, location⟩ := s
  cases operation with
  | label => cases h
  | halt | nop =>
    obtain ⟨rfl, rfl⟩ := Instruction.eq_of_ofNone h
    exact ⟨rfl, rfl⟩
  | mv | not =>
    obtain ⟨rd, rs, rfl, rfl⟩ := Instruction.eq_of_ofTwo h
    exact ⟨rfl, rfl⟩
  | add | sub | and | or | xor =>
    obtain ⟨rd, rs₁, rs₂, rfl, rfl⟩ := Instruction.eq_of_ofThree h
    exact ⟨rfl, rfl⟩
  | addi | andi | ori | xori =>
    obtain ⟨rd, rs, value, rfl, rfl⟩ := Instruction.eq_of_ofImmediate h
    exact ⟨rfl, rfl⟩
  | jmp | bz | bnz =>
    obtain ⟨target, rfl, rfl⟩ := Instruction.eq_of_ofTarget h
    exact ⟨rfl, rfl⟩

/-! ### Statements with one word -/

/-- What a copy between two registers comes back as: on register 0 alone, as `nop`. -/
def ofCopy (rd rs : Operand) : Statement :=
  if rd = .register 0 ∧ rs = .register 0 then { operation := .nop }
  else { operation := .mv, operands := [rd, rs] }

/-- What a statement that is encoded comes back as. -/
def normal (s : Statement) : Statement :=
  match s.operation, s.operands with
  | .mv, [rd, rs] => ofCopy rd rs
  | .addi, [rd, rs, value] =>
    if value = .immediate 0 then ofCopy rd rs
    else { operation := .addi, operands := [rd, rs, value] }
  | operation, operands => { operation, operands }

end Statement

namespace Instruction

theorem statement_copy (rd rs : Register) :
    (copy rd rs).statement = .ofCopy (.ofRegister rd) (.ofRegister rs) := by
  simp only [copy, Statement.ofCopy, Operand.ofRegister_eq_zero_iff]
  split
  · rfl
  · rfl

theorem statement_normal (i : Instruction) : i.normal.statement = i.statement.normal := by
  cases i with
  | halt | nop | complement _ _ => rfl
  | move rd rs => exact statement_copy rd rs
  | binary f _ _ _ => cases f <;> rfl
  | branch c _ => cases c <;> rfl
  | withImmediate f rd rs value =>
    cases f with
    | and | or | xor => rfl
    | add =>
      by_cases hvalue : value = 0
      · rw [hvalue]
        exact statement_copy rd rs
      · have hnormal : (withImmediate .add rd rs value).normal = .withImmediate .add rd rs value :=
          if_neg fun h => hvalue h.2
        have hoperand : Operand.immediate value ≠ .immediate 0 := by simpa using hvalue
        rw [hnormal]
        exact (if_neg hoperand).symm

end Instruction

namespace Statement

/-- **A statement that is encoded comes back from its word, and acts as before.** The word has 24
bits and is decoded, to the normal form of the statement; in every state that does what the
statement does: it goes on at the same address, halts where the statement does, and leaves the same
registers and flags behind. -/
theorem execute_decode_encode {s : Statement} {w : Word} (h : s.encode = .ok w) :
    w.toNat < 2 ^ 24 ∧ ∃ i : Instruction, Word.decode w = .ok i ∧ i.statement = s.normal ∧
      ∀ state, i.statement.execute state = s.execute state := by
  obtain ⟨i, hi, hfits, rfl⟩ := encode_eq_ok_iff.mp h
  refine ⟨(Word.fits_iff _).mp (Instruction.fits_word hfits), i.normal, Word.decode_word hfits, ?_,
    fun state => ?_⟩
  · obtain ⟨hoperation, hoperands⟩ := parts_of_instruction hi
    rw [Instruction.statement_normal, normal, normal, hoperation, hoperands]
  · have hnormal := (means_statement (Instruction.fits_normal hfits)).execute_eq state
    have hstatement : s.execute state = i.execute state := by rw [execute, hi]
    rw [hnormal, hstatement, Instruction.execute_normal]

/-- An addition of 0 to register 0 comes back as `nop`, and in a state with both flags turned around
it resets them as `nop` does. -/
theorem execute_decode_encode_of_nothing :
    let s : Statement :=
      { operation := .addi, operands := [.register 0, .register 0, .immediate 0]
        location := { file := 1, line := 3, column := 2 } }
    let state : State := { pc := 65535, flags := { zero := false, overflow := true } }
    s.encode = .ok 0x000001 ∧ (0x000001 : Word).toNat < 2 ^ 24 ∧
      ∃ i : Instruction, Word.decode 0x000001 = .ok i ∧ i.statement = { operation := .nop } ∧
        i.statement.execute state = s.execute state ∧
        s.execute state = { state := { pc := 65535 }, verdict := .next 0 } := by
  intro s state
  have hencode : s.encode = .ok 0x000001 := by decide
  obtain ⟨hwide, i, hdecode, hstatement, hexecute⟩ := execute_decode_encode hencode
  exact ⟨hencode, hwide, i, hdecode, hstatement, hexecute state, by decide⟩

end Statement
end RegisterMachine
