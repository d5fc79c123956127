/-
# Instructions

An `Instruction` is what the machine can carry out and a word can hold: an
operation together with operands of the right number and kinds, its registers
among the sixteen there are. `Statement.instruction` finds the instruction of a
statement, or the first thing that is wrong with it: that it defines a label,
has a wrong number of operands, or, operand by operand, one that is still a
label, is of another shape, or names no register. Whether an immediate fits
into 8 bits and an address into 12 is not its concern.

Key definitions: `Instruction`, `Malformed`, `Statement.instruction`,
`Instruction.statement`.
Key lemmas: `Instruction.instruction_statement`.
-/
import RegisterMachine.Assembly.Statement

namespace RegisterMachine

/-- The number of a register. -/
abbrev Register := Fin 16

/-- There is a register 0. -/
instance Register.neZero : @NeZero Nat Zero.ofOfNat0 16 := ⟨by decide⟩

/-- A function of two registers. -/
inductive Binary where
  | add
  | sub
  | and
  | or
  | xor
deriving DecidableEq, Repr, Inhabited

/-- A function of a register and an immediate. -/
inductive Immediate where
  | add
  | and
  | or
  | xor
deriving DecidableEq, Repr, Inhabited

/-- When a branch is taken. -/
inductive Condition where
  | always
  | zero
  | nonzero
deriving DecidableEq, Repr, Inhabited

/-- An instruction of the machine; the first register is the one that is written. -/
inductive Instruction where
  | halt
  | nop
  | move (rd rs : Register)
  | complement (rd rs : Register)
  | binary (function : Binary) (rd rs₁ rs₂ : Register)
  | withImmediate (function : Immediate) (rd rs : Register) (value : UInt16)
  | branch (condition : Condition) (target : UInt16)
deriving DecidableEq, Repr, Inhabited

/-- What keeps a statement from being an instruction. -/
inductive Malformed where
  /-- It defines a label. -/
  | label (name : Bytes)
  /-- It has this many operands and should have another number. -/
  | operandCount (given : Nat)
  /-- An operand is a label that was not replaced by its address. -/
  | unresolved (name : Bytes)
  /-- An operand is not of the shape that its place takes. -/
  | mismatch (operand : Operand) (expected : Shape)
  /-- There is no register of this number. -/
  | noRegister (index : UInt16)
deriving DecidableEq, Repr, Inhabited

namespace Operand

/-- The register that an operand names. -/
def register? : Operand → Except Malformed Register
  | register index =>
    if h : index.toNat < 16 then .ok ⟨index.toNat, h⟩ else .error (.noRegister index)
  | label name => .error (.unresolved name)
  | operand => .error (.mismatch operand .register)

/-- The number that an operand gives. -/
def immediate? : Operand → Except Malformed UInt16
  | immediate value => .ok value
  | label name => .error (.unresolved name)
  | operand => .error (.mismatch operand .immediate)

/-- The address that an operand gives. -/
def address? : Operand → Except Malformed UInt16
  | address value => .ok value
  | label name => .error (.unresolved name)
  | operand => .error (.mismatch operand .target)

end Operand

namespace Instruction

/-- An instruction without operands. -/
def ofNone (instruction : Instruction) : List Operand → Except Malformed Instruction
  | [] => .ok instruction
  | operands => .error (.operandCount operands.length)

/-- An instruction on two registers. -/
def ofTwo (build : Register → Register → Instruction) : List Operand → Except Malformed Instruction
  | [a, b] => do
    let rd ← a.register?
    let rs ← b.register?
    return build rd rs
  | operands => .error (.operandCount operands.length)

/-- An instruction on three registers. -/
def ofThree (function : Binary) : List Operand → Except Malformed Instruction
  | [a, b, c] => do
    let rd ← a.register?
    let rs₁ ← b.register?
    let rs₂ ← c.register?
    return .binary function rd rs₁ rs₂
  | operands => .error (.operandCount operands.length)

/-- An instruction on two registers and an immediate. -/
def ofImmediate (function : Immediate) : List Operand → Except Malformed Instruction
  | [a, b, c] => do
    let rd ← a.register?
    let rs ← b.register?
    let value ← c.immediate?
    return .withImmediate function rd rs value
  | operands => .error (.operandCount operands.length)

/-- A branch. -/
def ofTarget (condition : Condition) : List Operand → Except Malformed Instruction
  | [a] => do
    let target ← a.address?
    return .branch condition target
  | operands => .error (.operandCount operands.length)

end Instruction

/-- The instruction that a statement is. -/
def Statement.instruction (s : Statement) : Except Malformed Instruction :=
  match s.operation with
  | .label => .error (.label s.label)
  | .halt => Instruction.ofNone .halt s.operands
  | .nop => Instruction.ofNone .nop s.operands
  | .mv => Instruction.ofTwo .move s.operands
  | .not => Instruction.ofTwo .complement s.operands
  | .add => Instruction.ofThree .add s.operands
  | .sub => Instruction.ofThree .sub s.operands
  | .and => Instruction.ofThree .and s.operands
  | .or => Instruction.ofThree .or s.operands
  | .xor => Instruction.ofThree .xor s.operands
  | .addi => Instruction.ofImmediate .add s.operands
  | .andi => Instruction.ofImmediate .and s.operands
  | .ori => Instruction.ofImmediate .or s.operands
  | .xori => Instruction.ofImmediate .xor s.operands
  | .jmp => Instruction.ofTarget .always s.operands
  | .bz => Instruction.ofTarget .zero s.operands
  | .bnz => Instruction.ofTarget .nonzero s.operands

/-- The operation of a function of two registers. -/
def Binary.operation : Binary → Operation
  | add => .add
  | sub => .sub
  | and => .and
  | or => .or
  | xor => .xor

/-- The operation of a function of a register and an immediate. -/
def Immediate.operation : Immediate → Operation
  | add => .addi
  | and => .andi
  | or => .ori
  | xor => .xori

/-- The operation of a branch. -/
def Condition.operation : Condition → Operation
  | always => .jmp
  | zero => .bz
  | nonzero => .bnz

/-- The operand that names a register. -/
def Operand.ofRegister (r : Register) : Operand := .register r.val.toUInt16

theorem Register.toNat_toUInt16 (r : Register) : r.val.toUInt16.toNat = r.val := by
  rw [Nat.toUInt16_eq, UInt16.toNat_ofNat']
  exact Nat.mod_eq_of_lt (by omega)

namespace Instruction

/-- The statement that says an instruction, read nowhere. -/
def statement : Instruction → Statement
  | halt => { operation := .halt }
  | nop => { operation := .nop }
  | move rd rs => { operation := .mv, operands := [.ofRegister rd, .ofRegister rs] }
  | complement rd rs => { operation := .not, operands := [.ofRegister rd, .ofRegister rs] }
  | binary f rd rs₁ rs₂ =>
    { operation := f.operation, operands := [.ofRegister rd, .ofRegister rs₁, .ofRegister rs₂] }
  | withImmediate f rd rs value =>
    { operation := f.operation, operands := [.ofRegister rd, .ofRegister rs, .immediate value] }
  | branch c target => { operation := c.operation, operands := [.address target] }

theorem register?_ofRegister (r : Register) : (Operand.ofRegister r).register? = .ok r := by
  simp [Operand.ofRegister, Operand.register?, r.toNat_toUInt16]

/-- The statement of an instruction is that instruction. -/
theorem instruction_statement (i : Instruction) : i.statement.instruction = .ok i := by
  have bind_ok {α β : Type} (a : α) (f : α → Except Malformed β) :
      (Except.ok a >>= f) = f a := rfl
  cases i with
  | halt | nop => rfl
  | move rd rs | complement rd rs =>
    simp [statement, Statement.instruction, ofTwo, register?_ofRegister, bind_ok]; rfl
  | binary f rd rs₁ rs₂ =>
    cases f <;>
      simp [statement, Statement.instruction, Binary.operation, ofThree, register?_ofRegister,
        bind_ok] <;> rfl
  | withImmediate f rd rs value =>
    cases f <;>
      simp [statement, Statement.instruction, Immediate.operation, ofImmediate,
        register?_ofRegister, Operand.immediate?, bind_ok] <;> rfl
  | branch c target =>
    cases c <;> rfl

end Instruction
end RegisterMachine
