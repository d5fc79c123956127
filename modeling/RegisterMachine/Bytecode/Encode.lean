/-
# Encoding instructions

Every instruction has a word. Three of them share the opcode of an addition
with an immediate: `nop` adds 0 to register 0, and `mv` adds 0. A branch keeps
its condition in the field that is zero everywhere else. A statement is encoded
if it is an instruction of which the immediate fits into 8 bits and the target
into 12.

Key definitions: `Instruction.word`, `EncodeError`, `Statement.encode`,
`Program.encode`.
-/
import RegisterMachine.Assembly.Instruction
import RegisterMachine.Bytecode.Word
import RegisterMachine.Source.Diagnostic

namespace RegisterMachine

/-- The value of the condition field. -/
def Condition.code : Condition → UInt32
  | always => 0
  | zero => 1
  | nonzero => 2

/-- The opcode of a function of two registers. -/
def Binary.opcode : Binary → Opcode
  | add => .add
  | sub => .sub
  | and => .and
  | or => .or
  | xor => .xor

/-- The opcode of a function of a register and an immediate. -/
def Immediate.opcode : Immediate → Opcode
  | add => .addi
  | and => .andi
  | or => .ori
  | xor => .xori

namespace Instruction

/-- The number of a register as the value of a field. -/
def registerBits (r : Register) : UInt32 := r.val.toUInt32

/-- The word with the opcode and the two registers that most instructions have. -/
def base (op : Opcode) (rd rs : Register) : Word :=
  ((0 : Word) |> Field.opcode.set op.code |> Field.rd.set (registerBits rd)
    |> Field.rs1.set (registerBits rs))

/-- The word of an instruction. -/
def word : Instruction → Word
  | halt => 0
  | nop => base .addi 0 0
  | move rd rs => base .addi rd rs
  | complement rd rs => base .not rd rs
  | binary f rd rs₁ rs₂ => Field.rs2.set (registerBits rs₂) (base f.opcode rd rs₁)
  | withImmediate f rd rs value => Field.imm8.set value.toUInt32 (base f.opcode rd rs)
  | branch c target =>
    ((0 : Word) |> Field.opcode.set Opcode.branch.code |> Field.fun2.set c.code
      |> Field.imm12.set target.toUInt32)

end Instruction

/-- Why a statement has no word. -/
inductive EncodeError where
  /-- It is no instruction. -/
  | malformed (cause : Malformed)
  /-- Its immediate needs more than 8 bits. -/
  | immediateRange (value : UInt16)
  /-- Its target needs more than 12 bits. -/
  | addressRange (value : UInt16)
deriving DecidableEq, Repr, Inhabited

/-- The message that reports why a statement has no word. -/
def EncodeError.message (s : Statement) : EncodeError → Bytes
  | malformed (.label name) => ascii "cannot encode label " ++ quoted name
  | malformed (.operandCount given) =>
    quoted s.operation.name ++ ascii " expects " ++ Numeral.decimal s.operation.arity
      ++ ascii " operands, got " ++ Numeral.decimal given
  | malformed (.unresolved name) => ascii "cannot encode unresolved label " ++ quoted name
  | malformed (.mismatch operand expected) =>
    ascii "invalid operand " ++ quoted operand.text ++ ascii " in " ++ quoted s.text
      ++ ascii ": expected " ++ expected.name
  | malformed (.noRegister index) => ascii "invalid register " ++ Operand.registerName index.toNat
  | immediateRange value =>
    ascii "immediate " ++ Numeral.decimal value.toNat ++ ascii " does not fit in 8 bits"
  | addressRange value =>
    ascii "address " ++ Numeral.decimal value.toNat ++ ascii " does not fit in 12 bits"

/-- The first operand of an instruction that is too large for its field. -/
def Instruction.rangeError? : Instruction → Option EncodeError
  | withImmediate _ _ _ value =>
    if value > Operand.maxImmediate then some (.immediateRange value) else none
  | branch _ target => if target > Operand.maxAddress then some (.addressRange target) else none
  | _ => none

/-- The word of a statement. -/
def Statement.encode (s : Statement) : Except EncodeError Word :=
  match s.instruction with
  | .error cause => .error (.malformed cause)
  | .ok instruction =>
    match instruction.rangeError? with
    | some error => .error error
    | none => .ok instruction.word

/-- The diagnostic of a statement that has no word. -/
def EncodeError.diagnostic (s : Statement) (error : EncodeError) : Diagnostic :=
  .error (error.message s) s.location

/-- The words of a program; the first statement that has none decides. -/
def Program.encode : Program → Except Diagnostic (List Word)
  | [] => .ok []
  | s :: rest =>
    match s.encode with
    | .error error => .error (error.diagnostic s)
    | .ok word => (encode rest).map (word :: ·)

end RegisterMachine
