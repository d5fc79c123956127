/-
# Traps

A trap ends a run before the machine has halted. Its cause is a statement that
is no instruction, a counter that points behind the program, or the limit on
the number of steps. A `Trap` is the record of one: its kind, the value of the
program counter, and a message made from the cause.

Key definitions: `TrapKind`, `TrapCause`, `TrapCause.kind`, `TrapCause.message`,
`Trap`, `Trap.text`.
-/
import RegisterMachine.Assembly.Instruction

namespace RegisterMachine

/-- The kinds of traps. A record may have no kind, or one that has no name. -/
inductive TrapKind where
  | none
  | invalidInstruction
  | invalidOperand
  | invalidRegister
  | pcOutOfBounds
  | stepLimitExceeded
  | unknown
deriving DecidableEq, Repr, Inhabited

/-- The name of a kind of traps. -/
def TrapKind.name : TrapKind → Bytes
  | none => ascii "None"
  | invalidInstruction => ascii "InvalidInstruction"
  | invalidOperand => ascii "InvalidOperand"
  | invalidRegister => ascii "InvalidRegister"
  | pcOutOfBounds => ascii "PcOutOfBounds"
  | stepLimitExceeded => ascii "StepLimitExceeded"
  | unknown => ascii "Unknown"

/-- Why a run ends without a halt. -/
inductive TrapCause where
  /-- The statement is no instruction. -/
  | malformed (statement : Statement) (fault : Malformed)
  /-- There is no statement at this address. -/
  | outOfBounds (pc : UInt16)
  /-- This many steps were allowed, and they have been made. -/
  | stepLimit (limit : UInt64)
deriving DecidableEq, Repr, Inhabited

namespace TrapCause

/-- The kind of trap that a cause raises. -/
def kind : TrapCause → TrapKind
  | malformed _ (.label _) => .invalidInstruction
  | malformed _ (.operandCount _) => .invalidOperand
  | malformed _ (.unresolved _) => .invalidOperand
  | malformed _ (.mismatch _ _) => .invalidOperand
  | malformed _ (.noRegister _) => .invalidRegister
  | outOfBounds _ => .pcOutOfBounds
  | stepLimit _ => .stepLimitExceeded

/-- The message of the trap that a cause raises. -/
def message : TrapCause → Bytes
  | malformed _ (.label name) => ascii "cannot execute label " ++ quoted name
  | malformed s (.operandCount given) =>
    quoted s.text ++ ascii " has " ++ Numeral.decimal given ++ ascii " operands, expected "
      ++ Numeral.decimal s.operation.arity
  | malformed s (.unresolved name) =>
    ascii "unresolved label " ++ quoted name ++ ascii " in " ++ quoted s.text
  | malformed s (.mismatch _ _) => ascii "invalid operands in " ++ quoted s.text
  | malformed _ (.noRegister index) =>
    ascii "invalid register " ++ Operand.registerName index.toNat
  | outOfBounds pc =>
    ascii "attempt to execute out-of-bounds address " ++ Numeral.decimal pc.toNat
  | stepLimit limit => ascii "step limit of " ++ Numeral.decimal limit.toNat ++ ascii " reached"

end TrapCause

/-- The record of a trap. -/
structure Trap where
  kind : TrapKind
  pc : UInt16
  message : Bytes := []
deriving DecidableEq, Repr, Inhabited

/-- A trap as text; the message follows if there is one. -/
def Trap.text (t : Trap) : Bytes :=
  ascii "trap: " ++ t.kind.name ++ ascii " at pc " ++ Numeral.decimal t.pc.toNat
    ++ (if t.message = [] then [] else ascii ": " ++ t.message)

end RegisterMachine
