/-
# What can be wrong with a line

A line of source text is refused for one cause, at one column. The causes are
those of cutting the line into tokens, of the mnemonic, and of each operand.

Key definitions: `LineError`, `LineError.message`, `LineFault`,
`LineFault.diagnostic`.
-/
import RegisterMachine.Assembly.Operation
import RegisterMachine.Source.Diagnostic

namespace RegisterMachine

/-- Why a line is refused. -/
inductive LineError where
  /-- What stands before the first colon is no identifier. -/
  | labelName (name : Bytes)
  /-- An instruction has to begin here. -/
  | missingMnemonic
  /-- An operand has to begin here. -/
  | missingOperand
  /-- No operation has this mnemonic. -/
  | unknownInstruction (mnemonic : Bytes)
  /-- The operation takes another number of operands. -/
  | operandCount (operation : Operation) (given : Nat)
  /-- The operand is not written like a register. -/
  | notRegister (text : Bytes)
  /-- There is no register of this number. -/
  | noRegister (text : Bytes)
  /-- The operand is not written like an immediate. -/
  | notImmediate (text : Bytes)
  /-- The immediate is out of range. -/
  | immediateRange (text : Bytes)
  /-- The operand is written neither like a label nor like an address. -/
  | notTarget (text : Bytes)
  /-- The address is out of range. -/
  | targetRange (text : Bytes)
  /-- No operand can stand here. -/
  | unexpectedOperand (text : Bytes)
deriving DecidableEq, Repr, Inhabited

/-- The message that reports an error of a line. -/
def LineError.message : LineError → Bytes
  | labelName name => ascii "invalid label name " ++ quoted name
  | missingMnemonic => ascii "expected instruction mnemonic"
  | missingOperand => ascii "expected operand"
  | unknownInstruction mnemonic => ascii "unknown instruction " ++ quoted mnemonic
  | operandCount op given =>
    quoted op.name ++ ascii " expects " ++ Numeral.decimal op.arity ++ ascii " operand"
      ++ (if op.arity = 1 then [] else ascii "s") ++ ascii ", got " ++ Numeral.decimal given
  | notRegister text => ascii "expected register, got " ++ quoted text
  | noRegister text => ascii "invalid register " ++ quoted text ++ ascii " (r0-r15)"
  | notImmediate text => ascii "expected immediate, got " ++ quoted text
  | immediateRange text => ascii "immediate " ++ quoted text ++ ascii " does not fit in 8 bits"
  | notTarget text => ascii "expected label or address, got " ++ quoted text
  | targetRange text =>
    ascii "branch target " ++ quoted text ++ ascii " does not fit in 12 bits"
  | unexpectedOperand text => ascii "unexpected operand " ++ quoted text

/-- An error of a line and the column it is found at. -/
structure LineFault where
  error : LineError
  column : UInt32
deriving DecidableEq, Repr, Inhabited

/-- The diagnostic of a fault in the line at `location`. -/
def LineFault.diagnostic (location : Location) (fault : LineFault) : Diagnostic :=
  .error fault.error.message (location.atColumn fault.column)

end RegisterMachine
