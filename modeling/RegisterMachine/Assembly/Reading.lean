/-
# Reading a program

A line gives at most two statements: the definition of a label and an
instruction. The operands of the instruction are read after the shapes of its
operation, from left to right. Reading a source text takes each line by itself:
a line with a fault gives its diagnostic and no statement, and the other lines
are read as if it were not there.

Key definitions: `Operand.ofToken`, `Statement.ofLine`, `Reading.ofSource`.
-/
import RegisterMachine.Assembly.Statement
import RegisterMachine.Assembly.Tokens
import RegisterMachine.Text.Literal

namespace RegisterMachine

namespace Operand

/-- The register that a token names: `r` or `R` and a number in plain decimal digits. -/
def ofRegisterToken (token : Token) : Except LineFault Operand :=
  let refuse (error : Bytes → LineError) : Except LineFault Operand :=
    .error { error := error token.text, column := token.column }
  match token.text with
  | r :: digit :: rest =>
    if (r = 114 ∨ r = 82) ∧ Ascii.isDigit digit then
      match Literal.value? (digit :: rest) with
      | none => refuse .notRegister
      | some index =>
        if (digit :: rest).any fun b => b == 120 || b == 88 || b == Literal.minus then
          refuse .notRegister
        else if index ≥ 16 then refuse .noRegister
        else .ok (.register index.toNat.toUInt16)
    else refuse .notRegister
  | _ => refuse .notRegister

/-- The immediate that a token gives: a literal from -128 to 255, of which the low 8 bits count. -/
def ofImmediateToken (token : Token) : Except LineFault Operand :=
  match Literal.value? token.text with
  | none => .error { error := .notImmediate token.text, column := token.column }
  | some value =>
    if value < -128 ∨ value > 255 then
      .error { error := .immediateRange token.text, column := token.column }
    else .ok (.immediate (value % 256).toNat.toUInt16)

/-- The branch target that a token gives: an identifier is a label, and a literal from 0 to 4095
an address. -/
def ofTargetToken (token : Token) : Except LineFault Operand :=
  if Ascii.isIdentifier token.text then .ok (.label token.text)
  else
    match Literal.value? token.text with
    | none => .error { error := .notTarget token.text, column := token.column }
    | some value =>
      if value < 0 ∨ value > 4095 then
        .error { error := .targetRange token.text, column := token.column }
      else .ok (.address value.toNat.toUInt16)

/-- The operand that a token gives in a place of this shape. -/
def ofToken (shape : Shape) (token : Token) : Except LineFault Operand :=
  match shape with
  | .register => ofRegisterToken token
  | .immediate => ofImmediateToken token
  | .target => ofTargetToken token
  | .nothing | .unknown =>
    .error { error := .unexpectedOperand token.text, column := token.column }

/-- The operands of tokens in places of these shapes, from left to right. -/
def ofTokens : List Shape → List Token → Except LineFault (List Operand)
  | shape :: shapes, token :: tokens =>
    match ofToken shape token with
    | .error fault => .error fault
    | .ok operand => (ofTokens shapes tokens).map (operand :: ·)
  | _, _ => .ok []

end Operand

namespace Statement

/-- The instruction that a mnemonic and its operands make. -/
def ofMnemonic (location : Location) (mnemonic : Token) (operands : List Token) :
    Except LineFault Statement :=
  match Operation.ofMnemonic? mnemonic.text with
  | none => .error { error := .unknownInstruction mnemonic.text, column := mnemonic.column }
  | some operation =>
    if operands.length ≠ operation.arity then
      .error
        { error := .operandCount operation operands.length, column := mnemonic.column }
    else
      (Operand.ofTokens operation.shapes operands).map fun operands =>
        { operation, operands, location := location.atColumn mnemonic.column }

/-- The statements of a line at `location`: the label it defines, then its instruction. -/
def ofLine (location : Location) (line : Bytes) : Except LineFault (List Statement) :=
  match LineTokens.ofLine line with
  | .error fault => .error fault
  | .ok tokens =>
    let labels := tokens.label.toList.map fun t => define t.text (location.atColumn t.column)
    match tokens.mnemonic with
    | none => .ok labels
    | some mnemonic =>
      (ofMnemonic location mnemonic tokens.operands).map fun instruction => labels ++ [instruction]

end Statement

/-- What a source text holds: its statements, and the diagnostics of the lines that were refused,
both in the order of the lines. -/
structure Reading where
  program : Program := []
  diagnostics : List Diagnostic := []
deriving DecidableEq, Repr, Inhabited

namespace Reading

/-- The reading of the lines from number `number` on. -/
def ofLines (file : UInt32) (number : Nat) : List Bytes → Reading
  | [] => {}
  | line :: rest =>
    let location : Location := { file, line := number.toUInt32 }
    let later := ofLines file (number + 1) rest
    match Statement.ofLine location line with
    | .ok statements => { later with program := statements ++ later.program }
    | .error fault => { later with diagnostics := fault.diagnostic location :: later.diagnostics }

/-- The reading of a source text that is the file of this number. -/
def ofSource (file : UInt32) (source : Bytes) : Reading := ofLines file 1 source.lines

end Reading
end RegisterMachine
