/-
# Decoding words

A word is decoded only if it is the word of an instruction: its opcode is in
use and every bit that its operation has no field for is zero. An addition of
the immediate 0 is read as `mv`, and as `nop` if it is on register 0 alone, so
each word stands for one instruction.

Key definitions: `DecodeError`, `Word.decode`, `Word.decodeAll`.
-/
import RegisterMachine.Assembly.Instruction
import RegisterMachine.Bytecode.Word
import RegisterMachine.Source.Diagnostic

namespace RegisterMachine

/-- The name of an opcode in messages. -/
def Opcode.name : Opcode → Bytes
  | halt => ascii "HALT"
  | addi => ascii "ADDI"
  | add => ascii "ADD"
  | sub => ascii "SUB"
  | and => ascii "AND"
  | or => ascii "OR"
  | xor => ascii "XOR"
  | not => ascii "NOT"
  | andi => ascii "ANDI"
  | ori => ascii "ORI"
  | xori => ascii "XORI"
  | branch => ascii "BRANCH"

/-- The name of what the opcode field holds, also if it is not in use. -/
def Opcode.nameOfCode (code : UInt32) : Bytes :=
  match ofCode? code with
  | some op => op.name
  | none => ascii "UNKNOWN"

/-- Why a word is no instruction. -/
inductive DecodeError where
  /-- It has more than 24 bits. -/
  | tooWide
  /-- Its opcode is not in use. -/
  | unknownOpcode (code : UInt32)
  /-- A bit is set that the operation does not use. -/
  | reservedBits (op : Opcode)
  /-- No branch has this condition. -/
  | condition (code : UInt32)
deriving DecidableEq, Repr, Inhabited

/-- What is said of a word that is no instruction. -/
def DecodeError.message : DecodeError → Bytes
  | tooWide => ascii "word exceeds 24 bits"
  | unknownOpcode code => ascii "unknown opcode " ++ Numeral.decimal code.toNat
  | reservedBits op => ascii "reserved bits set for " ++ op.name
  | condition code => ascii "invalid branch condition " ++ Numeral.decimal code.toNat

/-- The diagnostic of a word, at an address, that is no instruction. -/
def DecodeError.diagnostic (address : UInt16) (w : Word) (error : DecodeError) : Diagnostic :=
  .error (ascii "word " ++ Numeral.decimal address.toNat ++ ascii " (0x"
    ++ Numeral.hexadecimal 6 w.toNat ++ ascii "): " ++ error.message)

namespace Word

/-- The register that a field of four bits names. -/
def register (f : Field) (w : Word) : Register := Fin.ofNat 16 (f.get w).toNat

/-- A function of two registers; the highest four bits are not used. -/
def decodeBinary (w : Word) (op : Opcode) (f : Binary) : Except DecodeError Instruction :=
  if Field.high.get w ≠ 0 then .error (.reservedBits op)
  else .ok (.binary f (register .rd w) (register .rs1 w) (register .rs2 w))

/-- A function of a register and an immediate. -/
def decodeImmediate (w : Word) (f : Immediate) : Instruction :=
  .withImmediate f (register .rd w) (register .rs1 w) (Field.imm8.get w).toUInt16

/-- An addition of an immediate: of zero, it is `mv`, and on register 0 alone `nop`. -/
def decodeAddition (w : Word) : Instruction :=
  if Field.imm8.get w = 0 then
    if register .rd w = 0 ∧ register .rs1 w = 0 then .nop
    else .move (register .rd w) (register .rs1 w)
  else decodeImmediate w .add

/-- A branch; the bits of the register that is written are not used. -/
def decodeBranch (w : Word) : Except DecodeError Instruction :=
  let target := (Field.imm12.get w).toUInt16
  if Field.rd.get w ≠ 0 then .error (.reservedBits .branch)
  else if Field.fun2.get w = 0 then .ok (.branch .always target)
  else if Field.fun2.get w = 1 then .ok (.branch .zero target)
  else if Field.fun2.get w = 2 then .ok (.branch .nonzero target)
  else .error (.condition (Field.fun2.get w))

/-- The instruction of a word with this opcode. Only branches use the condition field. -/
def decodeAs (w : Word) (op : Opcode) : Except DecodeError Instruction :=
  if op ≠ .branch ∧ Field.fun2.get w ≠ 0 then .error (.reservedBits op)
  else
    match op with
    | .halt => if w ≠ 0 then .error (.reservedBits .halt) else .ok .halt
    | .addi => .ok (decodeAddition w)
    | .andi => .ok (decodeImmediate w .and)
    | .ori => .ok (decodeImmediate w .or)
    | .xori => .ok (decodeImmediate w .xor)
    | .add => decodeBinary w op .add
    | .sub => decodeBinary w op .sub
    | .and => decodeBinary w op .and
    | .or => decodeBinary w op .or
    | .xor => decodeBinary w op .xor
    | .not =>
      if Field.imm8.get w ≠ 0 then .error (.reservedBits .not)
      else .ok (.complement (register .rd w) (register .rs1 w))
    | .branch => decodeBranch w

/-- The instruction of a word. -/
def decode (w : Word) : Except DecodeError Instruction :=
  if ¬ w.fits then .error .tooWide
  else
    match Opcode.ofCode? (Field.opcode.get w) with
    | none => .error (.unknownOpcode (Field.opcode.get w))
    | some op => decodeAs w op

/-- The program of the words from `address` on; the first word that is no instruction decides.
Addresses are shown in 16 bits. -/
def decodeFrom (address : Nat) : List Word → Except Diagnostic Program
  | [] => .ok []
  | w :: rest =>
    match decode w with
    | .error error => .error (error.diagnostic address.toUInt16 w)
    | .ok instruction => (decodeFrom (address + 1) rest).map (instruction.statement :: ·)

/-- The program of a list of words. -/
def decodeAll (words : List Word) : Except Diagnostic Program := decodeFrom 0 words

end Word
end RegisterMachine
