/-
# Instruction words

An instruction is a word of 24 bits in fields. The operation is in bits 0 to 5
and a branch condition in bits 6 and 7; the other fields overlap:

    23..20 | 19..16 | 15..12 | 11..8 | 7..6 | 5..0
           |  rs2   |  rs1   |  rd   | fun2 | opcode
    ------ imm8 ----|
    --------- imm12 ---------|

Words are held in 32 bits. `Field.set` clears a field before it inserts the
value, of which it takes as many low bits as the field has, so of two values
set for one field the last one stays. The bits of a field that an earlier one
shares are overwritten too.

Key definitions: `Word`, `Field`, `Field.get`, `Field.set`, `Word.fits`,
`Word.truncate`.
-/

namespace RegisterMachine

/-- An instruction word, or what is read in place of one. -/
abbrev Word := UInt32

/-- The bits of a word from `shift` on that `mask`, shifted there, covers. -/
structure Field where
  mask : UInt32
  shift : UInt32
deriving DecidableEq, Repr, Inhabited

namespace Field

/-- The operation. -/
def opcode : Field := ⟨0x3F, 0⟩

/-- The condition of a branch. -/
def fun2 : Field := ⟨0x3, 6⟩

/-- The register that is written. -/
def rd : Field := ⟨0xF, 8⟩

/-- The first register that is read. -/
def rs1 : Field := ⟨0xF, 12⟩

/-- The second register that is read. -/
def rs2 : Field := ⟨0xF, 16⟩

/-- The highest four bits, which no instruction on registers uses. -/
def high : Field := ⟨0xF, 20⟩

/-- The immediate. -/
def imm8 : Field := ⟨0xFF, 16⟩

/-- The target of a branch. -/
def imm12 : Field := ⟨0xFFF, 12⟩

/-- The value of a field. -/
def get (f : Field) (w : Word) : UInt32 := (w >>> f.shift) &&& f.mask

/-- The word with another value in a field. -/
def set (f : Field) (value : UInt32) (w : Word) : Word :=
  (w &&& ~~~(f.mask <<< f.shift)) ||| ((value &&& f.mask) <<< f.shift)

end Field

namespace Word

/-- The bits that an instruction word may use. -/
def mask : Word := 0xFFFFFF

/-- The word uses 24 bits at most. -/
def fits (w : Word) : Bool := w &&& ~~~mask == 0

/-- The 24 bits of a word that an instruction uses. -/
def truncate (w : Word) : Word := w &&& mask

end Word

/-- The values of the opcode field that are in use, in their order from 0. -/
inductive Opcode where
  | halt
  | addi
  | add
  | sub
  | and
  | or
  | xor
  | not
  | andi
  | ori
  | xori
  | branch
deriving DecidableEq, Repr, Inhabited

namespace Opcode

/-- All opcodes in their order. -/
def all : List Opcode :=
  [halt, addi, add, sub, and, or, xor, not, andi, ori, xori, branch]

/-- The value of the opcode field. -/
def code : Opcode → UInt32
  | halt => 0
  | addi => 1
  | add => 2
  | sub => 3
  | and => 4
  | or => 5
  | xor => 6
  | not => 7
  | andi => 8
  | ori => 9
  | xori => 10
  | branch => 11

/-- The opcode with a value of the field. -/
def ofCode? (code : UInt32) : Option Opcode := all[code.toNat]?

/-- A value of the field gives its opcode back. -/
theorem ofCode?_code (op : Opcode) : ofCode? op.code = some op := by
  cases op <;> decide

end Opcode
end RegisterMachine
