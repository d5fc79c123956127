/-
# Operands

An operand of a statement is a register, an immediate, an address, or the name
of a label that is to be replaced by its address. Operands carry whatever
number they were built with: that a register number is below 16, an immediate
below 256 and an address below 4096 is checked where a statement is read,
encoded or carried out. A `Shape` says which operands a place of a statement
takes.

Key definitions: `Operand`, `Operand.text`, `Shape`, `Shape.admits`.
-/
import RegisterMachine.Text.Numeral

namespace RegisterMachine

/-- An operand of a statement. -/
inductive Operand where
  /-- The register of this number. -/
  | register (index : UInt16)
  /-- An 8-bit immediate. -/
  | immediate (value : UInt16)
  /-- A 12-bit address of an instruction. -/
  | address (value : UInt16)
  /-- The address of a label. -/
  | label (name : Bytes)
deriving DecidableEq, Repr, Inhabited

namespace Operand

/-- How many registers there are. -/
def registerCount : UInt16 := 16

/-- The largest address. -/
def maxAddress : UInt16 := 4095

/-- The largest immediate. -/
def maxImmediate : UInt16 := 255

/-- The name of a register. -/
def registerName (index : Nat) : Bytes := 114 :: Numeral.decimal index

/-- An operand as the language writes it. -/
def text : Operand → Bytes
  | register index => registerName index.toNat
  | immediate value => Numeral.decimal value.toNat
  | address value => Numeral.decimal value.toNat
  | label name => name

end Operand

/-- What a place of a statement takes. Neither an empty place nor one of unknown shape takes any
operand. -/
inductive Shape where
  | nothing
  | register
  | immediate
  | target
  | unknown
deriving DecidableEq, Repr, Inhabited

namespace Shape

/-- The operands that a place of this shape takes. -/
def admits : Shape → Operand → Bool
  | register, .register _ => true
  | immediate, .immediate _ => true
  | target, .address _ => true
  | target, .label _ => true
  | _, _ => false

/-- The name of a shape in messages. -/
def name : Shape → Bytes
  | nothing => ascii "nothing"
  | register => ascii "register"
  | immediate => ascii "8-bit immediate"
  | target => ascii "branch target"
  | unknown => ascii "operand"

end Shape
end RegisterMachine
