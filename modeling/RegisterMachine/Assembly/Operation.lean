/-
# Operations

The operations of the assembly language in the order of its table: their names
and the shapes of their operands. `label` is in the table because a program
holds label definitions among its instructions; it has no mnemonic, so no
source line can name it.

Key definitions: `Operation`, `Operation.name`, `Operation.shapes`,
`Operation.ofMnemonic?`.
Key lemmas: `Operation.ofMnemonic?_name`, `Operation.ofMnemonic?_ne_label`.
-/
import RegisterMachine.Assembly.Operand
import RegisterMachine.Text.Ascii

namespace RegisterMachine

/-- What a statement does; `label` only defines a name. -/
inductive Operation where
  | label
  | halt
  | nop
  | mv
  | not
  | add
  | sub
  | and
  | or
  | xor
  | addi
  | andi
  | ori
  | xori
  | jmp
  | bz
  | bnz
deriving DecidableEq, Repr, Inhabited

namespace Operation

/-- The operations that a source line can name, in the order of the table. -/
def instructions : List Operation :=
  [halt, nop, mv, not, add, sub, and, or, xor, addi, andi, ori, xori, jmp, bz, bnz]

/-- All operations, in the order of the table. -/
def all : List Operation := label :: instructions

/-- The name of an operation. -/
def name : Operation → Bytes
  | label => ascii "label"
  | halt => ascii "halt"
  | nop => ascii "nop"
  | mv => ascii "mv"
  | not => ascii "not"
  | add => ascii "add"
  | sub => ascii "sub"
  | and => ascii "and"
  | or => ascii "or"
  | xor => ascii "xor"
  | addi => ascii "addi"
  | andi => ascii "andi"
  | ori => ascii "ori"
  | xori => ascii "xori"
  | jmp => ascii "jmp"
  | bz => ascii "bz"
  | bnz => ascii "bnz"

/-- What an operation takes, place by place. -/
def shapes : Operation → List Shape
  | label | halt | nop => []
  | mv | not => [.register, .register]
  | add | sub | and | or | xor => [.register, .register, .register]
  | addi | andi | ori | xori => [.register, .register, .immediate]
  | jmp | bz | bnz => [.target]

/-- How many operands an operation takes. -/
def arity (op : Operation) : Nat := op.shapes.length

/-- The operation may continue elsewhere than at the next instruction. -/
def isBranch (op : Operation) : Bool := op.shapes.contains .target

/-- The operation that a mnemonic names, in any mixture of cases. -/
def ofMnemonic? (text : Bytes) : Option Operation :=
  instructions.find? fun op => op.name = text.map Ascii.lower

theorem mem_instructions_iff (op : Operation) : op ∈ instructions ↔ op ≠ label := by
  cases op <;> decide

/-- A name is the mnemonic of its own operation. -/
theorem ofMnemonic?_name {op : Operation} (h : op ≠ label) : ofMnemonic? op.name = some op := by
  cases op <;> first | exact absurd rfl h | decide

/-- No mnemonic names the definition of a label. -/
theorem ofMnemonic?_ne_label (text : Bytes) : ofMnemonic? text ≠ some label := by
  intro h
  exact (mem_instructions_iff label).mp (List.mem_of_find?_eq_some h) rfl

end Operation
end RegisterMachine
