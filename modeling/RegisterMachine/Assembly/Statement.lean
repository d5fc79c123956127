/-
# Statements and programs

A statement is an operation with its operands, or the definition of a label. It
knows the place in the source it was read at. `Statement.text` and
`Program.listing` write statements in the form in which they are read; the
listing with addresses adds, behind each instruction, a comment with its
address, the number of the instructions before it.

Key definitions: `Statement`, `Statement.agrees`, `Statement.text`, `Program`,
`Program.listing`, `Program.addressedListing`.
-/
import RegisterMachine.Assembly.Operation
import RegisterMachine.Source.Location

namespace RegisterMachine

/-- A statement of a program. Nothing is assumed of its operands: their number, kinds and ranges
may fail to fit the operation. -/
structure Statement where
  operation : Operation
  operands : List Operand := []
  /-- The defined name, if the operation is `label`. -/
  label : Bytes := []
  /-- Where the statement was read. -/
  location : Location := {}
deriving DecidableEq, Repr, Inhabited

/-- A program is the list of its statements. -/
abbrev Program := List Statement

namespace Statement

/-- The statement that defines a label. -/
def define (name : Bytes) (location : Location := {}) : Statement :=
  { operation := .label, label := name, location }

/-- The statement is an instruction and not the definition of a label. -/
def isInstruction (s : Statement) : Bool := s.operation != .label

/-- The two statements say the same, wherever they were read. -/
def agrees (a b : Statement) : Bool :=
  a.operation == b.operation && a.operands == b.operands && a.label == b.label

/-- A statement as the language writes it. -/
def text (s : Statement) : Bytes :=
  if s.operation = .label then s.label ++ ascii ":"
  else
    let operands := (ascii ", ").intercalate (s.operands.map Operand.text)
    s.operation.name ++ (if s.operands = [] then [] else ascii " " ++ operands)

/-- The line of a statement in a listing: instructions are indented, labels are not. -/
def line (s : Statement) : Bytes := if s.isInstruction then ascii "  " ++ s.text else s.text

end Statement

namespace Program

/-- The column at which the address comments of a listing stand, from 0. -/
def commentColumn : Nat := 24

/-- The comment that shows an address: at least four digits. -/
def addressComment (address : Nat) : Bytes := ascii "; " ++ Numeral.zeroPadded 4 address

/-- A program as text, a line for each statement. -/
def listing (program : Program) : Bytes :=
  program.flatMap fun s => s.line ++ [Bytes.newline]

/-- The lines of a listing with addresses, when the first instruction has the address `address`. -/
def addressedLines (address : Nat) : Program → List Bytes
  | [] => []
  | s :: rest =>
    if s.isInstruction then
      (Numeral.padRight 32 commentColumn s.line ++ addressComment address)
        :: addressedLines (address + 1) rest
    else s.line :: addressedLines address rest

/-- A program as text, with the address of each instruction in a comment behind it. -/
def addressedListing (program : Program) : Bytes :=
  (addressedLines 0 program).flatMap (· ++ [Bytes.newline])

end Program
end RegisterMachine
