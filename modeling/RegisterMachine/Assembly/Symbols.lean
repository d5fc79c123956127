/-
# Labels and their addresses

A label stands for the address of the instruction behind its definition, which
is the number of the instructions before it. `Program.strip` takes the
definitions out of a program and keeps a `SymbolTable` of them; no label may be
defined twice, and no more than 4096 instructions may be left, as many as
12-bit addresses can tell apart. `Program.resolve` then puts addresses in place
of the labels that instructions name.

Key definitions: `SymbolTable`, `SymbolError`, `Program.strip`,
`Program.resolve`, `Program.link`.
-/
import RegisterMachine.Assembly.Statement
import RegisterMachine.Source.Diagnostic

namespace RegisterMachine

/-- The defined labels and their addresses. -/
abbrev SymbolTable := List (Bytes × UInt16)

/-- What can be wrong with the labels of a program, or with its length. -/
inductive SymbolError where
  /-- The label was defined before. -/
  | duplicate (name : Bytes)
  /-- There are more instructions than addresses. -/
  | programTooLong
  /-- A definition is left among the instructions. -/
  | definitionLeft (name : Bytes)
  /-- The label is defined nowhere. -/
  | undefined (name : Bytes)
  /-- The address of the label does not fit into 12 bits. -/
  | beyondRange (name : Bytes)
deriving DecidableEq, Repr, Inhabited

/-- How many instructions a program may have. -/
def maxProgramLength : Nat := 4096

/-- The message that reports an error with the labels of a program. -/
def SymbolError.message : SymbolError → Bytes
  | duplicate name => ascii "duplicate label " ++ quoted name
  | programTooLong =>
    ascii "program exceeds " ++ Numeral.decimal maxProgramLength ++ ascii " instructions"
  | definitionLeft name => ascii "encountered unstripped label " ++ quoted name
  | undefined name => ascii "undefined label " ++ quoted name
  | beyondRange name =>
    ascii "label " ++ quoted name ++ ascii " resolves beyond the 12-bit address range"

/-- An error with the labels of a program, and the place of the statement that shows it. -/
structure SymbolFault where
  error : SymbolError
  location : Location
deriving DecidableEq, Repr, Inhabited

/-- The diagnostic of a fault with the labels of a program. -/
def SymbolFault.diagnostic (fault : SymbolFault) : Diagnostic :=
  .error fault.error.message fault.location

/-- The address of a label. -/
def SymbolTable.address? (symbols : SymbolTable) (name : Bytes) : Option UInt16 :=
  symbols.lookup name

/-- A program without label definitions, and what was defined. -/
structure Stripped where
  program : Program := []
  symbols : SymbolTable := []
deriving DecidableEq, Repr, Inhabited

namespace Program

/-- Strips the rest of a program, behind `kept` instructions and the definitions of `symbols`. -/
def stripFrom (kept : Nat) (symbols : SymbolTable) : Program → Except SymbolFault Stripped
  | [] => .ok { symbols }
  | s :: rest =>
    if s.isInstruction then
      if kept ≥ maxProgramLength then
        .error { error := .programTooLong, location := s.location }
      else
        (stripFrom (kept + 1) symbols rest).map fun later =>
          { later with program := s :: later.program }
    else if (symbols.address? s.label).isSome then
      .error { error := .duplicate s.label, location := s.location }
    else stripFrom kept (symbols ++ [(s.label, kept.toUInt16)]) rest

/-- The program without its label definitions, and what they define. -/
def strip (program : Program) : Except SymbolFault Stripped := stripFrom 0 [] program

end Program

/-- The operand with the address of the label it may name. -/
def Operand.resolve (symbols : SymbolTable) : Operand → Except SymbolError Operand
  | label name =>
    match symbols.address? name with
    | none => .error (.undefined name)
    | some value => if value > maxAddress then .error (.beyondRange name) else .ok (.address value)
  | operand => .ok operand

/-- The statement with addresses in place of the labels it names. -/
def Statement.resolve (symbols : SymbolTable) (s : Statement) : Except SymbolFault Statement :=
  if s.isInstruction then
    match s.operands.mapM (Operand.resolve symbols) with
    | .ok operands => .ok { s with operands }
    | .error error => .error { error, location := s.location }
  else .error { error := .definitionLeft s.label, location := s.location }

namespace Program

/-- The program with addresses in place of labels; the first statement at fault decides. -/
def resolve (symbols : SymbolTable) (program : Program) : Except SymbolFault Program :=
  program.mapM (Statement.resolve symbols)

/-- The program of its instructions, with an address for each label. -/
def link (program : Program) : Except SymbolFault Program :=
  match program.strip with
  | .ok stripped => stripped.program.resolve stripped.symbols
  | .error fault => .error fault

end Program
end RegisterMachine
