import RegisterMachine.Text.Bytes
import RegisterMachine.Text.Ascii
import RegisterMachine.Text.Numeral
import RegisterMachine.Source.Location
import RegisterMachine.Source.Path
import RegisterMachine.Source.Registry
import RegisterMachine.Source.Diagnostic
import RegisterMachine.Assembly.Operand
import RegisterMachine.Assembly.Operation
import RegisterMachine.Assembly.Statement
import RegisterMachine.Assembly.Instruction
import RegisterMachine.Text.Literal
import RegisterMachine.Assembly.LineError
import RegisterMachine.Assembly.Tokens
import RegisterMachine.Assembly.Reading
import RegisterMachine.Assembly.Symbols
import RegisterMachine.Assembly.Assemble
import RegisterMachine.Bytecode.Word
import RegisterMachine.Bytecode.Encode
import RegisterMachine.Bytecode.Decode
import RegisterMachine.Bytecode.Image
import RegisterMachine.Machine.State
import RegisterMachine.Machine.Trap
import RegisterMachine.Machine.Execute
import RegisterMachine.Machine.Trace
import RegisterMachine.Machine.Run
import RegisterMachine.Command.FileSystem
import RegisterMachine.Command.Arguments
import RegisterMachine.Command.Input
import RegisterMachine.Command.Outcome
import RegisterMachine.Command.Build
import RegisterMachine.Command.Run
import RegisterMachine.Command.Disassemble
import RegisterMachine.Command.Tool
import RegisterMachine.Main
import RegisterMachine.Proofs.Numerals
import RegisterMachine.Proofs.Pointwise
import RegisterMachine.Proofs.WellFormed
import RegisterMachine.Proofs.Fields
import RegisterMachine.Proofs.Encoding
import RegisterMachine.Proofs.Decoding
import RegisterMachine.Proofs.Images
import RegisterMachine.Proofs.Tokens
import RegisterMachine.Proofs.Operands
import RegisterMachine.Proofs.Listing
import RegisterMachine.Proofs.Assembling
import RegisterMachine.Proofs.Loading
import RegisterMachine.Proofs.Reassembly
import RegisterMachine.Proofs.Stepping
import RegisterMachine.Proofs.Safety
import RegisterMachine.Proofs.Preservation
import RegisterMachine.Proofs.Runs
import RegisterMachine.Proofs.Linking
import RegisterMachine.Proofs.Aliases
import RegisterMachine.Proofs.Detection
import RegisterMachine.Proofs.Origins
import RegisterMachine.Proofs.Tracing
import RegisterMachine.Proofs.Files
import RegisterMachine.Proofs.Readout
import RegisterMachine.Proofs.Requests
import RegisterMachine.Proofs.Outcomes
import RegisterMachine.Proofs.Checking
import RegisterMachine.Proofs.Arithmetic
import RegisterMachine.Proofs.Atomicity
import RegisterMachine.Proofs.Noninterference
import RegisterMachine.Proofs.Lifecycle
import RegisterMachine.Proofs.Attempts
import RegisterMachine.Proofs.StepLimit
import RegisterMachine.Proofs.Sightings
import RegisterMachine.Proofs.LineByLine
import RegisterMachine.Proofs.Slots
import RegisterMachine.Proofs.Grammar
import RegisterMachine.Proofs.Literals
import RegisterMachine.Proofs.Ranges
import RegisterMachine.Proofs.Places
import RegisterMachine.Proofs.LineEnds
import RegisterMachine.Proofs.Reports
import RegisterMachine.Proofs.LetterCase
import RegisterMachine.Proofs.Addresses
import RegisterMachine.Proofs.Items
import RegisterMachine.Proofs.Extensions
import RegisterMachine.Proofs.NormalPaths
import RegisterMachine.Proofs.Numbering
import RegisterMachine.Proofs.Settings
