/-
# The command `disasm`

`disasm` lists the program of a bytecode file with the addresses of its
instructions. The output file is opened when the program is known.

Key definitions: `disassemble`.
-/
import RegisterMachine.Command.Input
import RegisterMachine.Command.Outcome

namespace RegisterMachine

/-- The command `disasm`. -/
def disassemble (files : FileSystem) (a : Arguments) : Outcome :=
  match files.load a.input with
  | .error error => .refusal files error.diagnostic
  | .ok content =>
    match decodeFile content with
    | .error d => .refusal files d
    | .ok program =>
      match a.openOutput files with
      | .error d => .refusal files d
      | .ok files =>
        a.deliver program.addressedListing
          { messages := a.options.note (ascii "disassembled " ++ Numeral.decimal program.length
              ++ ascii " instructions")
            files }

end RegisterMachine
