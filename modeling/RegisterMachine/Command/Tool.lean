/-
# The command line

The tool takes its own options first, then the name of a command and the
arguments of that command. `runTool` gives what a whole command line leaves
behind; the files and the arguments are all that it depends on.

Key definitions: `Command`, `usage`, `runTool`.
-/
import RegisterMachine.Command.Build
import RegisterMachine.Command.Disassemble
import RegisterMachine.Command.Run

namespace RegisterMachine

/-- A command of the tool. -/
inductive Command where
  | build
  | run
  | disassemble
deriving DecidableEq, Repr, Inhabited

namespace Command

/-- The name of a command in messages. -/
def name : Command → Bytes
  | build => ascii "build"
  | run => ascii "run"
  | disassemble => ascii "disasm"

/-- The short name of a command. -/
def shortName : Command → Bytes
  | build => ascii "b"
  | run => ascii "r"
  | disassemble => ascii "d"

/-- The command that an argument names. -/
def ofArgument? (argument : Bytes) : Option Command :=
  [build, run, disassemble].find? fun c => argument = c.name ∨ argument = c.shortName

/-- A command with its arguments, on top of the options given before it. -/
def perform (command : Command) (files : FileSystem) (options : Options)
    (arguments : List Bytes) : Option Outcome :=
  match Arguments.ofList (command == run) options arguments with
  | .error error => some (.refusal files (error.diagnostic command.name))
  | .ok a =>
    match command with
    | build => some (RegisterMachine.build files a)
    | run => RegisterMachine.run files a
    | disassemble => some (RegisterMachine.disassemble files a)

end Command

/-- The name of the tool and its version. -/
def banner : Bytes := ascii "regvm v0.1.0"

/-- The text that shows the versions. -/
def versionText : Bytes :=
  banner ++ ascii "\nBytecode format version: " ++ Numeral.decimal bytecodeVersion.toNat
    ++ [Bytes.newline]

/-- The text that shows how the tool is used. -/
def usage : Bytes :=
  banner ++ ascii (
    " - register machine assembler and VM\n" ++
    "\n" ++
    "Usage: regvm [-v|--verbose] <command> [options]\n" ++
    "\n" ++
    "Commands:\n" ++
    "  build, b <in.asm> [-o out.rvm]     Assemble to bytecode\n" ++
    "  run, r <input> [-o state.txt]      Run assembly or bytecode\n" ++
    "  disasm, d <in.rvm> [-o out.asm]    Print bytecode as assembly\n" ++
    "\n" ++
    "Run options:\n" ++
    "  --trace[=instr|src]                Trace each executed instruction\n" ++
    "  --max-steps N                      Trap after N instructions\n" ++
    "\n" ++
    "Options:\n" ++
    "  -o, --output FILE                  Output file\n" ++
    "  -v, --verbose                      Print progress notes\n" ++
    "  -h, --help                         Show this help message\n" ++
    "  --version                          Show version information\n" ++
    "\n" ++
    "Examples:\n" ++
    "  regvm build fib.asm                Write fib.rvm\n" ++
    "  regvm run fib.rvm --trace          Run with an instruction trace\n" ++
    "\n")

/-- What the command line behind the tool's own options leaves behind. -/
def dispatch (files : FileSystem) (options : Options) : List Bytes → Option Outcome
  | [] => some (.failure files usage)
  | argument :: rest =>
    if argument = ascii "-h" ∨ argument = ascii "--help" then some { messages := usage, files }
    else if argument = ascii "--version" then some { output := versionText, files }
    else
      match Command.ofArgument? argument with
      | some command => command.perform files options rest
      | none =>
        some (.failure files
          (ascii "error: unknown command " ++ quoted argument ++ [Bytes.newline] ++ usage))

/-- What a command line leaves behind, if it ends: the arguments do not begin with the name of the
tool. -/
def runTool (files : FileSystem) (arguments : CommandLine) : Option Outcome :=
  let verbose := (arguments.head?.map Options.isVerbose).getD false
  dispatch files { verbose } (arguments.dropWhile Options.isVerbose)

end RegisterMachine
