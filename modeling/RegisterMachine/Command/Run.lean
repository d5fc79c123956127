/-
# The command `run`

`run` runs a program and puts out the state it ends in and the number of steps.
The input is a bytecode file if it begins as one does, and else a source text.
The output file is emptied before the program runs, so a source that is its own
output has no text left to trace. A program that never stops has no outcome.

Key definitions: `Arguments.conclude`, `SourceFile.run`, `run`.
-/
import RegisterMachine.Command.Input
import RegisterMachine.Command.Outcome
import RegisterMachine.Machine.Run

namespace RegisterMachine

/-- The note on how a file is going to be read. -/
def Arguments.loadingNote (a : Arguments) (source : SourceFile) : Bytes :=
  let activity :=
    if Image.hasMagic source.content then ascii "loading bytecode module " else ascii "assembling "
  a.options.note (activity ++ a.input)

/-- The outcome of a run that has ended. -/
def Arguments.conclude (a : Arguments) (files : FileSystem) (result : RunResult) : Outcome :=
  a.deliver result.report
    (match result.trap with
    | some trap =>
      { exit := 1, messages := result.trace ++ trap.text ++ [Bytes.newline], files }
    | none =>
      let steps := Numeral.decimal result.steps.toNat
      let note := a.options.note (ascii "halted after " ++ steps ++ ascii " steps")
      { messages := result.trace ++ note, files })

/-- How the arguments ask to run a program of this file. -/
def Arguments.settings (a : Arguments) (source : SourceFile) : Settings :=
  { mode := a.options.trace, registry := some source.registry, stepLimit := a.options.stepLimit }

/-- The outcome with text in front of its messages. -/
def Outcome.after (text : Bytes) (o : Outcome) : Outcome :=
  { o with messages := text ++ o.messages }

/-- Runs the program of a loaded file. -/
def SourceFile.run (files : FileSystem) (a : Arguments) (source : SourceFile) : Option Outcome :=
  match source.program with
  | .error text => some (.failure files text)
  | .ok program =>
    match a.openOutput files with
    | .error d => some (.refusal files d)
    | .ok files =>
      (interpret (a.settings source) files.read? program).map (a.conclude files)

/-- The command `run`. -/
def run (files : FileSystem) (a : Arguments) : Option Outcome :=
  match SourceFile.load files a.input with
  | .error error => some (.refusal files error.diagnostic)
  | .ok source => (source.run files a).map (·.after (a.loadingNote source))

end RegisterMachine
