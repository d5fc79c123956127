/-
# What a command leaves behind

A command ends with an exit status, text on the standard output, text on the
standard error output, and the files as they are then. A command that fails
says why on the standard error output.

Key definitions: `Outcome`, `Outcome.failure`, `Options.note`,
`Arguments.openOutput`, `Arguments.deliver`.
-/
import RegisterMachine.Command.Arguments
import RegisterMachine.Command.FileSystem

namespace RegisterMachine

/-- What a command leaves behind. -/
structure Outcome where
  /-- The exit status: 0 if the command has done its work, and 1 if not. -/
  exit : UInt32 := 0
  /-- The text on the standard output. -/
  output : Bytes := []
  /-- The text on the standard error output. -/
  messages : Bytes := []
  files : FileSystem
deriving DecidableEq, Repr, Inhabited

namespace Outcome

/-- The outcome of a command that fails and leaves the files as they are. -/
def failure (files : FileSystem) (messages : Bytes) : Outcome := { exit := 1, messages, files }

/-- The outcome of a command that fails because of a diagnostic that names no place. -/
def refusal (files : FileSystem) (d : Diagnostic) : Outcome := failure files (d.render none)

end Outcome

/-- A note on the progress of a command, if such notes are asked for. -/
def Options.note (options : Options) (message : Bytes) : Bytes :=
  if options.verbose then (Diagnostic.note message).render none else []

/-- The diagnostic of a file that cannot be written. -/
def cannotWrite (path : Bytes) : Diagnostic :=
  .error (ascii "unable to open " ++ path ++ ascii " for writing")

namespace Arguments

/-- The files with the output file emptied, if one is named, or the diagnostic of one that cannot
be written. -/
def openOutput (a : Arguments) (files : FileSystem) : Except Diagnostic FileSystem :=
  if a.output = [] then .ok files
  else
    match files.write? a.output [] with
    | some files => .ok files
    | none => .error (cannotWrite a.output)

/-- Puts a text into the output file, or on the standard output if none is named. -/
def deliver (a : Arguments) (text : Bytes) (o : Outcome) : Outcome :=
  if a.output = [] then { o with output := o.output ++ text }
  else { o with files := (o.files.write? a.output text).getD o.files }

end Arguments
end RegisterMachine
