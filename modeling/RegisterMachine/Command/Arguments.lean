/-
# The arguments of a command

A command takes one input, the first argument that does not begin with `-`, and
options. An option that asks for a value takes the argument behind it, whatever
that looks like; of an option that is repeated the last one counts. Some options
are for `run` only. The arguments are read from left to right, and the first one
at fault decides.

Key definitions: `Options`, `Options.recognise`, `Recognition.after`,
`ArgumentError`, `Arguments`, `Arguments.read`, `Arguments.ofList`.
-/
import RegisterMachine.Machine.Trace
import RegisterMachine.Source.Diagnostic
import RegisterMachine.Text.Literal

namespace RegisterMachine

/-- The options that several commands share. -/
structure Options where
  trace : TraceMode := .off
  /-- How many steps a run may make; 0 allows any number. -/
  stepLimit : UInt64 := 0
  /-- Progress is to be reported. -/
  verbose : Bool := false
deriving DecidableEq, Repr, Inhabited

/-- What the first of some arguments is. -/
inductive Recognition where
  /-- It is none of the shared options. -/
  | unrelated
  /-- It is an option with a bad value, or without the value it asks for. -/
  | malformed
  /-- It is an option and gives these options; it may have taken the argument behind it too. -/
  | taken (options : Options) (withValue : Bool)
deriving DecidableEq, Repr, Inhabited

/-- The index and the options behind the argument at an index. Only an option that is taken changes
them; the index moves on to the argument that it has taken last. -/
def Recognition.after (index : Nat) (options : Options) : Recognition → Nat × Options
  | taken options withValue => (if withValue then index + 1 else index, options)
  | unrelated | malformed => (index, options)

namespace Options

/-- The largest number of steps that can be asked for. -/
def maxStepLimit : Nat := UInt64.size - 1

/-- The number of steps that a text asks for. -/
def stepLimit? (text : Bytes) : Option UInt64 :=
  ((Literal.magnitude? 10 text).filter (· ≤ maxStepLimit)).map (·.toUInt64)

/-- The argument asks for progress reports. -/
def isVerbose (argument : Bytes) : Bool :=
  argument == ascii "-v" || argument == ascii "--verbose"

/-- The argument asks for the name of an output file. -/
def isOutput (argument : Bytes) : Bool :=
  argument == ascii "-o" || argument == ascii "--output"

/-- Recognises a shared option at the head of some arguments. -/
def recognise (options : Options) : List Bytes → Recognition
  | [] => .unrelated
  | argument :: rest =>
    if isVerbose argument then .taken { options with verbose := true } false
    else if argument = ascii "--trace" ∨ argument = ascii "--trace=instr" then
      .taken { options with trace := .instructions } false
    else if argument = ascii "--trace=src" then .taken { options with trace := .source } false
    else if (ascii "--trace=").isPrefixOf argument then .malformed
    else if argument = ascii "--max-steps" then
      match rest.head?.bind stepLimit? with
      | some stepLimit => .taken { options with stepLimit } true
      | none => .malformed
    else .unrelated

end Options

/-- What can be wrong with the arguments of a command. -/
inductive ArgumentError where
  /-- The option asks for an output file, and there is none behind it. -/
  | missingOutput (argument : Bytes)
  /-- The option is for `run` only. -/
  | runOnly (argument : Bytes)
  /-- The option has a bad value, or none. -/
  | malformed (argument : Bytes)
  /-- There was an input before. -/
  | unexpected (argument : Bytes)
  /-- There is no such option. -/
  | unknownFlag (argument : Bytes)
  /-- There is no input. -/
  | missingInput
deriving DecidableEq, Repr, Inhabited

/-- The message that reports an error with the arguments of the command of this name. -/
def ArgumentError.message (command : Bytes) : ArgumentError → Bytes
  | missingOutput argument => ascii "missing output path after " ++ argument
  | runOnly argument => argument ++ ascii " is only valid with 'run', not " ++ quoted command
  | malformed argument => ascii "malformed option: " ++ argument
  | unexpected argument => ascii "unexpected argument: " ++ argument
  | unknownFlag argument => ascii "unknown flag: " ++ argument
  | missingInput => ascii "missing input file for " ++ quoted command

/-- The diagnostic of an error with the arguments of a command. -/
def ArgumentError.diagnostic (command : Bytes) (error : ArgumentError) : Diagnostic :=
  .error (error.message command)

/-- What the arguments of a command say. -/
structure Arguments where
  input : Bytes
  /-- The output file, empty if none is named. -/
  output : Bytes := []
  options : Options := {}
deriving DecidableEq, Repr, Inhabited

namespace Arguments

/-- The option is for `run` only. -/
def isRunOnly (argument : Bytes) : Bool :=
  argument == ascii "--max-steps" || (ascii "--trace").isPrefixOf argument

/-- The argument could be an input. -/
def isOperand (argument : Bytes) : Bool :=
  match argument with
  | [] => false
  | first :: _ => first != Literal.minus

/-- What the arguments say, behind those that gave `input`, `output` and `options`. -/
def read (allowRun : Bool) (input : Option Bytes) (output : Bytes) (options : Options) :
    List Bytes → Except ArgumentError Arguments
  | [] =>
    match input with
    | none => .error .missingInput
    | some input => .ok { input, output, options }
  | argument :: rest =>
    if Options.isOutput argument then
      match rest with
      | [] => .error (.missingOutput argument)
      | value :: rest => read allowRun input value options rest
    else if isRunOnly argument && !allowRun then .error (.runOnly argument)
    else
      match options.recognise (argument :: rest) with
      | .taken options false => read allowRun input output options rest
      | .taken options true =>
        match rest with
        | [] => .error (.malformed argument)
        | _ :: rest => read allowRun input output options rest
      | .malformed => .error (.malformed argument)
      | .unrelated =>
        if ¬ isOperand argument then .error (.unknownFlag argument)
        else if input.isSome then .error (.unexpected argument)
        else read allowRun (some argument) output options rest

/-- What the arguments of a command say, on top of the options given before the command. -/
def ofList (allowRun : Bool) (options : Options) (arguments : List Bytes) :
    Except ArgumentError Arguments :=
  read allowRun none [] options arguments

end Arguments

/-- The arguments of a program that are left to be looked at. -/
abbrev CommandLine := List Bytes

namespace CommandLine

/-- The argument at an index, empty if there is none. -/
def argument (line : CommandLine) (index : Int) : Bytes :=
  if index < 0 then [] else line.getD index.toNat []

/-- The first argument, empty if there is none. -/
def front (line : CommandLine) : Bytes := line.headD []

end CommandLine
end RegisterMachine
