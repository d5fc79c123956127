/-
# What a command line asks for

A command line either asks for a command with arguments that can be read, or is
answered by the tool itself: with the usage, the version, or what is wrong with
it. Nothing but a command touches a file (`runTool_of_request?_eq_none`).

The output path of a command is fixed by its arguments as they are written: it
is what stands behind the last output option (`Arguments.output_of_read`).
An option that takes a number cannot hide one, since `-o` is no number.

Key definitions: `Arguments.outputValues`, `Request`, `CommandLine.request?`,
`Request.outputPath`, `Outcome.Explained`.
Key theorems: `Arguments.output_of_read`, `runTool_of_request?_eq_some`,
`runTool_of_request?_eq_none`.
-/
import RegisterMachine.Command.Tool
import RegisterMachine.Proofs.Pointwise

namespace RegisterMachine

/-! ### Output options -/

namespace Arguments

/-- What stands behind the output options, in their order. -/
def outputValues : List Bytes → List Bytes
  | option :: value :: rest =>
    if Options.isOutput option then value :: outputValues rest else outputValues (value :: rest)
  | _ => []

theorem outputValues_cons {argument : Bytes} (h : ¬ Options.isOutput argument = true)
    (rest : List Bytes) : outputValues (argument :: rest) = outputValues rest := by
  cases rest with
  | nil => rfl
  | cons value rest => rw [outputValues, if_neg h]

/-- What stands behind an option that takes a number is a number, and no output option. -/
theorem not_isOutput_of_recognise {options taken : Options} {argument value : Bytes}
    {rest : List Bytes} (h : options.recognise (argument :: value :: rest) = .taken taken true) :
    ¬ Options.isOutput value = true := by
  intro hvalue
  have hnumber : Options.stepLimit? value = none := by
    simp only [Options.isOutput, Bool.or_eq_true, beq_iff_eq] at hvalue
    rcases hvalue with rfl | rfl
    · decide
    · decide
  simp only [Options.recognise, List.head?_cons, Option.bind_some, hnumber] at h
  repeat' split at h
  all_goals cases h

theorem output_of_read {allowRun : Bool} {input : Option Bytes} {output : Bytes}
    {options : Options} {arguments : List Bytes} {a : Arguments}
    (h : read allowRun input output options arguments = .ok a) :
    a.output = (outputValues arguments).getLast?.getD output := by
  fun_induction read allowRun input output options arguments with
  | case2 => cases h; rfl
  | case4 input output options argument houtput value rest ih =>
    rw [outputValues, if_pos houtput, List.getLast?_cons, Option.getD_some]
    exact ih h
  | case6 input output options argument rest hargument _ _ _ ih
  | case12 input output options argument rest hargument _ _ _ _ ih =>
    rw [outputValues_cons hargument]
    exact ih h
  | case8 input output options argument hargument _ _ value rest htaken ih =>
    rw [outputValues_cons hargument, outputValues_cons (not_isOutput_of_recognise htaken)]
    exact ih h
  | _ => cases h

end Arguments

/-! ### Requests -/

/-- A command, as it is asked for. -/
structure Request where
  command : Command
  /-- The arguments behind the name of the command. -/
  given : List Bytes
  /-- What these arguments say. -/
  arguments : Arguments
deriving DecidableEq, Repr, Inhabited

namespace Request

/-- The value of the last output option. If that is empty, or there is none, it is for `build` the
input path with another extension. -/
def outputPath (r : Request) : Bytes :=
  let named := (Arguments.outputValues r.given).getLast?.getD []
  if named = [] ∧ r.command = .build then Path.withExtension (ascii ".rvm") r.arguments.input
  else named

/-- What the command leaves behind, if it ends. -/
def perform (r : Request) (files : FileSystem) : Option Outcome :=
  match r.command with
  | .build => some (build files r.arguments)
  | .run => run files r.arguments
  | .disassemble => some (disassemble files r.arguments)

end Request

namespace CommandLine

/-- The options in front of the name of the command. -/
def options (line : CommandLine) : Options :=
  { verbose := (line.head?.map Options.isVerbose).getD false }

/-- What a command line asks for, if it names a command and the arguments of that can be read. -/
def request? (line : CommandLine) : Option Request :=
  match line.dropWhile Options.isVerbose with
  | [] => none
  | first :: given =>
    match Command.ofArgument? first with
    | none => none
    | some command =>
      match Arguments.ofList (command == .run) line.options given with
      | .error _ => none
      | .ok arguments => some { command, given, arguments }

variable {line : CommandLine} {r : Request}

theorem of_request? (h : line.request? = some r) :
    ∃ first, line.dropWhile Options.isVerbose = first :: r.given ∧
      Command.ofArgument? first = some r.command ∧
      Arguments.ofList (r.command == .run) line.options r.given = .ok r.arguments := by
  unfold request? at h
  split at h
  · cases h
  · rename_i first given hline
    split at h
    · cases h
    · rename_i command hcommand
      split at h
      · cases h
      · rename_i arguments harguments
        cases h
        exact ⟨first, hline, hcommand, harguments⟩

theorem outputPath_of_request? (h : line.request? = some r) :
    r.outputPath = if r.command = .build then r.arguments.bytecodePath else r.arguments.output := by
  obtain ⟨first, -, -, harguments⟩ := of_request? h
  have houtput : r.arguments.output = (Arguments.outputValues r.given).getLast?.getD [] :=
    Arguments.output_of_read harguments
  unfold Request.outputPath Arguments.bytecodePath
  by_cases hbuild : r.command = .build
  · simp [hbuild, houtput]
  · simp [hbuild, houtput]

end CommandLine

/-! ### Answers -/

/-- The command has done its work, or has not and says so. -/
def Outcome.Explained (o : Outcome) : Prop := o.exit = 0 ∨ o.exit = 1 ∧ o.messages ≠ []

theorem Outcome.explained_failure (files : FileSystem) {messages : Bytes} (h : messages ≠ []) :
    (failure files messages).Explained := Or.inr ⟨rfl, h⟩

theorem Diagnostic.render_ne_nil (registry : Option Registry) (d : Diagnostic) :
    d.render registry ≠ [] := List.append_ne_nil_of_right_ne_nil _ (List.cons_ne_nil _ _)

theorem usage_ne_nil : usage ≠ [] := List.append_ne_nil_of_left_ne_nil (by decide) _

theorem dispatch_of_command {name : Bytes} {command : Command}
    (h : Command.ofArgument? name = some command) (files : FileSystem) (options : Options)
    (given : List Bytes) :
    dispatch files options (name :: given) = command.perform files options given := by
  have hhelp : ¬ (name = ascii "-h" ∨ name = ascii "--help") := by
    rintro (rfl | rfl)
    · cases h
    · cases h
  have hversion : name ≠ ascii "--version" := by
    rintro rfl
    cases h
  unfold dispatch
  simp only [hhelp, hversion, if_false, h]

/-- A command line that asks for a command leaves behind what the command does. -/
theorem runTool_of_request?_eq_some {line : CommandLine} {r : Request}
    (h : line.request? = some r) (files : FileSystem) : runTool files line = r.perform files := by
  obtain ⟨first, hline, hcommand, harguments⟩ := CommandLine.of_request? h
  have hperform : r.command.perform files line.options r.given = r.perform files := by
    unfold Command.perform Request.perform
    cases hname : r.command with
    | build | run | disassemble =>
      rw [hname] at harguments
      simp only [harguments]
  rw [← hperform, ← dispatch_of_command hcommand, runTool, hline]
  rfl

/-- A command line that asks for no command is answered, and changes nothing. -/
theorem runTool_of_request?_eq_none {line : CommandLine} (h : line.request? = none)
    (files : FileSystem) :
    ∃ o, runTool files line = some o ∧ o.files = files ∧ o.Explained := by
  unfold runTool
  cases hline : line.dropWhile Options.isVerbose with
  | nil => exact ⟨_, rfl, rfl, Outcome.explained_failure files usage_ne_nil⟩
  | cons first given =>
    simp only [dispatch]
    split
    · exact ⟨_, rfl, rfl, Or.inl rfl⟩
    · split
      · exact ⟨_, rfl, rfl, Or.inl rfl⟩
      · cases hcommand : Command.ofArgument? first with
        | none =>
          have hne := List.append_ne_nil_of_right_ne_nil
            (ascii "error: unknown command " ++ quoted first ++ [Bytes.newline]) usage_ne_nil
          exact ⟨_, rfl, rfl, Outcome.explained_failure files hne⟩
        | some command =>
          have hnone : ∀ a, Arguments.ofList (command == .run) line.options given ≠ .ok a := by
            intro a ha
            simp only [CommandLine.request?, hline, hcommand, ha] at h
            cases h
          obtain ⟨error, herror⟩ := exists_eq_error_iff.mpr hnone
          have hperform : command.perform files line.options given =
              some (.refusal files (error.diagnostic command.name)) := by
            unfold Command.perform
            rw [herror]
          exact ⟨_, hperform, rfl, Outcome.explained_failure files (Diagnostic.render_ne_nil _ _)⟩

end RegisterMachine
