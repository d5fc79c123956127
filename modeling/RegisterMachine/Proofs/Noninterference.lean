/-
# Watching changes nothing

The notes on progress and the trace are for whoever watches a command. They go
to the standard error output and nowhere else: with and without them a command
ends in the same cases, with the same exit status, the same text on the standard
output and the same files (`Outcome.effect`).

What a machine does is seen without its trace (`Machine.quiet`): a step of the
quiet machine is a step of the machine (`Machine.quiet_step`), and so is a run,
whatever is traced and whatever the source files hold. In the same way the
effect of a command is that of the command with quiet options, and the flags
that ask for notes or for a trace change the options in nothing else, so
arguments with such flags in front are read as without them
(`Command.effect_perform_append`).

Key definitions: `Machine.quiet`, `Options.quiet`, `Outcome.effect`,
`Command.observes`.
Key theorems: `Machine.quiet_step`, `Machine.quiet_runFor`,
`interpret_ending_of_quiet`, `Command.effect_perform`,
`Command.effect_perform_append`, `runTool_of_observes`.
-/
import RegisterMachine.Proofs.Preservation
import RegisterMachine.Proofs.Requests

namespace RegisterMachine

/-! ### Machines without a trace -/

namespace Machine

/-- The machine without its trace. -/
def quiet (m : Machine) : Machine :=
  { m with settings := { stepLimit := m.settings.stepLimit }, sources := [], trace := [] }

variable (read other : Reader) (m : Machine)

theorem quiet_fetch : m.quiet.fetch = m.fetch := rfl

theorem quiet_carryOut (s : Statement) : (m.carryOut s).quiet = m.quiet.carryOut s := by
  cases hverdict : (s.execute m.state).verdict with
  | trap cause =>
    rw [carryOut_of_trap hverdict, carryOut_of_trap (m := m.quiet) hverdict]
    rfl
  | halt =>
    rw [carryOut_of_halt hverdict, carryOut_of_halt (m := m.quiet) hverdict]
    rfl
  | next pc =>
    rw [carryOut_of_next hverdict, carryOut_of_next (m := m.quiet) hverdict]
    rfl

theorem quiet_traced (s : Statement) : (m.traced read s).quiet = m.quiet := rfl

theorem traced_quiet (s : Statement) : m.quiet.traced read s = m.quiet := by
  simp [traced, Trace.ofStatement, quiet]

/-- **A step of the quiet machine is a step of the machine**, whatever the source files hold. -/
theorem quiet_step : (m.step read).quiet = m.quiet.step other := by
  have hstatus : m.quiet.status = m.status := rfl
  unfold step
  rw [hstatus, quiet_fetch]
  split
  · rfl
  · cases m.fetch with
    | error cause => rfl
    | ok s =>
      simp only [quiet_carryOut, quiet_traced, traced_quiet]

theorem quiet_runFor (fuel : Nat) :
    (m.runFor read fuel).map quiet = m.quiet.runFor other fuel := by
  have hstatus : m.quiet.status = m.status := rfl
  induction fuel generalizing m with
  | zero =>
    rw [runFor, runFor, hstatus]
    split <;> rfl
  | succ fuel ih =>
    rw [runFor, runFor, hstatus]
    split
    · rfl
    · rw [ih (m.step read) rfl, quiet_step read other]

end Machine

/-- What is traced of a run, and where source lines are looked up, has no influence on how the run
ends. -/
theorem interpret_ending_of_quiet (settings : Settings) (read other : Reader) (program : Program)
    (initial : State) : (interpret settings read program initial).map RunResult.ending =
      (interpret { stepLimit := settings.stepLimit } other program initial).map
        RunResult.ending := by
  let m := ({ settings } : Machine).load program initial
  have henough : m.quiet.enough = m.enough := rfl
  have hrun : (m.run read).map Machine.quiet = m.quiet.run other := by
    rw [Machine.run, Machine.run, henough]
    exact m.quiet_runFor read other m.enough
  have hload : ({ settings := m.quiet.settings } : Machine).load program initial = m.quiet := rfl
  calc (interpret settings read program initial).map RunResult.ending
      = ((m.run read).map Machine.quiet).map fun n => n.result.ending := by
        rw [interpret, Option.map_map, Option.map_map]
        rfl
    _ = (m.quiet.run other).map fun n => n.result.ending := by rw [hrun]
    _ = _ := by
        rw [← hload, interpret, Option.map_map]
        rfl

/-- Two results of the same kind are answered alike if the kind decides the answer. -/
theorem map_eq_map_of_kind {α β γ : Type} {kind : α → β} {f g : α → γ}
    (hkind : ∀ a b, kind a = kind b → f a = g b) {x y : Option α} (h : x.map kind = y.map kind) :
    x.map f = y.map g := by
  cases x with
  | none => cases y with
    | none => rfl
    | some b => cases h
  | some a => cases y with
    | none => cases h
    | some b => exact congrArg some (hkind a b (Option.some.inj h))

/-! ### Commands with quiet options -/

/-- What a command leaves behind besides its messages. -/
def Outcome.effect (o : Outcome) : UInt32 × Bytes × FileSystem := (o.exit, o.output, o.files)

/-- The options without notes on the progress and without a trace. -/
def Options.quiet (options : Options) : Options := { stepLimit := options.stepLimit }

namespace Arguments

/-- The arguments without notes on the progress and without a trace. -/
def quiet (a : Arguments) : Arguments := { a with options := a.options.quiet }

theorem effect_deliver (a : Arguments) (text : Bytes) {o o' : Outcome}
    (h : o.effect = o'.effect) : (a.deliver text o).effect = (a.quiet.deliver text o').effect := by
  obtain ⟨hexit, houtput, hfiles⟩ : o.exit = o'.exit ∧ o.output = o'.output ∧ o.files = o'.files :=
    by simpa [Outcome.effect] using h
  have hquiet : a.quiet.output = a.output := rfl
  unfold deliver
  rw [hquiet]
  split <;> simp [Outcome.effect, hexit, houtput, hfiles]

theorem effect_writeImage (a : Arguments) (files : FileSystem) (words : List Word) :
    (a.writeImage files words).effect = (a.quiet.writeImage files words).effect := by
  have hpath : a.quiet.bytecodePath = a.bytecodePath := rfl
  unfold writeImage
  simp only [hpath]
  split
  · rfl
  · split <;> rfl

theorem effect_conclude (a : Arguments) (files : FileSystem) {r r' : RunResult}
    (h : r.ending = r'.ending) :
    (a.conclude files r).effect = (a.quiet.conclude files r').effect := by
  obtain ⟨hstate, hsteps, htrap⟩ : r.state = r'.state ∧ r.steps = r'.steps ∧ r.trap = r'.trap := by
    simpa [RunResult.ending] using h
  have hreport : r.report = r'.report := by
    rw [RunResult.report, RunResult.report, hstate, hsteps]
  unfold conclude
  rw [hreport, htrap]
  refine effect_deliver a _ ?_
  cases r'.trap <;> rfl

end Arguments

theorem effect_build (files : FileSystem) (a : Arguments) :
    (build files a).effect = (build files a.quiet).effect := by
  have hinput : a.quiet.input = a.input := rfl
  unfold build
  rw [hinput]
  split
  · rfl
  · split
    · rfl
    · exact a.effect_writeImage _ _

theorem effect_disassemble (files : FileSystem) (a : Arguments) :
    (disassemble files a).effect = (disassemble files a.quiet).effect := by
  have hinput : a.quiet.input = a.input := rfl
  have hopen : a.quiet.openOutput files = a.openOutput files := rfl
  unfold disassemble
  rw [hinput, hopen]
  split
  · rfl
  · split
    · rfl
    · split
      · rfl
      · exact a.effect_deliver _ rfl

theorem SourceFile.effect_run (files : FileSystem) (a : Arguments) (source : SourceFile) :
    (source.run files a).map Outcome.effect = (source.run files a.quiet).map Outcome.effect := by
  have hopen : a.quiet.openOutput files = a.openOutput files := rfl
  unfold run
  rw [hopen]
  split
  · rfl
  · split
    · rfl
    · rename_i program _ _ opened _
      have hsettings (settings : Settings) := interpret_ending_of_quiet settings opened.read?
        opened.read? program {}
      -- Both runs end as the one without a trace does.
      have hending :=
        (hsettings (a.settings source)).trans (hsettings (a.quiet.settings source)).symm
      rw [Option.map_map, Option.map_map]
      exact map_eq_map_of_kind (fun r r' => a.effect_conclude opened) hending

theorem effect_run (files : FileSystem) (a : Arguments) :
    (run files a).map Outcome.effect = (run files a.quiet).map Outcome.effect := by
  have hinput : a.quiet.input = a.input := rfl
  have hafter (text : Bytes) : Outcome.effect ∘ Outcome.after text = Outcome.effect := rfl
  unfold run
  rw [hinput]
  split
  · rfl
  · rw [Option.map_map, Option.map_map, hafter, hafter]
    exact SourceFile.effect_run _ _ _

/-! ### Reading arguments -/

/-- An argument is recognised whatever the options are, and changes options that agree but for
notes and trace into such options. -/
theorem Options.recognise_of_quiet {options options' : Options} (h : options.quiet = options'.quiet)
    (arguments : List Bytes) :
    (options.recognise arguments = .unrelated ∧ options'.recognise arguments = .unrelated) ∨
      (options.recognise arguments = .malformed ∧ options'.recognise arguments = .malformed) ∨
      ∃ taken taken' withValue, options.recognise arguments = .taken taken withValue ∧
        options'.recognise arguments = .taken taken' withValue ∧ taken.quiet = taken'.quiet := by
  cases arguments with
  | nil => exact Or.inl ⟨rfl, rfl⟩
  | cons argument rest =>
    simp only [recognise]
    split
    · exact Or.inr (Or.inr ⟨_, _, _, rfl, rfl, h⟩)
    split
    · exact Or.inr (Or.inr ⟨_, _, _, rfl, rfl, h⟩)
    split
    · exact Or.inr (Or.inr ⟨_, _, _, rfl, rfl, h⟩)
    split
    · exact Or.inr (Or.inl ⟨rfl, rfl⟩)
    split
    · split
      · exact Or.inr (Or.inr ⟨_, _, _, rfl, rfl, rfl⟩)
      · exact Or.inr (Or.inl ⟨rfl, rfl⟩)
    · exact Or.inl ⟨rfl, rfl⟩

namespace Arguments

/-- Arguments are read whatever the options are, and options that agree but for notes and trace
become such options. -/
theorem quiet_read {allowRun : Bool} : ∀ {input : Option Bytes} {output : Bytes}
    {options options' : Options}, options.quiet = options'.quiet → ∀ arguments : List Bytes,
    (read allowRun input output options arguments).map quiet =
      (read allowRun input output options' arguments).map quiet
  | none, _, _, _, _, [] => rfl
  | some _, _, _, _, h, [] => by simp [read, Except.map, quiet, h]
  | input, output, options, options', h, argument :: rest => by
    -- What is done with an argument, and how many are left, does not hang on the options.
    unfold read
    split
    · cases rest with
      | nil => rfl
      | cons value rest => exact quiet_read h rest
    split
    · rfl
    rcases Options.recognise_of_quiet h (argument :: rest) with
      ⟨hr, hr'⟩ | ⟨hr, hr'⟩ | ⟨taken, taken', withValue, hr, hr', htaken⟩
    · rw [hr, hr']
      simp only
      split
      · rfl
      split
      · rfl
      · exact quiet_read h rest
    · rw [hr, hr']
    · rw [hr, hr']
      cases withValue with
      | false => exact quiet_read htaken rest
      | true => cases rest with
        | nil => rfl
        | cons _ rest => exact quiet_read htaken rest

theorem read_of_taken {allowRun : Bool} {options taken : Options} {flag : Bytes}
    (houtput : Options.isOutput flag = false) (hrunOnly : (isRunOnly flag && !allowRun) = false)
    {rest : List Bytes} (h : options.recognise (flag :: rest) = .taken taken false)
    (input : Option Bytes) (output : Bytes) :
    read allowRun input output options (flag :: rest) = read allowRun input output taken rest := by
  rw [read.eq_def]
  simp [houtput, hrunOnly, h]

end Arguments

/-! ### Flags -/

/-- The argument asks for a trace. -/
def Options.isTrace (argument : Bytes) : Bool :=
  argument == ascii "--trace" || argument == ascii "--trace=instr" ||
    argument == ascii "--trace=src"

namespace Command

/-- The argument asks the command for notes on its progress or, if it is `run`, for a trace. -/
def observes (command : Command) (argument : Bytes) : Bool :=
  Options.isVerbose argument || (command == run && Options.isTrace argument)

/-- A command leaves the same behind if its options agree but for notes and trace. -/
theorem effect_perform (command : Command) (files : FileSystem) {options options' : Options}
    (h : options.quiet = options'.quiet) (arguments : List Bytes) :
    (command.perform files options arguments).map Outcome.effect =
      (command.perform files options' arguments).map Outcome.effect := by
  have hread : (Arguments.ofList (command == run) options arguments).map Arguments.quiet =
      (Arguments.ofList (command == run) options' arguments).map Arguments.quiet :=
    Arguments.quiet_read h arguments
  unfold perform
  cases ha : Arguments.ofList (command == run) options arguments with
  | error error =>
    rw [ha] at hread
    rw [map_eq_error_iff.mp hread.symm]
  | ok a =>
    rw [ha] at hread
    obtain ⟨a', ha', hquiet⟩ := map_eq_ok_iff.mp hread.symm
    rw [ha']
    cases command with
    | build =>
      simp only [Option.map_some]
      rw [effect_build files a, effect_build files a', hquiet]
    | run =>
      simp only
      rw [effect_run files a, effect_run files a', hquiet]
    | disassemble =>
      simp only [Option.map_some]
      rw [effect_disassemble files a, effect_disassemble files a', hquiet]

/-- A flag that asks for notes or for a trace is read past, and changes the options in that only. -/
theorem read_of_observes {command : Command} {flag : Bytes} (h : command.observes flag = true)
    (options : Options) : ∃ taken : Options, taken.quiet = options.quiet ∧
      ∀ input output rest, Arguments.read (command == run) input output options (flag :: rest) =
        Arguments.read (command == run) input output taken rest := by
  have hflag : (flag = ascii "-v" ∨ flag = ascii "--verbose") ∨ command = run ∧
      (flag = ascii "--trace" ∨ flag = ascii "--trace=instr" ∨ flag = ascii "--trace=src") := by
    simpa [observes, Options.isVerbose, Options.isTrace, or_assoc] using h
  have hrecognised : Options.isOutput flag = false ∧
      (Arguments.isRunOnly flag && !(command == run)) = false ∧
      ∃ taken, (∀ rest, options.recognise (flag :: rest) = .taken taken false) ∧
        taken.quiet = options.quiet := by
    rcases hflag with (rfl | rfl) | ⟨rfl, rfl | rfl | rfl⟩
    all_goals exact ⟨by decide, rfl, _, fun _ => rfl, rfl⟩
  obtain ⟨houtput, hrunOnly, taken, htaken, hquiet⟩ := hrecognised
  exact ⟨taken, hquiet, fun input output rest =>
    Arguments.read_of_taken houtput hrunOnly (htaken rest) input output⟩

theorem effect_perform_append (command : Command) (files : FileSystem) {flags : List Bytes}
    (h : ∀ flag ∈ flags, command.observes flag = true) {options options' : Options}
    (hquiet : options.quiet = options'.quiet) (rest : List Bytes) :
    (command.perform files options (flags ++ rest)).map Outcome.effect =
      (command.perform files options' rest).map Outcome.effect := by
  induction flags generalizing options with
  | nil => exact command.effect_perform files hquiet rest
  | cons flag flags ih =>
    obtain ⟨taken, htaken, hread⟩ := read_of_observes (h flag List.mem_cons_self) options
    have hperform : command.perform files options (flag :: flags ++ rest) =
        command.perform files taken (flags ++ rest) := by
      unfold perform Arguments.ofList
      rw [List.cons_append, hread]
    rw [hperform]
    exact ih (fun flag hflag => h flag (List.mem_cons_of_mem _ hflag)) (htaken.trans hquiet)

end Command

/-! ### Command lines -/

theorem runTool_of_command {front : List Bytes}
    (hfront : ∀ flag ∈ front, Options.isVerbose flag = true) {name : Bytes} {command : Command}
    (hname : Command.ofArgument? name = some command) (files : FileSystem) (given : List Bytes) :
    ∃ options : Options, options.quiet = {} ∧
      runTool files (front ++ name :: given) = command.perform files options given := by
  have hverbose : ¬ Options.isVerbose name = true := by
    intro h
    simp only [Options.isVerbose, Bool.or_eq_true, beq_iff_eq] at h
    rcases h with rfl | rfl
    · cases hname
    · cases hname
  have hdrop : (front ++ name :: given).dropWhile Options.isVerbose = name :: given := by
    rw [List.dropWhile_append_of_pos hfront, List.dropWhile_cons_of_neg hverbose]
  refine ⟨CommandLine.options (front ++ name :: given), rfl, ?_⟩
  rw [← dispatch_of_command hname, runTool, hdrop]
  rfl

/-- **Watching changes nothing.** In front of the name of a command there can be any number of flags
that ask for notes on the progress, and behind it, in front of its other arguments, flags that ask
for such notes or, if the command is `run`, for a trace. With or without them the command line ends
in the same cases, and then with the same exit status, the same text on the standard output and the
same files, whatever the other arguments are. -/
theorem runTool_of_observes {front front' : List Bytes}
    (hfront : ∀ flag ∈ front, Options.isVerbose flag = true)
    (hfront' : ∀ flag ∈ front', Options.isVerbose flag = true)
    {name : Bytes} {command : Command} (hname : Command.ofArgument? name = some command)
    {flags : List Bytes} (hflags : ∀ flag ∈ flags, command.observes flag = true)
    (files : FileSystem) (given : List Bytes) :
    (runTool files (front' ++ name :: (flags ++ given))).map Outcome.effect =
      (runTool files (front ++ name :: given)).map Outcome.effect := by
  obtain ⟨options, hoptions, hrun⟩ := runTool_of_command hfront hname files given
  obtain ⟨options', hoptions', hrun'⟩ := runTool_of_command hfront' hname files (flags ++ given)
  rw [hrun, hrun']
  exact command.effect_perform_append files hflags (hoptions'.trans hoptions.symm) given

/-- A program is run with notes and a trace, and without. -/
theorem runTool_of_observes_of_trace :
    let files : FileSystem := { entries := [([ascii "a.asm"], .file (ascii "halt"))] }
    let given : List Bytes :=
      [ascii "a.asm", ascii "-o", ascii "c", ascii "--max-steps", ascii "9"]
    let line : CommandLine := ascii "run" :: given
    let watched : CommandLine := [ascii "-v", ascii "run", ascii "--trace=src"] ++ given
    ∃ o o', runTool files line = some o ∧ runTool files watched = some o' ∧
      o.effect = o'.effect ∧ o.messages = [] ∧
      o'.messages =
        ascii "note: assembling a.asm\n[trace] a.asm:1: halt\nnote: halted after 1 steps\n" := by
  intro files given line watched
  have hfront : ∀ flag ∈ ([] : List Bytes), Options.isVerbose flag = true := by decide
  have hfront' : ∀ flag ∈ [ascii "-v"], Options.isVerbose flag = true := by decide
  have hname : Command.ofArgument? (ascii "run") = some .run := by decide
  have hflags : ∀ flag ∈ [ascii "--trace=src"], Command.run.observes flag = true := by decide
  have heffect : (runTool files watched).map Outcome.effect =
      (runTool files line).map Outcome.effect :=
    runTool_of_observes hfront hfront' hname hflags files given
  have hmessages : (runTool files line).map Outcome.messages = some [] := by decide
  have hmessages' : (runTool files watched).map Outcome.messages = some
      (ascii "note: assembling a.asm\n[trace] a.asm:1: halt\nnote: halted after 1 steps\n") := by
    decide
  obtain ⟨o, ho, hquiet⟩ := Option.map_eq_some_iff.mp hmessages
  obtain ⟨o', ho', hwatched⟩ := Option.map_eq_some_iff.mp hmessages'
  rw [ho, ho'] at heffect
  exact ⟨o, o', ho, ho', (Option.some.inj heffect).symm, hquiet, hwatched⟩

end RegisterMachine
