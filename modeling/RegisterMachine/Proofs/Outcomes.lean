/-
# A command that fails says so and leaves the files alone

`build` and `disasm` do their work or change nothing
(`Outcome.AllOrNothing`). They open the output when everything that can go wrong
with the input is behind them; for `build` this takes that the words of an
assembled program can always be written (`SourceFile.writable_of_words`).

`run` opens its output when it has a program. From then on the file is going to
hold what the program ends in, also if that is a trap and the exit status is 1
(`result_of_starts`); until then nothing changes (`run_of_not_starts`).

A file that was opened can be filled, and no other file changes
(`FileSystem.exists_rewrite`). So whatever changes is the file of the output
path (`runTool_leaves`).

Key definitions: `Outcome.AllOrNothing`, `Arguments.Starts`, `Request.Leaves`,
`Request.Ends`.
Key theorems: `build_allOrNothing`, `disassemble_allOrNothing`, `run_of_starts`,
`run_of_not_starts`, `result_of_starts`, `runTool_leaves`.
-/
import RegisterMachine.Proofs.Files
import RegisterMachine.Proofs.Loading
import RegisterMachine.Proofs.Readout
import RegisterMachine.Proofs.Requests
import RegisterMachine.Proofs.Stepping

namespace RegisterMachine

open FileSystem (SameBut)

/-! ### Inputs -/

namespace SourceFile

variable {source : SourceFile} {text : Bytes}

theorem ne_nil_of_assemble (h : source.assemble = .error text) : text ≠ [] := by
  unfold assemble at h
  split at h
  · cases h
  · cases h
    exact List.append_ne_nil_of_left_ne_nil (Diagnostic.render_ne_nil _ _) _

theorem ne_nil_of_words (h : source.words = .error text) : text ≠ [] := by
  unfold words at h
  split at h
  · rename_i hassemble
    cases h
    exact ne_nil_of_assemble hassemble
  · split at h
    · cases h
    · cases h
      exact Diagnostic.render_ne_nil _ _

theorem ne_nil_of_program (h : source.program = .error text) : text ≠ [] := by
  unfold program at h
  split at h
  · split at h
    · cases h
    · cases h
      exact Diagnostic.render_ne_nil _ _
  · exact ne_nil_of_assemble h

/-- The words of a source text can be written: there are not too many, and they use 24 bits. -/
theorem writable_of_words {words : List Word} (h : source.words = .ok words) :
    Image.Writable words := by
  unfold SourceFile.words assemble at h
  cases hp : Program.assemble source.file source.content with
  | error rejection =>
    rw [hp] at h
    cases h
  | ok p =>
    obtain ⟨⟨is, hmeans⟩, hlength⟩ := Program.means_of_assemble hp
    simp only [hp, Program.encode_of_means hmeans] at h
    cases h
    exact hmeans.writable hlength

end SourceFile

/-! ### Outputs -/

namespace Arguments

variable {a : Arguments} {files opened : FileSystem}

theorem openOutput_cases (h : a.openOutput files = .ok opened) :
    (a.output = [] ∧ files = opened) ∨
      (a.output ≠ [] ∧ files.write? a.output [] = some opened) := by
  unfold openOutput at h
  split at h
  · rename_i houtput
    exact Or.inl ⟨houtput, Except.ok.inj h⟩
  · rename_i houtput
    split at h
    · rename_i hwrite
      exact Or.inr ⟨houtput, Except.ok.inj h ▸ hwrite⟩
    · cases h

@[simp] theorem deliver_exit (a : Arguments) (text : Bytes) (o : Outcome) :
    (a.deliver text o).exit = o.exit := by
  unfold deliver
  split <;> rfl

@[simp] theorem deliver_messages (a : Arguments) (text : Bytes) (o : Outcome) :
    (a.deliver text o).messages = o.messages := by
  unfold deliver
  split <;> rfl

/-- What is delivered to an open output is in its file, and no other file has changed. -/
theorem files_deliver (h : a.openOutput files = .ok opened) (text : Bytes) {o : Outcome}
    (ho : o.files = opened) : SameBut a.output files (a.deliver text o).files ∧
      (a.output ≠ [] → (a.deliver text o).files.read? a.output = some text) := by
  unfold deliver
  rcases openOutput_cases h with ⟨houtput, rfl⟩ | ⟨houtput, hwrite⟩
  · rw [if_pos houtput, ho]
    exact ⟨SameBut.refl _ _, fun hne => absurd houtput hne⟩
  · obtain ⟨final, hfinal, hread, hsame⟩ := FileSystem.exists_rewrite hwrite text
    rw [if_neg houtput, ho, hfinal]
    exact ⟨hsame, fun _ => hread⟩

end Arguments

/-! ### Building and listing -/

/-- The command has said why it fails and has changed nothing, or it has done its work and has
changed nothing but the file of this path. -/
inductive Outcome.AllOrNothing (files : FileSystem) (path : Bytes) (o : Outcome) : Prop
  | failed {text : Bytes} (htext : text ≠ []) (ho : o = .failure files text)
  | done (hexit : o.exit = 0) (hsame : SameBut path files o.files)

namespace Outcome

variable {files : FileSystem} {path : Bytes} {o : Outcome}

theorem AllOrNothing.refusal (files : FileSystem) (path : Bytes) (d : Diagnostic) :
    (refusal files d).AllOrNothing files path := .failed (Diagnostic.render_ne_nil _ _) rfl

theorem AllOrNothing.explained (h : o.AllOrNothing files path) : o.Explained := by
  cases h with
  | failed htext ho =>
    rw [ho]
    exact explained_failure files htext
  | done hexit _ => exact Or.inl hexit

theorem AllOrNothing.sameBut (h : o.AllOrNothing files path) : SameBut path files o.files := by
  cases h with
  | failed _ ho =>
    rw [ho]
    exact SameBut.refl _ _
  | done _ hsame => exact hsame

theorem AllOrNothing.files_eq (h : o.AllOrNothing files path) (hexit : o.exit = 1) :
    o.files = files := by
  cases h with
  | failed _ ho =>
    rw [ho]
    rfl
  | done hzero _ =>
    rw [hzero] at hexit
    cases hexit

end Outcome

/-- Once it has its words, `build` fails only if it cannot open its output. -/
theorem Arguments.writeImage_allOrNothing (a : Arguments) (files : FileSystem) {words : List Word}
    (h : Image.Writable words) :
    (a.writeImage files words).AllOrNothing files a.bytecodePath := by
  have hbytes : Image.toBytes { code := words } = .ok (Image.layout { code := words }) :=
    Image.toBytes_of_writable h
  unfold writeImage
  simp only [hbytes]
  split
  · exact .refusal _ _ _
  · rename_i opened hopened
    obtain ⟨final, hfinal, -, hsame⟩ :=
      FileSystem.exists_rewrite hopened (Image.layout { code := words })
    rw [hfinal]
    exact .done rfl hsame

theorem build_allOrNothing (files : FileSystem) (a : Arguments) :
    (build files a).AllOrNothing files a.bytecodePath := by
  unfold build
  split
  · exact .refusal _ _ _
  · split
    · rename_i hwords
      exact .failed (SourceFile.ne_nil_of_words hwords) rfl
    · rename_i hwords
      exact a.writeImage_allOrNothing files (SourceFile.writable_of_words hwords)

theorem disassemble_allOrNothing (files : FileSystem) (a : Arguments) :
    (disassemble files a).AllOrNothing files a.output := by
  unfold disassemble
  split
  · exact .refusal _ _ _
  · split
    · exact .refusal _ _ _
    · split
      · exact .refusal _ _ _
      · rename_i hopened
        exact .done (Arguments.deliver_exit _ _ _) (Arguments.files_deliver hopened _ rfl).1

/-! ### Running -/

namespace Arguments

/-- `run` comes to run a program: it has loaded one, and its output is open. -/
structure Starts (a : Arguments) (files : FileSystem) (source : SourceFile) (p : Program)
    (opened : FileSystem) : Prop where
  load : SourceFile.load files a.input = .ok source
  program : source.program = .ok p
  openOutput : a.openOutput files = .ok opened

variable {a : Arguments} {files opened : FileSystem}

theorem exit_conclude (a : Arguments) (files : FileSystem) (result : RunResult) :
    (a.conclude files result).exit = if result.trap.isSome then 1 else 0 := by
  unfold conclude
  cases result.trap <;> simp

theorem explained_conclude (a : Arguments) (files : FileSystem) (result : RunResult) :
    (a.conclude files result).Explained := by
  unfold conclude Outcome.Explained
  cases result.trap with
  | none => simp
  | some trap => simp

theorem files_conclude (h : a.openOutput files = .ok opened) (result : RunResult) :
    SameBut a.output files (a.conclude opened result).files ∧
      (a.output ≠ [] → (a.conclude opened result).files.read? a.output = some result.report) := by
  refine files_deliver h _ ?_
  split <;> rfl

end Arguments

section

variable {files opened : FileSystem} {a : Arguments} {source : SourceFile} {p : Program}

theorem Outcome.Explained.after {o : Outcome} (h : o.Explained) (text : Bytes) :
    (o.after text).Explained := by
  rcases h with hexit | ⟨hexit, hmessages⟩
  · exact Or.inl hexit
  · exact Or.inr ⟨hexit, List.append_ne_nil_of_right_ne_nil _ hmessages⟩

theorem run_of_starts (h : a.Starts files source p opened) : run files a =
    (interpret (a.settings source) opened.read? p).map fun result =>
      (a.conclude opened result).after (a.loadingNote source) := by
  unfold run SourceFile.run
  simp only [h.load, h.program, h.openOutput]
  exact Option.map_map ..

/-- Without a program or an output, `run` fails and changes nothing. -/
theorem run_of_not_starts (h : ∀ source p opened, ¬ a.Starts files source p opened) :
    ∃ text, text ≠ [] ∧ run files a = some (.failure files text) := by
  unfold run
  split
  · exact ⟨_, Diagnostic.render_ne_nil _ _, rfl⟩
  · rename_i source hload
    have hfailure {text : Bytes} (htext : text ≠ []) : a.loadingNote source ++ text ≠ [] :=
      List.append_ne_nil_of_right_ne_nil _ htext
    unfold SourceFile.run
    split
    · rename_i text hprogram
      exact ⟨_, hfailure (SourceFile.ne_nil_of_program hprogram), rfl⟩
    · rename_i p hprogram
      split
      · exact ⟨_, hfailure (Diagnostic.render_ne_nil _ _), rfl⟩
      · rename_i opened hopened
        exact absurd ⟨hload, hprogram, hopened⟩ (h source p opened)

/-- **What `run` leaves behind is what the program ends in**, if the program ends. -/
theorem result_of_starts {o : Outcome} (h : a.Starts files source p opened)
    (ho : run files a = some o) :
    ∃ result, interpret (a.settings source) opened.read? p = some result ∧
      o.exit = (if result.trap.isSome then 1 else 0) ∧ o.Explained ∧
      SameBut a.output files o.files ∧
      (a.output ≠ [] → o.files.read? a.output = some result.report) := by
  rw [run_of_starts h] at ho
  obtain ⟨result, hresult, rfl⟩ := Option.map_eq_some_iff.mp ho
  obtain ⟨hsame, hread⟩ := Arguments.files_conclude h.openOutput result
  exact ⟨result, hresult, a.exit_conclude opened result,
    (a.explained_conclude opened result).after _, hsame, hread⟩

/-- `run` ends if the program does. It fails and changes nothing, or it runs the program. -/
theorem exists_run (hends : ∀ source p opened, a.Starts files source p opened →
      (interpret (a.settings source) opened.read? p).isSome = true) :
    ∃ o, run files a = some o ∧ o.Explained ∧ SameBut a.output files o.files ∧
      (o.files ≠ files → ∃ source p opened, a.Starts files source p opened) := by
  by_cases hstarts : ∃ source p opened, a.Starts files source p opened
  · obtain ⟨source, p, opened, h⟩ := hstarts
    obtain ⟨result, hresult⟩ := Option.isSome_iff_exists.mp (hends source p opened h)
    have ho := run_of_starts h
    rw [hresult, Option.map_some] at ho
    obtain ⟨-, -, -, hexplained, hsame, -⟩ := result_of_starts h ho
    exact ⟨_, ho, hexplained, hsame, fun _ => ⟨source, p, opened, h⟩⟩
  · simp only [not_exists] at hstarts
    obtain ⟨text, htext, ho⟩ := run_of_not_starts hstarts
    exact ⟨_, ho, Outcome.explained_failure files htext, SameBut.refl _ _,
      fun hchanged => absurd rfl hchanged⟩

end

/-! ### The tool -/

/-- What a request leaves of the files. -/
structure Request.Leaves (r : Request) (files : FileSystem) (o : Outcome) : Prop where
  /-- Nothing changes but the file of the output path. -/
  sameBut : SameBut r.outputPath files o.files
  /-- If `build` or `disasm` fails, nothing changes at all. -/
  unchanged : r.command ≠ .run → o.exit = 1 → o.files = files
  /-- If `run` changes something, it has come to run a program. -/
  starts : r.command = .run → o.files ≠ files →
    ∃ source p opened, r.arguments.Starts files source p opened
  /-- If it has, the lines of the output file show what the program has ended in, be it a trap. -/
  result : r.command = .run → ∀ source p opened, r.arguments.Starts files source p opened →
    ∃ result, interpret (r.arguments.settings source) opened.read? p = some result ∧
      o.exit = (if result.trap.isSome then 1 else 0) ∧
      (r.outputPath ≠ [] → ∃ lines,
        o.files.read? r.outputPath = some (lines.flatMap (· ++ [Bytes.newline])) ∧
        result.state.ShownBy result.steps lines)

/-- The program that is to be run, if it comes to that, ends. -/
def Request.Ends (r : Request) (files : FileSystem) : Prop :=
  r.command = .run → ∀ source p opened, r.arguments.Starts files source p opened →
    (interpret (r.arguments.settings source) opened.read? p).isSome = true

theorem Outcome.AllOrNothing.leaves {files : FileSystem} {r : Request} {o : Outcome}
    (h : o.AllOrNothing files r.outputPath) (hrun : r.command ≠ .run) : r.Leaves files o where
  sameBut := h.sameBut
  unchanged _ hexit := h.files_eq hexit
  starts hcommand := absurd hcommand hrun
  result hcommand := absurd hcommand hrun

theorem Request.exists_perform {r : Request} {files : FileSystem} (hends : r.Ends files)
    (hpath : r.outputPath =
      if r.command = .build then r.arguments.bytecodePath else r.arguments.output) :
    ∃ o, r.perform files = some o ∧ o.Explained ∧ r.Leaves files o := by
  unfold perform
  cases hcommand : r.command with
  | build =>
    have h := build_allOrNothing files r.arguments
    rw [hcommand, if_pos rfl] at hpath
    rw [← hpath] at h
    exact ⟨_, rfl, h.explained, h.leaves (by simp [hcommand])⟩
  | disassemble =>
    have h := disassemble_allOrNothing files r.arguments
    rw [hcommand, if_neg (by simp)] at hpath
    rw [← hpath] at h
    exact ⟨_, rfl, h.explained, h.leaves (by simp [hcommand])⟩
  | run =>
    obtain ⟨o, ho, hexplained, hsame, hstarts⟩ := exists_run (hends hcommand)
    rw [hcommand, if_neg (by simp)] at hpath
    refine ⟨o, ho, hexplained, ?_, fun hne => absurd hcommand hne, fun _ => hstarts, ?_⟩
    · rwa [hpath]
    · intro _ source p opened h
      obtain ⟨result, hresult, hexit, -, -, hread⟩ := result_of_starts h ho
      rw [hpath]
      refine ⟨result, hresult, hexit, fun houtput => ⟨result.lines, ?_, result.shownBy_lines⟩⟩
      rw [hread houtput, result.report_eq]

/-- **A command that fails says so and leaves the files alone.** If the program that the command
line asks to run ends, the tool ends. The exit status is 0, or it is 1 and there are messages. If no
command is asked for nothing changes, and else nothing but the file of the output path; that does
not change either if `build` or `disasm` fails, or if `run` has no program to run. A file that `run`
is to write shows the state that the program ends in, also if it ends in a trap. -/
theorem runTool_leaves {files : FileSystem} {line : CommandLine}
    (hends : ∀ r, line.request? = some r → r.Ends files) :
    ∃ o, runTool files line = some o ∧ (o.exit = 0 ∨ o.exit = 1 ∧ o.messages ≠ []) ∧
      (line.request? = none → o.files = files) ∧
      ∀ r, line.request? = some r → r.Leaves files o := by
  cases hrequest : line.request? with
  | none =>
    obtain ⟨o, ho, hfiles, hexplained⟩ := runTool_of_request?_eq_none hrequest files
    exact ⟨o, ho, hexplained, fun _ => hfiles, fun r hr => by cases hr⟩
  | some r =>
    have hpath := CommandLine.outputPath_of_request? hrequest
    obtain ⟨o, ho, hexplained, hleaves⟩ := Request.exists_perform (hends r hrequest) hpath
    rw [runTool_of_request?_eq_some hrequest]
    refine ⟨o, ho, hexplained, fun hnone => (by cases hnone), fun r' hr' => ?_⟩
    cases hr'
    exact hleaves

/-- A program traps behind its only instruction; its state is in the last of two output files. -/
theorem runTool_leaves_of_trap :
    let files : FileSystem := { entries := [([ascii "a.asm"], .file (ascii "addi r1, r0, 7"))] }
    let line : CommandLine :=
      [ascii "-v", ascii "r", ascii "-o", ascii "b", ascii "a.asm", ascii "--max-steps", ascii "9",
        ascii "--output", ascii "c"]
    ∃ o, runTool files line = some o ∧ o.exit = 1 ∧ o.messages ≠ [] ∧
      o.files.read? (ascii "c") = some (
        ascii "pc = 1\nzero = 0\noverflow = 0\nr0 = 0\nr1 = 7\nr2 = 0\nr3 = 0\nr4 = 0\n" ++
        ascii "r5 = 0\nr6 = 0\nr7 = 0\nr8 = 0\nr9 = 0\nr10 = 0\nr11 = 0\nr12 = 0\n" ++
        ascii "r13 = 0\nr14 = 0\nr15 = 0\nsteps = 1\n") ∧
      ∀ place, place ≠ [ascii "c"] → o.files.find? place = files.find? place := by
  intro files line
  let r : Request :=
    { command := .run
      given := [ascii "-o", ascii "b", ascii "a.asm", ascii "--max-steps", ascii "9",
        ascii "--output", ascii "c"]
      arguments :=
        { input := ascii "a.asm", output := ascii "c"
          options := { stepLimit := 9, verbose := true } } }
  let source : SourceFile :=
    { content := ascii "addi r1, r0, 7", registry := { paths := [ascii "a.asm"] }, file := 1 }
  let p : Program :=
    [{ operation := .addi, operands := [.register 1, .register 0, .immediate 7]
       location := { file := 1, line := 1, column := 1 } }]
  let opened : FileSystem := { entries := ([ascii "c"], .file []) :: files.entries }
  let ending : RunResult :=
    { state := { pc := 1, registers := Registers.set {} 1 7, flags := { zero := false } }
      steps := 1
      trap := some
        { kind := .pcOutOfBounds, pc := 1, message := TrapCause.message (.outOfBounds 1) } }
  have hrequest : line.request? = some r := by decide
  have hends : ∀ r', line.request? = some r' → r'.Ends files := by
    intro r' hr' _ source p opened _
    obtain rfl : r = r' := Option.some.inj (hrequest.symm.trans hr')
    rw [interpret, Option.isSome_map]
    have hlimit : (9 : UInt64) ≠ 0 := by decide
    exact Machine.run_isSome_of_limit _ hlimit
  obtain ⟨o, ho, hexplained, -, hleaves⟩ := runTool_leaves hends
  have h := hleaves r hrequest
  have hstarts : r.arguments.Starts files source p opened := ⟨by decide, by decide, by decide⟩
  have hending : interpret (r.arguments.settings source) opened.read? p = some ending := by decide
  obtain ⟨result, hresult, hexit, hread⟩ := h.result rfl source p opened hstarts
  obtain rfl : ending = result := Option.some.inj (hending.symm.trans hresult)
  have hpath : r.outputPath = ascii "c" := by decide
  have hplace : files.locate? (ascii "c") = some [ascii "c"] := by decide
  have hsame := h.sameBut.find?
  rw [hpath] at hread hsame
  obtain ⟨lines, hcontent, hshown⟩ := hread (by decide)
  rw [hshown.lines_eq ending.shownBy_lines] at hcontent
  refine ⟨o, ho, hexit, ?_, hcontent.trans (by decide +kernel), fun place hne => ?_⟩
  · rcases hexplained with hzero | ⟨-, hmessages⟩
    · rw [hexit] at hzero
      cases hzero
    · exact hmessages
  · refine hsame place fun heq => hne ?_
    rw [hplace] at heq
    exact (Option.some.inj heq).symm

end RegisterMachine
