/-
# What assembling adds to a report

A report may hold diagnostics of any severity before a source text is
assembled into it, errors of other texts among them. Assembling finds out
whether the lines of this text have faults by a count of errors, taken before
and after, and looks for the first of them behind the diagnostics that were
there (`Tally.assemble`). All that is added in reading are errors, so the count
moves with the first of them, and this first one is the first that was added:
the procedure with its counts gives what `Report.assemble` gives
(`Tally.assemble_of`). So older errors are neither returned nor taken for new
ones, and what is added depends on the text alone (`Report.assemble_adds`).

Key definitions: `Tally`, `Tally.add`, `Tally.readLines`, `Tally.assemble`,
`Program.refusal`.
Key theorems: `Tally.foldl_add`, `Tally.readLines_of`,
`Tally.firstErrorSince_of_errors`, `Tally.assemble_of`, `Program.refusal_cases`,
`Report.assemble_adds`.
-/
import RegisterMachine.Assembly.Assemble
import RegisterMachine.Proofs.LineByLine

namespace RegisterMachine

/-! ### Reports and their counts -/

namespace Report

@[simp] theorem append_nil (report : Report) : report.append [] = report := by
  rw [append, List.append_nil]

theorem append_append (report : Report) (a b : List Diagnostic) :
    (report.append a).append b = report.append (a ++ b) := by
  rw [append, append, append, List.append_assoc]

theorem count_append (severity : Severity) (report : Report) (more : List Diagnostic) :
    (report.append more).count severity = report.count severity + count severity ⟨more⟩ := by
  rw [count, append, List.filter_append, List.length_append]
  rfl

theorem count_append_of_errors (report : Report) {more : List Diagnostic}
    (h : ∀ d ∈ more, d.severity = .error) :
    (report.append more).count .error = report.count .error + more.length := by
  have hall : more.filter (·.severity = .error) = more :=
    List.filter_eq_self.mpr fun d hd => decide_eq_true (h d hd)
  rw [count_append, count, count, hall]

end Report

/-- A report with the running counts of its errors and warnings. -/
structure Tally where
  report : Report := {}
  errors : Nat := 0
  warnings : Nat := 0
deriving DecidableEq, Repr

namespace Tally

/-- One more diagnostic, which counts if it is an error or a warning. -/
def add (t : Tally) (d : Diagnostic) : Tally :=
  let report := t.report.append [d]
  match d.severity with
  | .error => { t with report, errors := t.errors + 1 }
  | .warning => { t with report, warnings := t.warnings + 1 }
  | .note | .unranked => { t with report }

/-- The report with the counts of what it holds. -/
def of (report : Report) : Tally :=
  { report, errors := report.count .error, warnings := report.count .warning }

/-- The running counts stay the counts of what the report holds. -/
theorem add_of (report : Report) (d : Diagnostic) : (of report).add d = of (report.append [d]) := by
  obtain ⟨severity, message, location⟩ := d
  cases severity <;> simp only [of, add, Report.count_append] <;> rfl

/-- However the diagnostics came in, the counts are those of the report. -/
theorem foldl_add : ∀ (report : Report) (diagnostics : List Diagnostic),
    diagnostics.foldl add (of report) = of (report.append diagnostics)
  | report, [] => by rw [List.foldl_nil, Report.append_nil]
  | report, d :: diagnostics => by
    rw [List.foldl_cons, add_of, foldl_add, Report.append_append, List.singleton_append]

/-- Reads lines behind `program`; each line with a fault adds its diagnostic as soon as it is
read. -/
def readLines (file : UInt32) (program : Program) (t : Tally) (number : Nat) :
    List Bytes → Program × Tally
  | [] => (program, t)
  | line :: rest =>
    let location : Location := { file, line := number.toUInt32 }
    match Statement.ofLine location line with
    | .ok statements => readLines file (program ++ statements) t (number + 1) rest
    | .error fault => readLines file program (t.add (fault.diagnostic location)) (number + 1) rest

theorem readLines_of (file : UInt32) : ∀ (program : Program) (report : Report) (number : Nat)
    (lines : List Bytes), readLines file program (of report) number lines =
      (program ++ (Reading.ofLines file number lines).program,
        of (report.append (Reading.ofLines file number lines).diagnostics))
  | program, report, _, [] => by
    rw [readLines, Reading.ofLines, List.append_nil, Report.append_nil]
  | program, report, number, line :: rest => by
    rw [readLines, Reading.ofLines]
    cases hline : Statement.ofLine { file, line := number.toUInt32 } line with
    | ok statements =>
      simp only
      rw [readLines_of file _ report (number + 1) rest, List.append_assoc]
    | error fault =>
      simp only
      rw [add_of, readLines_of file program _ (number + 1) rest, Report.append_append,
        List.singleton_append]

/-- The first error that was added since `before`, if the count of errors has moved. -/
def firstErrorSince (before after : Tally) : Option Diagnostic :=
  if after.errors = before.errors then none
  else
    (after.report.diagnostics.drop before.report.diagnostics.length).find? (·.severity = .error)

/-- If errors alone were added, the first of them is found, whatever the report held before. -/
theorem firstErrorSince_of_errors (report : Report) {more : List Diagnostic}
    (h : ∀ d ∈ more, d.severity = .error) :
    firstErrorSince (of report) (of (report.append more)) = more.head? := by
  have hcount := Report.count_append_of_errors report h
  have hdrop : (report.append more).diagnostics.drop report.diagnostics.length = more :=
    List.drop_left
  simp only [firstErrorSince, of, hcount, hdrop]
  cases more with
  | nil => exact if_pos rfl
  | cons first others =>
    rw [if_neg (by rw [List.length_cons]; omega), List.find?_cons_of_pos (by simp [h first]),
      List.head?_cons]

/-- Assembles a source text into a report with counts. If the count of errors has moved when the
lines are read, the first new error is returned; else the program is linked. -/
def assemble (before : Tally) (file : UInt32) (source : Bytes) :
    Except Diagnostic Program × Tally :=
  let (program, read) := readLines file [] before 1 source.lines
  match firstErrorSince before read with
  | some d => (.error d, read)
  | none =>
    match program.link with
    | .ok linked => (.ok linked, read)
    | .error fault => (.error fault.diagnostic, read.add fault.diagnostic)

/-- **The count of errors and the search for the first one give what assembling gives**, whatever
the report holds. -/
theorem assemble_of (report : Report) (file : UInt32) (source : Bytes) :
    (of report).assemble file source =
      ((report.assemble file source).1, of (report.assemble file source).2) := by
  have herrors := Reading.severity_of_mem_ofLines file 1 source.lines
  have hread := readLines_of file [] report 1 source.lines
  rw [List.nil_append, ← Reading.ofSource] at hread
  rw [← Reading.ofSource] at herrors
  simp only [assemble, hread, firstErrorSince_of_errors report herrors, Report.assemble,
    Program.assemble]
  cases (Reading.ofSource file source).diagnostics with
  | cons first others => rfl
  | nil =>
    cases (Reading.ofSource file source).program.link with
    | ok linked => simp
    | error fault => simp [add_of, Rejection.diagnostics]

end Tally

/-! ### What is added -/

namespace Reading

theorem diagnostics_ofLines (file : UInt32) : ∀ (number : Nat) (lines : List Bytes),
    (ofLines file number lines).diagnostics = (lines.zipIdx number).flatMap fun line =>
      (ofLine { file, line := line.2.toUInt32 } line.1).diagnostics
  | _, [] => rfl
  | number, line :: rest => by
    rw [ofLines_cons, append, diagnostics_ofLines file (number + 1) rest, List.zipIdx_cons,
      List.flatMap_cons]

end Reading

namespace Program

/-- The diagnostics that a source text is refused with, and none for one that is not. -/
def refusal (file : UInt32) (source : Bytes) : List Diagnostic :=
  match assemble file source with
  | .ok _ => []
  | .error rejection => rejection.diagnostics

/-- A text with malformed lines is refused with the diagnostics of these lines, and another one
with the one fault of its labels, if there is one. -/
theorem refusal_cases (file : UInt32) (source : Bytes) :
    let read := Reading.ofSource file source
    read.diagnostics ≠ [] ∧ refusal file source = read.diagnostics ∨
      read.diagnostics = [] ∧
        ((∃ linked, read.program.link = .ok linked) ∧ refusal file source = [] ∨
          ∃ fault, read.program.link = .error fault ∧
            refusal file source = [fault.diagnostic]) := by
  simp only [refusal, assemble]
  cases (Reading.ofSource file source).diagnostics with
  | cons first others => exact Or.inl ⟨List.cons_ne_nil _ _, rfl⟩
  | nil =>
    refine Or.inr ⟨rfl, ?_⟩
    cases (Reading.ofSource file source).program.link with
    | ok linked => exact Or.inl ⟨⟨linked, rfl⟩, rfl⟩
    | error fault => exact Or.inr ⟨fault, rfl, rfl⟩

theorem severity_of_mem_refusal {file : UInt32} {source : Bytes} {d : Diagnostic}
    (h : d ∈ refusal file source) : d.severity = .error := by
  rcases refusal_cases file source with ⟨-, heq⟩ | ⟨-, ⟨-, heq⟩ | ⟨fault, -, heq⟩⟩
  · rw [heq] at h
    exact Reading.severity_of_mem_ofLines file 1 source.lines d h
  · rw [heq] at h
    cases h
  · rw [heq] at h
    rw [List.mem_singleton.mp h]
    rfl

end Program

namespace Report

/-- Assembling adds what the text is refused with, and returns the first of it or a program. -/
theorem assemble_refusal (report : Report) (file : UInt32) (source : Bytes) :
    let outcome := report.assemble file source
    let new := Program.refusal file source
    outcome.2 = report.append new ∧ ((∃ program, outcome.1 = .ok program) ↔ new = []) ∧
      ∀ d, outcome.1 = .error d ↔ new.head? = some d := by
  simp only [assemble, Program.refusal]
  cases Program.assemble file source with
  | ok program => simp
  | error rejection => simp [Rejection.diagnostics]

/-- **What assembling adds to a report depends on the text alone, and decides how it ends.** It adds
the errors of all the malformed lines, one for each; or, if there is no such line, one error of the
labels or none. What the report holds stays in front of them. There is a program if nothing was
added, and else the first diagnostic that was added. The same comes about if the new errors are
found by running counts, as they stand when the report has come in diagnostic by diagnostic. -/
theorem assemble_adds (file : UInt32) (source : Bytes) :
    let read := Reading.ofSource file source
    let malformed := source.lines.countP Statement.isMalformed
    ∃ new : List Diagnostic,
      (∀ d ∈ new, d.severity = .error) ∧
      (0 < malformed ∧ new.length = malformed ∧
          new = ((source.lines.zipIdx 1).flatMap fun line =>
            (Reading.ofLine { file, line := line.2.toUInt32 } line.1).diagnostics) ∨
        malformed = 0 ∧ ((∃ linked, read.program.link = .ok linked) ∧ new = [] ∨
          ∃ fault, read.program.link = .error fault ∧ new = [fault.diagnostic])) ∧
      ∀ report : Report,
        let outcome := report.assemble file source
        let before := report.diagnostics.foldl Tally.add {}
        let tallied := before.assemble file source
        outcome.2.diagnostics = report.diagnostics ++ new ∧
          ((∃ program, outcome.1 = .ok program) ↔ new = []) ∧
          (∀ d, outcome.1 = .error d ↔ new.head? = some d) ∧
          outcome.2.count .error = report.count .error + new.length ∧
          tallied.1 = outcome.1 ∧ tallied.2.report = outcome.2 ∧
          tallied.2.errors = before.errors + new.length := by
  intro read malformed
  have herrors : ∀ d ∈ Program.refusal file source, d.severity = .error := fun d hd =>
    Program.severity_of_mem_refusal hd
  have hlength : read.diagnostics.length = malformed :=
    Reading.length_diagnostics_ofLines file 1 source.lines
  have hlines := Reading.diagnostics_ofLines file 1 source.lines
  refine ⟨Program.refusal file source, herrors, ?_, fun report => ?_⟩
  · rcases Program.refusal_cases file source with ⟨hne, heq⟩ | ⟨hnil, hlink⟩
    · refine Or.inl ⟨hlength ▸ List.length_pos_iff.mpr hne, ?_, ?_⟩
      · rw [heq, hlength]
      · rw [heq, ← hlines, Reading.ofSource]
    · refine Or.inr ⟨?_, hlink⟩
      rw [← hlength, hnil, List.length_nil]
  · intro outcome before tallied
    obtain ⟨hadded, hok, herror⟩ := assemble_refusal report file source
    have hbefore : before = Tally.of report := Tally.foldl_add {} report.diagnostics
    have htallied : tallied = (outcome.1, Tally.of outcome.2) :=
      (congrArg (Tally.assemble · file source) hbefore).trans (Tally.assemble_of report file source)
    have hcount : outcome.2.count .error =
        report.count .error + (Program.refusal file source).length :=
      (congrArg (count .error) hadded).trans (count_append_of_errors report herrors)
    rw [htallied, hbefore]
    exact ⟨congrArg diagnostics hadded, hok, herror, hcount, rfl, rfl, hcount⟩

/-- An older error is neither returned nor counted again. -/
example :
    let report : Report :=
      { diagnostics := [.error (ascii "old"), { severity := .unranked, message := [] }] }
    let fault : LineFault := { error := .unknownInstruction (ascii "foo"), column := 3 }
    let outcome := report.assemble 1 (ascii "  foo\n  halt\n  bar\n")
    outcome.1 = .error (fault.diagnostic { file := 1, line := 1 }) ∧
      outcome.2.count .error = 3 := by
  decide

end Report
end RegisterMachine
