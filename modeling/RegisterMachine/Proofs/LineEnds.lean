/-
# How lines end makes no difference

A line ends with a newline, and a carriage return in front of the newline
belongs to its end. So a text without carriage returns can be given one in front
of each newline (`Bytes.withReturns`), and it is still the same text to the
assembler and to a trace. Each of them takes the return off where it cuts the
text into lines, one as a source text and the other as a file, and finds the
lines that it has found before (`Bytes.lines_withReturns`,
`Bytes.fileLines_withReturns`).

A text is cut from its front, one line at a time, so what is said of its lines is
proved by induction on them (`Bytes.line_induction`). The assembler uses nothing
of a text but its lines. A machine sees of a file nothing but its lines, so it
takes the same course with all readers that find the same lines
(`Machine.serve_of_sameLines`).

Key definitions: `Bytes.withReturns`, `Reader.SameLines`, `Reader.holding`.
Key theorems: `Bytes.line_induction`, `Bytes.lines_withReturns`,
`Bytes.fileLines_withReturns`, `Machine.step_of_sameLines`,
`Machine.serve_of_sameLines`, `Program.assemble_trace_withReturns`.
-/
import RegisterMachine.Proofs.Lifecycle
import RegisterMachine.Proofs.LineByLine

namespace RegisterMachine

/-! ### Texts with carriage returns -/

namespace Bytes

/-- The text with a carriage return in front of each newline. -/
def withReturns (text : Bytes) : Bytes :=
  text.flatMap fun b => if b = newline then [carriageReturn, newline] else [b]

/-- What holds of a text that is one line, and goes over to a text with one more line in front,
holds of every text. -/
theorem line_induction {P : Bytes → Prop} (last : ∀ line, newline ∉ line → P line)
    (cons : ∀ line rest, newline ∉ line → P rest → P (line ++ newline :: rest)) (text : Bytes) :
    P text := by
  by_cases h : newline ∈ text
  · obtain ⟨line, rest, rfl, hline⟩ := List.eq_append_cons_of_mem h
    exact cons line rest hline (line_induction last cons rest)
  · exact last text h
termination_by text.length

theorem withReturns_of_not_mem {line : Bytes} (h : newline ∉ line) : withReturns line = line := by
  have hsame : ∀ b ∈ line, (if b = newline then [carriageReturn, newline] else [b]) = [b] := by
    intro b hb
    refine if_neg ?_
    rintro rfl
    exact h hb
  rw [withReturns, List.flatMap_congr hsame, List.flatMap_singleton']

theorem withReturns_append_newline {line : Bytes} (h : newline ∉ line) (rest : Bytes) :
    withReturns (line ++ newline :: rest) =
      (line ++ [carriageReturn]) ++ newline :: withReturns rest := by
  have hline := withReturns_of_not_mem h
  rw [withReturns] at hline
  rw [withReturns, List.flatMap_append, hline, List.flatMap_cons, if_pos rfl, List.append_assoc]
  rfl

theorem withoutReturn_of_not_mem {line : Bytes} (h : carriageReturn ∉ line) :
    withoutReturn line = line := if_neg fun hlast => h (List.mem_of_getLast? hlast)

theorem withoutReturn_concat (line : Bytes) : withoutReturn (line ++ [carriageReturn]) = line := by
  rw [withoutReturn, if_pos List.getLast?_concat, List.dropLast_concat]

theorem fileLines_append (a b : Bytes) :
    fileLines (a ++ newline :: b) = lines a ++ fileLines b := by
  have hne : b.splitOn newline ≠ [] := List.splitOn_ne_nil newline b
  simp only [fileLines, List.splitOn_append_cons_self, List.getLast?_append_of_ne_nil _ hne,
    List.dropLast_append_of_ne_nil hne]
  split <;> rw [List.map_append, lines]

theorem lines_concat_return {line : Bytes} (hnewline : newline ∉ line)
    (hreturn : carriageReturn ∉ line) : lines (line ++ [carriageReturn]) = lines line := by
  have hmem : newline ∉ line ++ [carriageReturn] := by
    rw [List.mem_append, not_or]
    exact ⟨hnewline, by decide⟩
  rw [lines_of_not_mem hmem, withoutReturn_concat, lines_of_not_mem hnewline,
    withoutReturn_of_not_mem hreturn]

/-- **The lines of a source text do not show how they end.** -/
theorem lines_withReturns {text : Bytes} (h : carriageReturn ∉ text) :
    lines (withReturns text) = lines text := by
  induction text using line_induction with
  | last line hline => rw [withReturns_of_not_mem hline]
  | cons line rest hline ih =>
    rw [List.mem_append, List.mem_cons, not_or, not_or] at h
    rw [withReturns_append_newline hline, lines_append, lines_append,
      lines_concat_return hline h.1, ih h.2.2]

/-- **The lines of a file do not show how they end.** -/
theorem fileLines_withReturns {text : Bytes} (h : carriageReturn ∉ text) :
    fileLines (withReturns text) = fileLines text := by
  induction text using line_induction with
  | last line hline => rw [withReturns_of_not_mem hline]
  | cons line rest hline ih =>
    rw [List.mem_append, List.mem_cons, not_or, not_or] at h
    rw [withReturns_append_newline hline, fileLines_append, fileLines_append,
      lines_concat_return hline h.1, ih h.2.2]

end Bytes

/-! ### Files with the same lines -/

namespace Reader

/-- Both readers can read the same files, and find the same lines in them. -/
def SameLines (read other : Reader) : Prop :=
  ∀ path, (read path).map Bytes.fileLines = (other path).map Bytes.fileLines

/-- The reader that finds this text in one file, and in all others what `read` finds there. -/
def holding (path text : Bytes) (read : Reader) : Reader :=
  fun other => if other = path then some text else read other

theorem sameLines_holding {text other : Bytes} (h : text.fileLines = other.fileLines)
    (path : Bytes) (read : Reader) :
    (read.holding path text).SameLines (read.holding path other) := by
  intro place
  unfold holding
  split
  · rw [Option.map_some, Option.map_some, h]
  · rfl

end Reader

section

variable {read other : Reader} (h : read.SameLines other)
include h

theorem SourceCache.look_of_sameLines (cache : SourceCache) (file : UInt32) (path : Bytes) :
    cache.look read file path = cache.look other file path := by
  rw [look, look, h path]

theorem Trace.ofStatement_of_sameLines (mode : TraceMode) (registry : Option Registry)
    (cache : SourceCache) (pc : UInt16) (s : Statement) :
    ofStatement mode registry read cache pc s = ofStatement mode registry other cache pc s := by
  simp only [ofStatement, SourceCache.look_of_sameLines h]

namespace Machine

/-- **A step does not show how the lines of a file end.** -/
theorem step_of_sameLines (m : Machine) : m.step read = m.step other := by
  simp only [step, traced, Trace.ofStatement_of_sameLines h]

theorem runFor_of_sameLines (fuel : Nat) (m : Machine) :
    m.runFor read fuel = m.runFor other fuel := by
  induction fuel generalizing m with
  | zero => rfl
  | succ fuel ih => rw [runFor, runFor, step_of_sameLines h, ih]

theorem answer_of_sameLines (m : Machine) (call : Call) :
    m.answer read call = m.answer other call := by
  cases call with
  | load program initial => rfl
  | step => exact congrArg some (step_of_sameLines h m)
  | run => exact runFor_of_sameLines h m.enough m

end Machine

end

/-- Calls are answered alike, in the trace and in all else, if the files have the same lines while
each of them is answered. -/
theorem Machine.serve_of_sameLines {calls calls' : List (Reader × Call)}
    (h : List.Forall₂ (fun c c' => c.1.SameLines c'.1 ∧ c.2 = c'.2) calls calls') (m : Machine) :
    m.serve calls = m.serve calls' := by
  induction h generalizing m with
  | nil => rfl
  | @cons c c' calls calls' hc _ ih =>
    obtain ⟨read, call⟩ := c
    obtain ⟨other, call'⟩ := c'
    obtain ⟨hlines, rfl⟩ : read.SameLines other ∧ call = call' := hc
    rw [serve, serve, answer_of_sameLines hlines]
    exact congrArg _ (funext ih)

/-! ### Programs and their traces -/

namespace Program

/-- **How the lines of a text end makes no difference.** With a carriage return in front of each
newline, a text without carriage returns is assembled to the same program or refused with the same
diagnostics, all at the same places. And if it is what a source file holds, machines trace the same
of it and do the same, whatever they are asked for and whatever other files hold. -/
theorem assemble_trace_withReturns {source : Bytes} (h : Bytes.carriageReturn ∉ source) :
    (∀ file, assemble file source.withReturns = assemble file source) ∧
    (∀ (report : Report) (file : UInt32),
      report.assemble file source.withReturns = report.assemble file source) ∧
    (∀ (path : Bytes) (m : Machine) (calls : List (Reader × Call)),
      m.serve (calls.map fun c => (c.1.holding path source.withReturns, c.2)) =
        m.serve (calls.map fun c => (c.1.holding path source, c.2))) ∧
    ∀ (path : Bytes) (settings : Settings) (read : Reader) (program : Program) (initial : State),
      interpret settings (read.holding path source.withReturns) program initial =
        interpret settings (read.holding path source) program initial := by
  have hreading (file : UInt32) :
      Reading.ofSource file source.withReturns = Reading.ofSource file source := by
    rw [Reading.ofSource, Reading.ofSource, Bytes.lines_withReturns h]
  have hassemble (file : UInt32) : assemble file source.withReturns = assemble file source := by
    rw [assemble, assemble, hreading]
  have hlines (path : Bytes) (read : Reader) :
      (read.holding path source.withReturns).SameLines (read.holding path source) :=
    Reader.sameLines_holding (Bytes.fileLines_withReturns h) path read
  refine ⟨hassemble, fun report file => ?_, fun path m calls => ?_,
    fun path settings read program initial => ?_⟩
  · rw [Report.assemble, Report.assemble, hassemble]
  · apply Machine.serve_of_sameLines
    rw [List.forall₂_map_left_iff, List.forall₂_map_right_iff, List.forall₂_same]
    exact fun c _ => ⟨hlines path c.1, rfl⟩
  · rw [interpret, interpret, Machine.run, Machine.run,
      Machine.runFor_of_sameLines (hlines path read)]

/-- A text with a comment, an empty line, a tab and a last line without an end, and one that ends a
line behind a comma. -/
theorem assemble_trace_withReturns_of_comma :
    let source := ascii "start: ; loop\n\n\tbz start\n halt"
    let returned := ascii "start: ; loop\r\n\r\n\tbz start\r\n halt"
    let faulty := ascii "mv r1,\n\nfoo\n"
    let p : Program :=
      [{ operation := .bz, operands := [.address 0]
         location := { file := 1, line := 3, column := 2 } },
        { operation := .halt, location := { file := 1, line := 4, column := 2 } }]
    let registry : Registry := { paths := [ascii "a.asm"] }
    let settings : Settings := { mode := .source, registry := some registry, stepLimit := 2 }
    let read : Reader := fun _ => none
    Bytes.carriageReturn ∉ source ∧ source.withReturns = returned ∧
      assemble 1 returned = .ok p ∧
      (interpret settings (read.holding (ascii "a.asm") returned) p
        { flags := { zero := false } }).map RunResult.trace =
          some (ascii "[trace] a.asm:3: bz start\n[trace] a.asm:4: halt\n") ∧
      Bytes.carriageReturn ∉ faulty ∧
      assemble 1 faulty.withReturns = .error {
        first := .error (ascii "expected operand") { file := 1, line := 1, column := 7 }
        others := [.error (ascii "unknown instruction 'foo'")
          { file := 1, line := 3, column := 1 }] } := by
  intro source returned faulty p registry settings read
  have hsource : Bytes.carriageReturn ∉ source := by decide
  have hfaulty : Bytes.carriageReturn ∉ faulty := by decide
  have hreturned : source.withReturns = returned := by decide
  obtain ⟨hassemble, -, -, htrace⟩ := assemble_trace_withReturns hsource
  refine ⟨hsource, hreturned, ?_, ?_, hfaulty, ?_⟩
  · rw [← hreturned, hassemble]
    decide
  · rw [← hreturned, htrace]
    decide
  · rw [(assemble_trace_withReturns hfaulty).1]
    decide

end Program
end RegisterMachine
