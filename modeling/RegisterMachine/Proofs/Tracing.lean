/-
# A trace shows the lines that were assembled

The assembler cuts a text into lines in one way, the trace of a machine cuts the
file into lines in another, and both count from 1. For an assembled program
whose file holds the text they agree: every step that carries out an
instruction adds one line to the trace, and what that line shows is the line of
the text that the instruction was read from.

A file is looked at once, at the first step that shows it. What has to be kept
from step to step is therefore that the machine holds the lines of the text for
the file, or nothing yet (`Machine.Watches`); it is kept by every step of every
program as long as the file holds the text (`Machine.Watches.step`).

Key definitions: `SourceCache.Agrees`, `Machine.Watches`, `Machine.afterEach`.
Key theorems: `SourceCache.Agrees.look`, `Machine.Watches.step`,
`Machine.Watches.trace_step`, `Machine.Watches.afterEach`,
`Program.trace_step_of_assemble`.
-/
import RegisterMachine.Proofs.Origins
import RegisterMachine.Proofs.Runs

namespace RegisterMachine

/-! ### Looking at files -/

namespace SourceCache

variable {cache : SourceCache} {file : UInt32} {text : Bytes}

/-- The file was seen with this text, or was not looked at. -/
def Agrees (cache : SourceCache) (file : UInt32) (text : Bytes) : Prop :=
  ∀ lines, cache.lookup file = some lines → lines = text.fileLines.toArray

/-- A file that holds the text is seen as the lines of the text, now and later. -/
theorem Agrees.look {read : Reader} {path : Bytes} (h : cache.Agrees file text)
    (hread : read path = some text) :
    (cache.look read file path).1 = text.fileLines.toArray ∧
      (cache.look read file path).2.lookup file = some text.fileLines.toArray := by
  unfold SourceCache.look
  cases hlookup : cache.lookup file with
  | none => simp [hread]
  | some lines =>
    have heq := h lines hlookup
    exact ⟨heq, by rw [hlookup, heq]⟩

theorem lookup_look_of_ne {other : UInt32} (hne : file ≠ other) (read : Reader) (path : Bytes) :
    (cache.look read other path).2.lookup file = cache.lookup file := by
  unfold look
  split
  · rfl
  · simp [List.lookup_cons, beq_false_of_ne hne]

end SourceCache

namespace Trace

theorem sourceLine_eq {path text : Bytes} {lines : Array Bytes} {number : UInt32} {k : Nat}
    (hnumber : number.toNat = k + 1) (htext : lines[k]? = some text) :
    sourceLine path lines number = tag ++ path ++ ascii ":" ++ Numeral.decimal (k + 1) ++
      ascii ": " ++ unindented text ++ [Bytes.newline] := by
  have hne : number ≠ 0 := by
    rintro rfl
    cases hnumber
  have hget : lines.getD (number.toNat - 1) [] = text := by
    rw [hnumber, Nat.add_sub_cancel, Array.getD_eq_getD_getElem?, htext, Option.getD_some]
  unfold sourceLine
  rw [if_neg hne, hget, hnumber]
  simp only [List.append_assoc]

theorem sourceLine_ne_nil (path : Bytes) (lines : Array Bytes) (number : UInt32) :
    sourceLine path lines number ≠ [] := by
  unfold sourceLine
  exact List.append_ne_nil_of_right_ne_nil _ (List.cons_ne_nil _ _)

/-- What is traced of a statement if source lines are depends on whether its file has a path. -/
theorem ofStatement_source (registry : Registry) (read : Reader) (cache : SourceCache)
    (pc : UInt16) (s : Statement) : ofStatement .source (some registry) read cache pc s =
      let path := registry.path s.location.file
      if path = [] then (statementLine pc s, cache)
      else
        let (lines, cache) := cache.look read s.location.file path
        (sourceLine path lines s.location.line, cache) := by
  simp [ofStatement, sourcePath]

end Trace

namespace Machine

@[simp] theorem carryOut_sources (m : Machine) (s : Statement) :
    (m.carryOut s).sources = m.sources := by
  unfold carryOut
  simp only
  split <;> rfl

@[simp] theorem carryOut_trace (m : Machine) (s : Statement) :
    (m.carryOut s).trace = m.trace := by
  unfold carryOut
  simp only
  split <;> rfl

/-! ### Machines that show a text -/

/-- The machine traces source lines, and has seen the file with this text if it has seen it. -/
structure Watches (m : Machine) (registry : Registry) (file : UInt32) (text : Bytes) : Prop where
  mode : m.settings.mode = .source
  registry : m.settings.registry = some registry
  sources : m.sources.Agrees file text

namespace Watches

variable {m : Machine} {registry : Registry} {file : UInt32} {text : Bytes}

theorem load (h : m.Watches registry file text) (program : Program) (initial : State) :
    (m.load program initial).Watches registry file text := ⟨h.mode, h.registry, h.sources⟩

/-- While its file holds the text, a statement shows a line of the text. -/
theorem traced_eq (h : m.Watches registry file text) {read : Reader} {s : Statement}
    (hfile : s.location.file = file) (hpath : registry.path file ≠ [])
    (hread : read (registry.path file) = some text) :
    (m.traced read s).trace = Trace.sourceLine (registry.path file) text.fileLines.toArray
        s.location.line :: m.trace ∧
      (m.traced read s).sources.lookup file = some text.fileLines.toArray := by
  obtain ⟨hlines, hsources⟩ := h.sources.look hread
  unfold traced
  rw [h.mode, h.registry, Trace.ofStatement_source, hfile]
  simp [hpath, hlines, hsources, Trace.sourceLine_ne_nil]

theorem traced (h : m.Watches registry file text) {read : Reader}
    (hread : read (registry.path file) = some text) (s : Statement) :
    (m.traced read s).Watches registry file text := by
  refine ⟨h.mode, h.registry, ?_⟩
  unfold Machine.traced
  rw [h.mode, h.registry, Trace.ofStatement_source]
  by_cases hpath : registry.path s.location.file = []
  · simp only [hpath, if_true]
    exact h.sources
  · simp only [hpath, if_false]
    intro lines hlines
    by_cases hfile : s.location.file = file
    · rw [hfile, (h.sources.look hread).2] at hlines
      exact (Option.some.inj hlines).symm
    · rw [SourceCache.lookup_look_of_ne (Ne.symm hfile)] at hlines
      exact h.sources lines hlines

theorem step (h : m.Watches registry file text) {read : Reader}
    (hread : read (registry.path file) = some text) :
    (m.step read).Watches registry file text := by
  rcases m.step_cases read with ⟨-, hstep⟩ | ⟨-, cause, -, hstep⟩ | ⟨-, s, -, hstep⟩
  · rwa [hstep]
  · rw [hstep]
    exact ⟨h.mode, h.registry, h.sources⟩
  · have htraced := h.traced hread s
    rw [hstep]
    exact ⟨by rw [carryOut_settings]; exact htraced.mode,
      by rw [carryOut_settings]; exact htraced.registry,
      by rw [carryOut_sources]; exact htraced.sources⟩

/-- A step that carries out a statement of the file traces one line, and has seen the file then. -/
theorem trace_step (h : m.Watches registry file text) {read : Reader} {s : Statement}
    (hfile : s.location.file = file) (hpath : registry.path file ≠ [])
    (hread : read (registry.path file) = some text) (hgoing : m.status.isStopped = false)
    (hfetch : m.fetch = .ok s) :
    (m.step read).trace = Trace.sourceLine (registry.path file) text.fileLines.toArray
        s.location.line :: m.trace ∧
      (m.step read).sources.lookup file = some text.fileLines.toArray := by
  have hstep : m.step read = (m.traced read s).carryOut s := by
    rw [Machine.step, if_neg (by simp [hgoing]), hfetch]
  rw [hstep, carryOut_trace, carryOut_sources]
  exact h.traced_eq hfile hpath hread

end Watches

/-! ### Runs while files change -/

/-- The machine after one step for each reader; the files may change between the steps. -/
def afterEach (m : Machine) (readers : List Reader) : Machine :=
  readers.foldl (fun m read => m.step read) m

theorem afterEach_replicate (m : Machine) (read : Reader) (k : Nat) :
    m.afterEach (List.replicate k read) = m.after read k := by
  induction k generalizing m with
  | zero => rfl
  | succ k ih => exact ih (m.step read)

theorem afterEach_program (m : Machine) (readers : List Reader) :
    (m.afterEach readers).program = m.program := by
  induction readers generalizing m with
  | nil => rfl
  | cons read readers ih => exact (ih (m.step read)).trans (step_fixed read m).2

/-- What the machine has seen stays so, as long as the file holds the text. -/
theorem Watches.afterEach {m : Machine} {registry : Registry} {file : UInt32} {text : Bytes}
    {readers : List Reader} (h : m.Watches registry file text)
    (hreaders : ∀ read ∈ readers, read (registry.path file) = some text) :
    (m.afterEach readers).Watches registry file text := by
  induction readers generalizing m with
  | nil => exact h
  | cons read readers ih =>
    have hstep := h.step (hreaders read List.mem_cons_self)
    exact ih hstep fun later hlater => hreaders later (List.mem_cons_of_mem _ hlater)

end Machine

namespace Program

/-- **A trace shows the lines that the instructions were read from.** The machine runs an assembled
program and traces source lines; the file of the program has a path and holds the text at every
step. Then a step that carries out an instruction adds to the trace one line, with the path, the
number of the instruction's line and that line of the text without its indentation. The number is
within the lines the machine has seen of the file, and the instruction was read from that line, as
the assembler has cut it out of the text. -/
theorem trace_step_of_assemble {file : UInt32} {source : Bytes} {p : Program}
    (hp : assemble file source = .ok p) (hlines : source.lines.length < 2 ^ 32)
    {registry : Registry} (hpath : registry.path file ≠ []) {m₀ : Machine}
    (hm₀ : m₀.Watches registry file source) (initial : State) (readers : List Reader)
    (read : Reader) (hreaders : ∀ r ∈ readers, r (registry.path file) = some source)
    (hread : read (registry.path file) = some source) :
    let m := (m₀.load p initial).afterEach readers
    m.status.isStopped = false → ∀ s, m.fetch = .ok s →
      ∃ k line t seen, s.location.line.toNat = k + 1 ∧ source.lines[k]? = some line ∧
        Statement.ReadFrom file (k + 1) line t ∧
        s = t.linked (Reading.ofSource file source).program ∧
        (m.step read).sources.lookup file = some seen ∧ seen[k]? = some line ∧
        Bytes.newline ∉ line ∧
        (m.step read).trace = (Trace.tag ++ registry.path file ++ ascii ":" ++
          Numeral.decimal (k + 1) ++ ascii ": " ++ Trace.unindented line ++ [Bytes.newline]) ::
            m.trace := by
  intro m hgoing s hfetch
  have hwatches : m.Watches registry file source := (hm₀.load p initial).afterEach hreaders
  have hmem : s ∈ p := by
    have hprogram : m.program = p.toArray := (m₀.load p initial).afterEach_program readers
    have hget := (Machine.fetch_eq_ok hfetch).1
    rw [hprogram, List.getElem?_toArray] at hget
    exact List.mem_of_getElem? hget
  obtain ⟨k, line, t, hline, ht, hlinked, hfile, hnumber⟩ :=
    exists_readFrom_of_assemble hp hlines s hmem
  obtain ⟨htrace, hseen⟩ := hwatches.trace_step hfile hpath hread hgoing hfetch
  have hget : source.fileLines.toArray[k]? = some line := by
    rw [List.getElem?_toArray]
    exact Bytes.getElem?_fileLines hline ht.line_ne_nil
  have hnewline := Bytes.newline_not_mem_of_mem_lines (List.mem_of_getElem? hline)
  refine ⟨k, line, t, _, hnumber, hline, ht, hlinked, hseen, hget, hnewline, ?_⟩
  rw [htrace, Trace.sourceLine_eq hnumber hget]

/-- The second step of a program with an empty line, an indented line, a line that ends with a
carriage return, and a last line without an end. -/
theorem trace_step_of_assemble_of_indented :
    let source := ascii "start:\n\n \tnop\r\nend: jmp end"
    let p : Program :=
      [{ operation := .nop, location := { file := 1, line := 3, column := 3 } },
        { operation := .jmp, operands := [.address 1]
          location := { file := 1, line := 4, column := 6 } }]
    let registry : Registry := { paths := [ascii "a.asm"] }
    let read : Reader := fun path => if path = ascii "a.asm" then some source else none
    let m₀ : Machine := { settings := { mode := .source, registry := some registry } }
    let m := (m₀.load p).afterEach [read]
    Program.assemble 1 source = .ok p ∧ m₀.Watches registry 1 source ∧
      m.fetch = .ok p[1] ∧ m.trace = [ascii "[trace] a.asm:3: nop\n"] ∧
      (m.step read).trace = [ascii "[trace] a.asm:4: end: jmp end\n",
        ascii "[trace] a.asm:3: nop\n"] := by
  intro source p registry read m₀ m
  have hp : Program.assemble 1 source = .ok p := by decide
  have hm₀ : m₀.Watches registry 1 source := ⟨rfl, rfl, fun lines hlines => by cases hlines⟩
  have hread : read (registry.path 1) = some source := by decide
  have hfetch : m.fetch = .ok p[1] := by decide
  have htrace : m.trace = [ascii "[trace] a.asm:3: nop\n"] := by decide
  refine ⟨hp, hm₀, hfetch, htrace, ?_⟩
  obtain ⟨k, line, t, seen, hnumber, hline, -, -, -, -, -, hstep⟩ :=
    trace_step_of_assemble hp (by decide) (by decide) hm₀ {} [read] read
      (fun r hr => List.mem_singleton.mp hr ▸ hread) hread (by decide) p[1] hfetch
  have hk : k = 3 := by
    have hfour : 4 = k + 1 := hnumber
    omega
  subst hk
  have hend : line = ascii "end: jmp end" := by
    have hsource : source.lines[3]? = some (ascii "end: jmp end") := by decide
    exact Option.some.inj (hline.symm.trans hsource)
  rw [hstep, hend, htrace]
  decide

end Program
end RegisterMachine
