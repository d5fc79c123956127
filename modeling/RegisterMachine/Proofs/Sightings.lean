/-
# A source file is seen as it was at first

A trace of source lines looks at a file at the first step that shows a line of
it, and remembers what it has found, also if that was nothing. A `Sighting` is an
attempt together with what source files hold when it is traced. The sightings of
a machine's life can be listed without a look at its trace or at what it
remembers (`Machine.sightings`), and so can what the first of them in a file has
found there (`Sighting.found`).

That the machine remembers just this is the invariant (`Machine.Remembers`). One
more sighting does not change what was found in a file before
(`Sighting.found_append`), so neither does it change the lines that were traced,
and each step keeps the invariant whatever the files hold by then
(`Machine.Remembers.step`). `load` keeps what is remembered, and a run is so many
steps.

Key definitions: `SourceCache.linesOf`, `Sighting`, `Sighting.found`,
`Sighting.line`, `Machine.sightings`, `Machine.Remembers`.
Key theorems: `SourceCache.lookup_look`, `Machine.Remembers.step`,
`Machine.Remembers.serve`, `Machine.trace_of_first_sightings`.
-/
import RegisterMachine.Proofs.Attempts
import RegisterMachine.Proofs.Lifecycle

namespace RegisterMachine

/-! ### Looking at a file -/

namespace SourceCache

/-- The lines of a file with this content; a file that cannot be read has none. -/
def linesOf (content : Option Bytes) : Array Bytes :=
  ((content.map Bytes.fileLines).getD []).toArray

/-- After a look, the file that was looked at is known, if it was not before. -/
theorem lookup_look (cache : SourceCache) (read : Reader) (file : UInt32) (path : Bytes)
    (other : UInt32) : (cache.look read file path).2.lookup other =
      (cache.lookup other).or (if file = other then some (linesOf (read path)) else none) := by
  unfold look
  by_cases hfile : file = other
  · subst hfile
    cases h : cache.lookup file <;> simp [h, linesOf]
  · have hne : (other == file) = false := beq_false_of_ne (Ne.symm hfile)
    cases h : cache.lookup file <;> simp [hfile, hne, List.lookup_cons]

theorem look_fst (cache : SourceCache) (read : Reader) (file : UInt32) (path : Bytes) :
    (cache.look read file path).1 = ((cache.look read file path).2.lookup file).getD #[] := by
  unfold look
  cases h : cache.lookup file <;> simp [h]

end SourceCache

/-! ### Sightings -/

/-- An attempt, and what source files hold when it is traced. -/
structure Sighting where
  files : Reader
  attempt : Attempt

namespace Sighting

/-- The file that the statement was read from. -/
def file (v : Sighting) : UInt32 := v.attempt.statement.location.file

/-- The number of the line that the statement was read from, 0 if it is not known. -/
def lineNumber (v : Sighting) : UInt32 := v.attempt.statement.location.line

section

variable (registry : Registry)

/-- The lines that the first sighting in a file has found there. -/
def found (sightings : List Sighting) (file : UInt32) : Option (Array Bytes) :=
  (sightings.find? (·.file = file)).map fun first =>
    SourceCache.linesOf (first.files (registry.path file))

/-- The line that shows a sighting: the place in its file, if that has a path. -/
def line (sightings : List Sighting) (v : Sighting) : Bytes :=
  let path := registry.path v.file
  if path = [] then v.attempt.line
  else Trace.sourceLine path ((found registry sightings v.file).getD #[]) v.lineNumber

theorem found_append (sightings more : List Sighting) (file : UInt32) :
    found registry (sightings ++ more) file =
      (found registry sightings file).or (found registry more file) := by
  rw [found, List.find?_append, Option.map_or]
  rfl

theorem found_singleton (v : Sighting) (file : UInt32) : found registry [v] file =
    if v.file = file then some (SourceCache.linesOf (v.files (registry.path file))) else none := by
  by_cases h : v.file = file <;> simp [found, h]

/-- A look at the file of a sighting finds what the sightings up to this one have found. -/
theorem lookup_look_eq_found {cache : SourceCache} {sightings : List Sighting} {file : UInt32}
    (h : cache.lookup file = found registry sightings file) (v : Sighting) :
    (cache.look v.files v.file (registry.path v.file)).2.lookup file =
      found registry (sightings ++ [v]) file := by
  rw [SourceCache.lookup_look, found_append, found_singleton, h]
  by_cases hfile : v.file = file
  · subst hfile
    rfl
  · rw [if_neg hfile, if_neg hfile]

theorem line_append {sightings : List Sighting} {v : Sighting} (h : v ∈ sightings)
    (more : List Sighting) : v.line registry (sightings ++ more) = v.line registry sightings := by
  have hfound : (found registry sightings v.file).isSome = true := by
    rw [found, Option.isSome_map, List.find?_isSome]
    exact ⟨v, h, by simp⟩
  rw [line, line, found_append, Option.or_of_isSome hfound]

/-- The lines of one file are taken from what its first sighting has found. -/
theorem line_of_first {before later : List Sighting} {first : Sighting}
    (hpath : registry.path first.file ≠ []) (hbefore : ∀ v ∈ before, v.file ≠ first.file)
    {v : Sighting} (hv : v.file = first.file) :
    v.line registry (before ++ first :: later) = Trace.sourceLine (registry.path first.file)
      (SourceCache.linesOf (first.files (registry.path first.file))) v.lineNumber := by
  have hnone : before.find? (·.file = first.file) = none := by
    simpa [List.find?_eq_none] using hbefore
  rw [line, hv, if_neg hpath, found, List.find?_append, hnone, Option.none_or]
  simp

end

end Sighting

/-- Of a file that could not be read, its path is shown and the number of the line, if it is
known. -/
theorem Trace.sourceLine_of_unreadable (path : Bytes) (number : UInt32) :
    sourceLine path (SourceCache.linesOf none) number = ascii "[trace] " ++ path ++
      (if number = 0 then [] else ascii ":" ++ Numeral.decimal number.toNat ++ ascii ": ") ++
        ascii "\n" := by
  have hend : ascii "\n" = [Bytes.newline] := by decide
  by_cases h : number = 0 <;> simp [sourceLine, SourceCache.linesOf, unindented, tag, h, hend]

namespace Machine

/-- The sightings that a call makes. -/
def sightingsOf (read : Reader) (m : Machine) : Call → List Sighting
  | .load _ _ => []
  | .step => (m.attempts read 1).map (Sighting.mk read)
  | .run => (m.attempts read m.enough).map (Sighting.mk read)

/-- The sightings that calls make, in their order. -/
def sightings (m : Machine) : List (Reader × Call) → List Sighting
  | [] => []
  | (read, call) :: calls =>
    m.sightingsOf read call ++ ((m.answer read call).map fun n => n.sightings calls).getD []

/-- The machine traces source lines. Of each file with a path it remembers what was found at the
first sighting, and its trace has a line for each sighting. -/
structure Remembers (m : Machine) (registry : Registry) (sightings : List Sighting) : Prop where
  mode : m.settings.mode = .source
  registered : m.settings.registry = some registry
  sources : ∀ file, registry.path file ≠ [] →
    m.sources.lookup file = Sighting.found registry sightings file
  trace : m.trace.reverse = sightings.map (Sighting.line registry sightings)

namespace Remembers

variable {m : Machine} {registry : Registry} {sightings : List Sighting}

theorem map_line_concat (h : m.Remembers registry sightings) (v : Sighting) :
    (v.line registry (sightings ++ [v]) :: m.trace).reverse =
      (sightings ++ [v]).map (Sighting.line registry (sightings ++ [v])) := by
  have hlines : sightings.map (Sighting.line registry (sightings ++ [v])) =
      sightings.map (Sighting.line registry sightings) :=
    List.map_congr_left fun w hw => Sighting.line_append registry hw [v]
  rw [List.reverse_cons, h.trace, List.map_append, hlines, List.map_singleton]

theorem traced (h : m.Remembers registry sightings) (read : Reader) (s : Statement) :
    (m.traced read s).Remembers registry
      (sightings ++ [{ files := read, attempt := { state := m.state, statement := s } }]) := by
  let v : Sighting := { files := read, attempt := { state := m.state, statement := s } }
  have hmode : m.settings.mode = .source := h.mode
  have hregistry : m.settings.registry = some registry := h.registered
  by_cases hpath : registry.path v.file = []
  · -- Nothing is looked at, and no file with a path has one more sighting.
    have hline : v.line registry (sightings ++ [v]) = v.attempt.line := if_pos hpath
    have hfile : registry.path s.location.file = [] := hpath
    have htraced : m.traced read s =
        { m with trace := v.line registry (sightings ++ [v]) :: m.trace } := by
      have hshown : Trace.statementLine m.state.pc s = v.attempt.line :=
        Attempt.statementLine_eq v.attempt
      rw [Machine.traced, hmode, hregistry, Trace.ofStatement_source]
      simp [hfile, hline, hshown, Attempt.line_ne_nil]
    rw [htraced]
    refine ⟨hmode, hregistry, fun file hfile => ?_, h.map_line_concat v⟩
    have hne : v.file ≠ file := by
      rintro rfl
      exact hfile hpath
    rw [Sighting.found_append, Sighting.found_singleton, if_neg hne, Option.or_none]
    exact h.sources file hfile
  · let seen := m.sources.look read v.file (registry.path v.file)
    have hlookup : ∀ file, registry.path file ≠ [] →
        seen.2.lookup file = Sighting.found registry (sightings ++ [v]) file :=
      fun file hfile => Sighting.lookup_look_eq_found registry (h.sources file hfile) v
    have hline : v.line registry (sightings ++ [v]) =
        Trace.sourceLine (registry.path v.file) seen.1 v.lineNumber := by
      rw [Sighting.line, if_neg hpath, ← hlookup v.file hpath, SourceCache.look_fst]
    have htraced : m.traced read s =
        { m with sources := seen.2, trace := v.line registry (sightings ++ [v]) :: m.trace } := by
      have hfile : registry.path s.location.file ≠ [] := hpath
      rw [hline, Machine.traced, hmode, hregistry, Trace.ofStatement_source]
      simp only [hfile, if_false, Trace.sourceLine_ne_nil]
      rfl
    rw [htraced]
    exact ⟨hmode, hregistry, hlookup, h.map_line_concat v⟩

/-- **A step makes one more sighting, or none.** -/
theorem step (h : m.Remembers registry sightings) (read : Reader) :
    (m.step read).Remembers registry (sightings ++ m.attempt?.toList.map (Sighting.mk read)) := by
  rcases m.step_attempt_cases read with
    ⟨hnone, -, hstep⟩ | ⟨hnone, -, cause, -, hstep⟩ | ⟨s, hsome, -, -, hstep⟩
  · rw [hstep, hnone]
    simpa using h
  · rw [hstep, hnone]
    simpa using (⟨h.mode, h.registered, h.sources, h.trace⟩ : (m.stop cause).Remembers _ _)
  · rw [hstep, hsome]
    have htraced := h.traced read s
    exact ⟨by rw [carryOut_settings]; exact htraced.mode,
      by rw [carryOut_settings]; exact htraced.registered,
      by rw [carryOut_sources]; exact htraced.sources,
      by rw [carryOut_trace]; exact htraced.trace⟩

theorem after (h : m.Remembers registry sightings) (read : Reader) (k : Nat) :
    (m.after read k).Remembers registry
      (sightings ++ (m.attempts read k).map (Sighting.mk read)) := by
  induction k with
  | zero => simpa [attempts] using h
  | succ k ih =>
    rw [after_succ, attempts, List.map_append, ← List.append_assoc]
    exact ih.step read

theorem answer (h : m.Remembers registry sightings) {read : Reader} {call : Call} {m' : Machine}
    (hm : m.answer read call = some m') :
    m'.Remembers registry (sightings ++ m.sightingsOf read call) := by
  cases call with
  | load program initial =>
    cases hm
    rw [sightingsOf, List.append_nil]
    exact ⟨h.mode, h.registered, h.sources, h.trace⟩
  | step =>
    cases hm
    exact h.after read 1
  | run =>
    obtain ⟨rfl, -⟩ := runFor_eq_some_iff.mp hm
    exact h.after read m.enough

theorem serve {calls : List (Reader × Call)} {m' : Machine} (h : m.Remembers registry sightings)
    (hm : m.serve calls = some m') :
    m'.Remembers registry (sightings ++ m.sightings calls) := by
  induction calls generalizing m sightings with
  | nil =>
    cases hm
    simpa [Machine.sightings] using h
  | cons c calls ih =>
    obtain ⟨read, call⟩ := c
    obtain ⟨n, hn, hrest⟩ := Option.bind_eq_some_iff.mp hm
    rw [Machine.sightings, hn, ← List.append_assoc]
    exact ih (h.answer hn) hrest

end Remembers

/-- **All lines of one source file are taken from what it held at first.** A machine that traces
source lines has traced a line for each of its sightings. Those in a file with a path show the place
in what that file held at the first of them, whatever it holds later and whatever is loaded. If it
could not be read then, they show its path and the number of the line, if that is known, and no
text. -/
theorem trace_of_first_sightings {settings : Settings} {registry : Registry}
    {history : List (Reader × Call)} {m : Machine} (hmode : settings.mode = .source)
    (hregistry : settings.registry = some registry)
    (h : ({ settings } : Machine).serve history = some m) :
    let sightings := ({ settings } : Machine).sightings history
    m.traceText = sightings.flatMap (Sighting.line registry sightings) ∧
    ∀ before first later, sightings = before ++ first :: later →
      let path := registry.path first.file
      path ≠ [] → (∀ v ∈ before, v.file ≠ first.file) →
        ∀ v ∈ first :: later, v.file = first.file →
          v.line registry sightings =
              Trace.sourceLine path (SourceCache.linesOf (first.files path)) v.lineNumber ∧
            (first.files path = none → v.line registry sightings = ascii "[trace] " ++ path ++
              (if v.lineNumber = 0 then []
                else ascii ":" ++ Numeral.decimal v.lineNumber.toNat ++ ascii ": ") ++
              ascii "\n") := by
  intro sightings
  have hnew : ({ settings } : Machine).Remembers registry [] :=
    ⟨hmode, hregistry, fun _ _ => rfl, rfl⟩
  have htrace : m.trace.reverse = sightings.map (Sighting.line registry sightings) :=
    (hnew.serve h).trace
  refine ⟨?_, fun before first later hsightings => ?_⟩
  · rw [traceText, htrace, List.flatMap_def]
  · intro path hpath hbefore v _ hv
    have hline : v.line registry sightings =
        Trace.sourceLine path (SourceCache.linesOf (first.files path)) v.lineNumber := by
      rw [hsightings]
      exact Sighting.line_of_first registry hpath hbefore hv
    refine ⟨hline, fun hnone => ?_⟩
    rw [hline, hnone, Trace.sourceLine_of_unreadable]

/-- Two files, of which the second cannot be read at first. Both are written anew, and then the
program is loaded again. -/
theorem trace_of_first_sightings_of_rewritten :
    let registry : Registry := { paths := [ascii "a.asm", ascii "b.asm"] }
    let settings : Settings := { mode := .source, registry := some registry, stepLimit := 4 }
    let program : Program :=
      [{ operation := .nop, location := { file := 1, line := 2, column := 2 } },
        { operation := .halt, location := { file := 2, line := 1, column := 1 } }]
    let early : Reader := fun path => if path = ascii "a.asm" then some (ascii "\n nop\n") else none
    let late : Reader := fun _ => some (ascii "halt\nhalt\n")
    let history : List (Reader × Call) :=
      [(early, .load program {}), (early, .step), (early, .step), (late, .load program {}),
        (late, .run)]
    let sightings := ({ settings } : Machine).sightings history
    ∃ (m : Machine) (v first w last : Sighting),
      ({ settings } : Machine).serve history = some m ∧ sightings = [v] ++ first :: [w, last] ∧
      m.traceText = sightings.flatMap (Sighting.line registry sightings) ∧
      m.traceText = ascii "[trace] a.asm:2: nop\n[trace] b.asm:1: \n" ++
        ascii "[trace] a.asm:2: nop\n[trace] b.asm:1: \n" ∧
      first.file = 2 ∧ first.files (ascii "b.asm") = none ∧
      last.file = 2 ∧ last.files (ascii "b.asm") = some (ascii "halt\nhalt\n") ∧
      last.line registry sightings = ascii "[trace] b.asm:1: \n" := by
  intro registry settings program early late history sightings
  obtain ⟨m, hm⟩ : ∃ m, ({ settings } : Machine).serve history = some m :=
    Option.isSome_iff_exists.mp (by decide)
  have htrace : (({ settings } : Machine).serve history).map traceText =
      some (ascii "[trace] a.asm:2: nop\n[trace] b.asm:1: \n" ++
        ascii "[trace] a.asm:2: nop\n[trace] b.asm:1: \n") := by decide
  rw [hm, Option.map_some, Option.some.injEq] at htrace
  have hseen : sightings.map (fun v => (v.file, v.lineNumber, v.files (ascii "b.asm"))) =
      [(1, 2, none), (2, 1, none), (1, 2, some (ascii "halt\nhalt\n")),
        (2, 1, some (ascii "halt\nhalt\n"))] := by decide +kernel
  obtain ⟨v, rest, hsightings, hv, hrest⟩ := List.map_eq_cons_iff.mp hseen
  obtain ⟨first, rest, rfl, hfirst, hrest⟩ := List.map_eq_cons_iff.mp hrest
  obtain ⟨w, rest, rfl, -, hrest⟩ := List.map_eq_cons_iff.mp hrest
  obtain ⟨last, rest, rfl, hlast, hrest⟩ := List.map_eq_cons_iff.mp hrest
  obtain rfl := List.map_eq_nil_iff.mp hrest
  simp only [Prod.mk.injEq] at hv hfirst hlast
  obtain ⟨htext, hlines⟩ := trace_of_first_sightings rfl rfl hm
  have hpath : registry.path first.file = ascii "b.asm" := by
    rw [hfirst.1]
    decide
  have hbefore : ∀ u ∈ [v], u.file ≠ first.file := by
    rw [List.forall_mem_singleton, hv.1, hfirst.1]
    decide
  have hline := (hlines [v] first [w, last] hsightings (by rw [hpath]; decide) hbefore last
    (by simp) (by rw [hlast.1, hfirst.1])).2 (by rw [hpath]; exact hfirst.2.2)
  refine ⟨m, v, first, w, last, hm, hsightings, htext, htrace, hfirst.1, hfirst.2.2, hlast.1,
    hlast.2.2, hline.trans ?_⟩
  rw [hpath, hlast.2.1]
  decide

/-- A line of a file that could not be read shows no number, not even 0, if that is not known. -/
theorem trace_of_unnumbered_statement :
    let registry : Registry := { paths := [ascii "a.asm"] }
    let settings : Settings := { mode := .source, registry := some registry }
    let program : Program :=
      [{ operation := .nop, location := { file := 1, line := 1, column := 1 } },
        { operation := .nop, location := { file := 1, line := 0, column := 0 } }]
    let read : Reader := fun _ => none
    let history : List (Reader × Call) := [(read, .load program {}), (read, .step), (read, .step)]
    (({ settings } : Machine).serve history).map traceText =
        some (ascii "[trace] a.asm:1: \n[trace] a.asm\n") ∧
      (({ settings } : Machine).serve history).map traceText ≠
        some (ascii "[trace] a.asm:1: \n[trace] a.asm:0: \n") := by
  decide

end Machine
end RegisterMachine
