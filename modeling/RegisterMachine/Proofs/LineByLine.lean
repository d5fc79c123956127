/-
# Each line is read by itself

Nothing that stands in one line of a source text has an effect on what is read
in another. A text is cut at its newlines (`Bytes.scan_eq_lines`), the reading of
a line does not depend on where it stands but for the place that is noted
(`Statement.ofLine_eq_map_movedTo`), and the readings of the lines are put
together in their order (`Reading.ofLines_cons`).

So the reading of two texts with a newline between them is that of the first
text and, further down by its lines, that of the second
(`Reading.ofSource_append`). In the other direction, what a reading holds at the
number of a line is the reading of this line (`Reading.atLine_ofSource`). Line
numbers have 32 bits, so this takes a text of fewer than 2 ^ 32 lines.

Key definitions: `Bytes.scan`, `Location.below`, `Reading.ofLine`,
`Reading.append`, `Reading.below`, `Reading.atLine`.
Key theorems: `Bytes.lines_append`, `Reading.ofLines_append`,
`Reading.ofSource_append`, `Reading.atLine_ofSource`, `Reading.ofSource_linewise`.
-/
import RegisterMachine.Proofs.Origins

namespace RegisterMachine

/-! ### Cutting a text into lines -/

namespace Bytes

theorem lines_of_not_mem {text : Bytes} (h : newline ∉ text) :
    lines text = [withoutReturn text] := by
  rw [lines, List.splitOn_eq_singleton h, List.map_singleton]

theorem lines_append (a b : Bytes) : lines (a ++ newline :: b) = lines a ++ lines b := by
  rw [lines, List.splitOn_append_cons_self, List.map_append]
  rfl

theorem length_lines_cons (b : UInt8) (text : Bytes) :
    (lines (b :: text)).length = (lines text).length + if b = newline then 1 else 0 := by
  simp only [lines, List.length_map, List.splitOn_cons_eq_if_modifyHead, beq_iff_eq]
  split <;> simp

theorem length_lines (text : Bytes) : (lines text).length = text.count newline + 1 := by
  induction text with
  | nil => rfl
  | cons b text ih =>
    rw [length_lines_cons, ih, List.count_cons]
    simp only [beq_iff_eq]
    omega

/-- Where the next newline stands, it ends a line. -/
theorem lines_of_idxOf? {text : Bytes} {n : Nat} (h : text.idxOf? newline = some n) :
    lines text = withoutReturn (text.take n) :: lines (text.drop (n + 1)) := by
  obtain ⟨hn, hnewline, hbefore⟩ := List.idxOf?_eq_some_iff.mp h
  have hfirst : newline ∉ text.take n := by
    intro hmem
    obtain ⟨j, hj, heq⟩ := List.mem_take_iff_getElem.mp hmem
    exact hbefore j (by omega) heq
  have hcut : text = text.take n ++ newline :: text.drop (n + 1) := by
    rw [← hnewline, List.getElem_cons_drop, List.take_append_drop]
  conv => lhs; rw [hcut]
  rw [lines_append, lines_of_not_mem hfirst, List.singleton_append]

/-- The lines from a position on, as a scan by positions finds them: it looks for the next newline
and goes on behind it, until there is none. -/
def scan (text : Bytes) (position : Nat) : List Bytes :=
  if position ≤ text.length then
    match (text.drop position).idxOf? newline with
    | none => [withoutReturn (text.drop position)]
    | some n => withoutReturn ((text.drop position).take n) :: scan text (position + n + 1)
  else []
termination_by text.length + 1 - position

/-- A scan ends, and finds the lines of what is left of the text. -/
theorem scan_eq_lines (text : Bytes) {position : Nat} (h : position ≤ text.length) :
    scan text position = lines (text.drop position) := by
  fun_induction scan text position with
  | case1 position _ hnext =>
    exact (lines_of_not_mem (List.idxOf?_eq_none_iff.mp hnext)).symm
  | case2 position _ n hnext ih =>
    obtain ⟨hn, -⟩ := List.idxOf?_eq_some_iff.mp hnext
    rw [List.length_drop] at hn
    rw [lines_of_idxOf? hnext, List.drop_drop, ih (by omega), Nat.add_assoc]
  | case3 position hend => exact absurd h hend

end Bytes

/-! ### Places further down -/

/-- The place so many lines further down. -/
def Location.below (count : Nat) (location : Location) : Location :=
  { location with line := location.line + count.toUInt32 }

namespace Location

theorem below_mk (file : UInt32) (number count : Nat) :
    ({ file, line := number.toUInt32 } : Location).below count =
      { file, line := (number + count).toUInt32 } := by
  rw [below, Nat.toUInt32_eq, Nat.toUInt32_eq, Nat.toUInt32_eq, UInt32.ofNat_add]

theorem toNat_line_below {location : Location} {count : Nat}
    (h : location.line.toNat + count < 2 ^ 32) :
    (location.below count).line.toNat = location.line.toNat + count := by
  rw [below, UInt32.toNat_add, Nat.toUInt32_eq, UInt32.toNat_ofNat', Nat.add_mod_mod]
  exact Nat.mod_eq_of_lt h

end Location

/-- The statement, read so many lines further down. -/
def Statement.below (count : Nat) (s : Statement) : Statement :=
  { s with location := s.location.below count }

/-- The diagnostic of a line so many lines further down. -/
def Diagnostic.below (count : Nat) (d : Diagnostic) : Diagnostic :=
  { d with location := d.location.below count }

/-! ### Reading one line -/

namespace Statement

/-- The statement, read in the line at `location`. -/
def movedTo (location : Location) (s : Statement) : Statement :=
  { s with location := location.atColumn s.location.column }

theorem ofMnemonic_eq_map_movedTo (location : Location) (mnemonic : Token) (operands : List Token) :
    ofMnemonic location mnemonic operands =
      (ofMnemonic {} mnemonic operands).map (movedTo location) := by
  unfold ofMnemonic
  split
  · rfl
  · split
    · rfl
    · cases Operand.ofTokens _ _ <;> rfl

/-- **A line is read in the same way wherever it stands**; only the place is noted. -/
theorem ofLine_eq_map_movedTo (location : Location) (line : Bytes) :
    ofLine location line = (ofLine {} line).map (List.map (movedTo location)) := by
  unfold ofLine
  cases LineTokens.ofLine line with
  | error fault => rfl
  | ok tokens =>
    have hlabels : (tokens.label.toList.map fun t => define t.text (location.atColumn t.column)) =
        (tokens.label.toList.map fun t => define t.text (({} : Location).atColumn t.column)).map
          (movedTo location) := by
      rw [List.map_map]
      rfl
    cases hmnemonic : tokens.mnemonic with
    | none => simp [hmnemonic, hlabels, Except.map]
    | some mnemonic =>
      simp only [hmnemonic]
      rw [ofMnemonic_eq_map_movedTo, hlabels]
      cases ofMnemonic {} mnemonic tokens.operands <;> simp [Except.map]

/-- The line has a fault, which depends on its text alone. -/
def isMalformed (line : Bytes) : Bool := !(ofLine {} line).isOk

end Statement

namespace Reading

/-- What the line at `location` holds: its statements, or the one diagnostic of its fault. -/
def ofLine (location : Location) (line : Bytes) : Reading :=
  match Statement.ofLine location line with
  | .ok statements => { program := statements }
  | .error fault => { diagnostics := [fault.diagnostic location] }

/-- One reading and then another. -/
def append (r later : Reading) : Reading :=
  { program := r.program ++ later.program, diagnostics := r.diagnostics ++ later.diagnostics }

/-- The reading of the same lines so many lines further down. -/
def below (count : Nat) (r : Reading) : Reading :=
  { program := r.program.map (Statement.below count),
    diagnostics := r.diagnostics.map (Diagnostic.below count) }

/-- What a reading holds at the line of this number. -/
def atLine (number : Nat) (r : Reading) : Reading :=
  { program := r.program.filter (·.location.line.toNat = number),
    diagnostics := r.diagnostics.filter (·.location.line.toNat = number) }

@[simp] theorem empty_append (r : Reading) : ({} : Reading).append r = r := rfl

@[simp] theorem append_empty (r : Reading) : r.append {} = r := by
  simp [append]

theorem append_assoc (r s t : Reading) : (r.append s).append t = r.append (s.append t) := by
  simp [append]

theorem below_append (count : Nat) (r later : Reading) :
    (r.append later).below count = (r.below count).append (later.below count) := by
  simp [append, below]

theorem atLine_append (number : Nat) (r later : Reading) :
    (r.append later).atLine number = (r.atLine number).append (later.atLine number) := by
  simp [append, atLine]

theorem atLine_eq_self_iff {number : Nat} {r : Reading} : r.atLine number = r ↔
    (∀ s ∈ r.program, s.location.line.toNat = number) ∧
      ∀ d ∈ r.diagnostics, d.location.line.toNat = number := by
  cases r
  simp [atLine, List.filter_eq_self]

theorem atLine_eq_empty_iff {number : Nat} {r : Reading} : r.atLine number = {} ↔
    (∀ s ∈ r.program, s.location.line.toNat ≠ number) ∧
      ∀ d ∈ r.diagnostics, d.location.line.toNat ≠ number := by
  simp [atLine, List.filter_eq_nil_iff]

/-! ### The reading of a line -/

theorem ofLine_below (location : Location) (count : Nat) (line : Bytes) :
    ofLine (location.below count) line = (ofLine location line).below count := by
  unfold ofLine
  rw [Statement.ofLine_eq_map_movedTo, Statement.ofLine_eq_map_movedTo location]
  cases Statement.ofLine {} line with
  | error fault => rfl
  | ok statements =>
    have hmoved : Statement.below count ∘ Statement.movedTo location =
        Statement.movedTo (location.below count) := rfl
    simp [Except.map, below, hmoved]

theorem length_diagnostics_ofLine (location : Location) (line : Bytes) :
    (ofLine location line).diagnostics.length = if Statement.isMalformed line then 1 else 0 := by
  rw [ofLine, Statement.ofLine_eq_map_movedTo, Statement.isMalformed]
  cases Statement.ofLine {} line <;> rfl

theorem line_of_mem_ofLine (location : Location) (line : Bytes) :
    (∀ s ∈ (ofLine location line).program, s.location.line = location.line) ∧
      ∀ d ∈ (ofLine location line).diagnostics,
        d.location.line = location.line ∧ d.severity = .error := by
  unfold ofLine
  split
  · rename_i statements hstatements
    refine ⟨fun s hs => ?_, fun d hd => by cases hd⟩
    obtain ⟨column, hlocation⟩ := Statement.location_of_ofLine hstatements s hs
    rw [hlocation]
    rfl
  · rename_i fault _
    refine ⟨fun s hs => (by cases hs), fun d hd => ?_⟩
    rw [List.mem_singleton.mp hd]
    exact ⟨rfl, rfl⟩

theorem atLine_ofLine (location : Location) (line : Bytes) :
    (ofLine location line).atLine location.line.toNat = ofLine location line := by
  obtain ⟨hprogram, hdiagnostics⟩ := line_of_mem_ofLine location line
  refine atLine_eq_self_iff.mpr ⟨fun s hs => ?_, fun d hd => ?_⟩
  · rw [hprogram s hs]
  · rw [(hdiagnostics d hd).1]

theorem atLine_ofLine_of_ne {location : Location} {number : Nat}
    (h : location.line.toNat ≠ number) (line : Bytes) :
    (ofLine location line).atLine number = {} := by
  obtain ⟨hprogram, hdiagnostics⟩ := line_of_mem_ofLine location line
  refine atLine_eq_empty_iff.mpr ⟨fun s hs => ?_, fun d hd => ?_⟩
  · rwa [hprogram s hs]
  · rwa [(hdiagnostics d hd).1]

/-! ### The reading of lines -/

theorem ofLines_cons (file : UInt32) (number : Nat) (line : Bytes) (rest : List Bytes) :
    ofLines file number (line :: rest) =
      (ofLine { file, line := number.toUInt32 } line).append (ofLines file (number + 1) rest) := by
  rw [ofLines, ofLine]
  cases Statement.ofLine { file, line := number.toUInt32 } line <;> rfl

theorem ofLines_append (file : UInt32) : ∀ (number : Nat) (lines more : List Bytes),
    ofLines file number (lines ++ more) =
      (ofLines file number lines).append (ofLines file (number + lines.length) more)
  | _, [], _ => rfl
  | number, line :: lines, more => by
    rw [List.cons_append, ofLines_cons, ofLines_append file (number + 1) lines more, ofLines_cons,
      append_assoc, List.length_cons, Nat.add_assoc, Nat.add_comm 1]

theorem ofLines_add (file : UInt32) (count : Nat) : ∀ (number : Nat) (lines : List Bytes),
    ofLines file (number + count) lines = (ofLines file number lines).below count
  | _, [] => rfl
  | number, line :: lines => by
    rw [ofLines_cons, ofLines_cons, below_append, ← ofLine_below, Location.below_mk,
      ← ofLines_add file count (number + 1) lines, Nat.add_right_comm]

theorem length_diagnostics_ofLines (file : UInt32) : ∀ (number : Nat) (lines : List Bytes),
    (ofLines file number lines).diagnostics.length = lines.countP Statement.isMalformed
  | _, [] => rfl
  | number, line :: lines => by
    rw [ofLines_cons, append, List.length_append, length_diagnostics_ofLine,
      length_diagnostics_ofLines file (number + 1) lines, List.countP_cons, Nat.add_comm]

theorem severity_of_mem_ofLines (file : UInt32) : ∀ (number : Nat) (lines : List Bytes),
    ∀ d ∈ (ofLines file number lines).diagnostics, d.severity = .error
  | _, [] => fun d hd => by cases hd
  | number, line :: lines => by
    intro d hd
    rw [ofLines_cons] at hd
    rcases List.mem_append.mp hd with hd | hd
    · exact ((line_of_mem_ofLine _ line).2 d hd).2
    · exact severity_of_mem_ofLines file (number + 1) lines d hd

/-- Nothing is noted at a line outside of those that are read. -/
theorem atLine_ofLines_of_outside (file : UInt32) {k : Nat} : ∀ {number : Nat} {lines : List Bytes},
    number + lines.length ≤ 2 ^ 32 → k < number ∨ number + lines.length ≤ k →
      (ofLines file number lines).atLine k = {}
  | _, [], _, _ => rfl
  | number, line :: lines, hbound, hk => by
    rw [List.length_cons] at hbound hk
    have hnumber : number.toUInt32.toNat = number :=
      UInt32.toNat_ofNat_of_lt' (show number < 2 ^ 32 by omega)
    have hne : number.toUInt32.toNat ≠ k := by omega
    rw [ofLines_cons, atLine_append, atLine_ofLine_of_ne hne,
      atLine_ofLines_of_outside file (by omega) (by omega), empty_append]

/-- What is noted at a line is what is read from it, whatever the lines around it hold. -/
theorem atLine_ofLines (file : UInt32) (number : Nat) (before : List Bytes) (line : Bytes)
    (after : List Bytes) (h : number + (before ++ line :: after).length ≤ 2 ^ 32) :
    (ofLines file number (before ++ line :: after)).atLine (number + before.length) =
      ofLine { file, line := (number + before.length).toUInt32 } line := by
  rw [List.length_append, List.length_cons] at h
  have hnumber : (number + before.length).toUInt32.toNat = number + before.length :=
    UInt32.toNat_ofNat_of_lt' (show number + before.length < 2 ^ 32 by omega)
  have hbefore : (ofLines file number before).atLine (number + before.length) = {} :=
    atLine_ofLines_of_outside file (by omega) (by omega)
  have hafter : (ofLines file (number + before.length + 1) after).atLine
      (number + before.length) = {} :=
    atLine_ofLines_of_outside file (by omega) (by omega)
  have hline := atLine_ofLine { file, line := (number + before.length).toUInt32 } line
  rw [hnumber] at hline
  rw [ofLines_append, ofLines_cons, atLine_append, atLine_append, hbefore, hline, hafter,
    empty_append, append_empty]

/-! ### The reading of a text -/

/-- **Two texts with a newline between them are read one after the other.** -/
theorem ofSource_append (file : UInt32) (a b : Bytes) :
    ofSource file (a ++ Bytes.newline :: b) =
      (ofSource file a).append ((ofSource file b).below (a.count Bytes.newline + 1)) := by
  rw [ofSource, ofSource, ofSource, Bytes.lines_append, ofLines_append, Bytes.length_lines,
    ofLines_add]

theorem ofSource_of_not_mem (file : UInt32) {text : Bytes} (h : Bytes.newline ∉ text) :
    ofSource file text = ofLine { file, line := 1 } (Bytes.withoutReturn text) := by
  rw [ofSource, Bytes.lines_of_not_mem h, ofLines_cons]
  exact append_empty _

/-- **What is noted at a line is what is read from it**, whatever else the text holds. -/
theorem atLine_ofSource (file : UInt32) {source line : Bytes} {k : Nat}
    (hlines : source.lines.length < 2 ^ 32) (h : source.lines[k]? = some line) :
    (ofSource file source).atLine (k + 1) = ofLine { file, line := (k + 1).toUInt32 } line := by
  obtain ⟨hk, rfl⟩ := List.getElem?_eq_some_iff.mp h
  have hcut : source.lines.take k ++ source.lines[k] :: source.lines.drop (k + 1) =
      source.lines := by
    rw [List.getElem_cons_drop, List.take_append_drop]
  have hread := atLine_ofLines file 1 (source.lines.take k) source.lines[k]
    (source.lines.drop (k + 1)) (by rw [hcut]; omega)
  rwa [hcut, List.length_take_of_le (by omega), Nat.add_comm 1 k] at hread

theorem line_le_of_mem_ofSource (file : UInt32) (source : Bytes)
    (hlines : source.lines.length < 2 ^ 32) :
    (∀ s ∈ (ofSource file source).program, s.location.line.toNat ≤ source.lines.length) ∧
      ∀ d ∈ (ofSource file source).diagnostics, d.location.line.toNat ≤ source.lines.length := by
  have houtside {k : Nat} (hk : source.lines.length < k) : (ofSource file source).atLine k = {} :=
    atLine_ofLines_of_outside file (by omega) (by omega)
  refine ⟨fun s hs => ?_, fun d hd => ?_⟩
  · by_contra hlt
    exact (atLine_eq_empty_iff.mp (houtside (Nat.lt_of_not_le hlt))).1 s hs rfl
  · by_contra hlt
    exact (atLine_eq_empty_iff.mp (houtside (Nat.lt_of_not_le hlt))).2 d hd rfl

/-- **A text is read line by line.** With a newline between two texts, what is read from the second
comes behind what is read from the first, with its line numbers increased by the lines of the first.
A text without a newline is one line, without the carriage return at its end. A scan for newlines
finds one line more than there are newlines; each line with a fault gives one error, and what is
noted at a line is read from it alone. -/
theorem ofSource_linewise (file : UInt32) :
    (∀ a b : Bytes, (a ++ Bytes.newline :: b).lines.length < 2 ^ 32 →
      let count := a.count Bytes.newline + 1
      let joined := ofSource file (a ++ Bytes.newline :: b)
      joined.program =
          (ofSource file a).program ++ (ofSource file b).program.map (Statement.below count) ∧
        joined.diagnostics =
          (ofSource file a).diagnostics ++
            (ofSource file b).diagnostics.map (Diagnostic.below count) ∧
        (∀ s ∈ (ofSource file b).program,
          (s.below count).location.line.toNat = s.location.line.toNat + count) ∧
        ∀ d ∈ (ofSource file b).diagnostics,
          (d.below count).location.line.toNat = d.location.line.toNat + count) ∧
    (∀ text : Bytes, Bytes.newline ∉ text →
      ofSource file text = ofLine { file, line := 1 } (Bytes.withoutReturn text)) ∧
    ∀ source : Bytes,
      source.scan 0 = source.lines ∧ source.lines.length = source.count Bytes.newline + 1 ∧
      (ofSource file source).diagnostics.length = source.lines.countP Statement.isMalformed ∧
      (∀ d ∈ (ofSource file source).diagnostics, d.severity = .error) ∧
      (source.lines.length < 2 ^ 32 → ∀ k line, source.lines[k]? = some line →
        (ofSource file source).atLine (k + 1) =
          ofLine { file, line := (k + 1).toUInt32 } line) := by
  refine ⟨fun a b h => ?_, fun text h => ofSource_of_not_mem file h, fun source => ?_⟩
  · intro count joined
    have hjoined : joined = (ofSource file a).append ((ofSource file b).below count) :=
      ofSource_append file a b
    rw [Bytes.lines_append, List.length_append, Bytes.length_lines a] at h
    obtain ⟨hprogram, hdiagnostics⟩ := line_le_of_mem_ofSource file b (by omega)
    refine ⟨by rw [hjoined]; rfl, by rw [hjoined]; rfl, fun s hs => ?_, fun d hd => ?_⟩
    · have hs := hprogram s hs
      exact Location.toNat_line_below (by omega)
    · have hd := hdiagnostics d hd
      exact Location.toNat_line_below (by omega)
  · exact ⟨Bytes.scan_eq_lines source (Nat.zero_le _), Bytes.length_lines source,
      length_diagnostics_ofLines file 1 source.lines, severity_of_mem_ofLines file 1 source.lines,
      fun hlines k line h => atLine_ofSource file hlines h⟩

/-- Each half has a line with a fault, and a line that ends with a carriage return. -/
theorem ofSource_linewise_of_faults :
    let a := ascii "start:\r\n  foo r1"
    let b := ascii "  mv r1\n  halt\r"
    let joined := ofSource 1 (a ++ Bytes.newline :: b)
    (a ++ Bytes.newline :: b).lines.length < 2 ^ 32 ∧
      joined.program =
        (ofSource 1 a).program ++ (ofSource 1 b).program.map (Statement.below 2) ∧
      joined.program.map (·.location.line) = [1, 4] ∧
      joined.diagnostics.map (·.location.line) = [2, 3] ∧
      (a ++ Bytes.newline :: b).lines[2]? = some (ascii "  mv r1") ∧
      joined.atLine 3 = ofLine { file := 1, line := 3 } (ascii "  mv r1") ∧
      Bytes.newline ∉ ascii "halt\r" ∧
      ofSource 1 (ascii "halt\r") = ofLine { file := 1, line := 1 } (ascii "halt") := by
  intro a b joined
  obtain ⟨hjoin, hsingle, hall⟩ := ofSource_linewise 1
  have hshort : (a ++ Bytes.newline :: b).lines.length < 2 ^ 32 := by decide
  have hthird : (a ++ Bytes.newline :: b).lines[2]? = some (ascii "  mv r1") := by decide
  have hone : Bytes.newline ∉ ascii "halt\r" := by decide
  obtain ⟨hprogram, -⟩ := hjoin a b hshort
  obtain ⟨-, -, -, -, hline⟩ := hall (a ++ Bytes.newline :: b)
  exact ⟨hshort, hprogram, by decide, by decide, hthird, hline hshort 2 _ hthird, hone,
    hsingle _ hone⟩

end Reading

end RegisterMachine
