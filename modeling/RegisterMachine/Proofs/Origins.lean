/-
# Statements know the line they were read from

A statement that is read from a line carries the number of its file and of the
line, and linking exchanges operands only. So every statement of an assembled
program comes from one line of the source text, which is the one that it names.

That line is not empty, because an empty line gives no statement. A text and a
file are cut into the same lines but for an empty one at the end, so the line is
found under its number in the file too (`Bytes.getElem?_fileLines`).

Key definitions: `Statement.ReadFrom`.
Key theorems: `Statement.location_of_ofLine`,
`Reading.exists_readFrom_of_ofSource`, `Program.exists_readFrom_of_assemble`,
`Bytes.getElem?_fileLines`, `Bytes.newline_not_mem_of_mem_lines`.
-/
import RegisterMachine.Proofs.Assembling

namespace RegisterMachine

/-! ### The lines of a text -/

namespace Bytes

/-- A line that is not empty has the same number in a text and in a file. -/
theorem getElem?_fileLines {text line : Bytes} {k : Nat} (h : (lines text)[k]? = some line)
    (hne : line ≠ []) : (fileLines text)[k]? = some line := by
  rcases lines_eq_fileLines text with heq | heq
  · rwa [heq] at h
  · rw [heq, List.getElem?_append] at h
    split at h
    · exact h
    · have hlast : line ∈ [[]] := List.mem_of_getElem? h
      exact absurd (List.mem_singleton.mp hlast) hne

theorem newline_not_mem_of_mem_lines {text line : Bytes} (h : line ∈ lines text) :
    newline ∉ line := by
  obtain ⟨piece, hpiece, rfl⟩ := List.mem_map.mp h
  have hnone := not_mem_of_mem_splitOn newline text hpiece
  unfold withoutReturn
  split
  · exact fun hmem => hnone (List.dropLast_subset _ hmem)
  · exact hnone

end Bytes

/-! ### The statements of a line -/

namespace Statement

theorem location_of_ofMnemonic {location : Location} {mnemonic : Token} {operands : List Token}
    {s : Statement} (h : ofMnemonic location mnemonic operands = .ok s) :
    s.location = location.atColumn mnemonic.column := by
  unfold ofMnemonic at h
  split at h
  · cases h
  · obtain ⟨-, h⟩ := guard_eq_ok_iff.mp h
    obtain ⟨os, -, rfl⟩ := map_eq_ok_iff.mp h
    rfl

theorem location_of_ofLine {location : Location} {line : Bytes} {statements : List Statement}
    (h : ofLine location line = .ok statements) :
    ∀ s ∈ statements, ∃ column, s.location = location.atColumn column := by
  intro s hs
  obtain ⟨tokens, -, ⟨t, -, rfl⟩ | ⟨mnemonic, -, hinstruction⟩⟩ := cases_of_mem_ofLine h hs
  · exact ⟨t.column, rfl⟩
  · exact ⟨mnemonic.column, location_of_ofMnemonic hinstruction⟩

/-- The statement is one of those that are read from this line, as the line of this number. -/
def ReadFrom (file : UInt32) (number : Nat) (line : Bytes) (s : Statement) : Prop :=
  ∃ statements, ofLine { file, line := number.toUInt32 } line = .ok statements ∧ s ∈ statements

namespace ReadFrom

variable {file : UInt32} {number : Nat} {line : Bytes} {s : Statement}

theorem location_eq (h : s.ReadFrom file number line) :
    s.location.file = file ∧ s.location.line = number.toUInt32 := by
  obtain ⟨statements, hstatements, hs⟩ := h
  obtain ⟨column, hlocation⟩ := location_of_ofLine hstatements s hs
  rw [hlocation]
  exact ⟨rfl, rfl⟩

theorem line_ne_nil (h : s.ReadFrom file number line) : line ≠ [] := by
  rintro rfl
  obtain ⟨statements, hstatements, hs⟩ := h
  cases hstatements
  cases hs

end ReadFrom

end Statement

/-! ### The statements of a text -/

namespace Reading

theorem exists_readFrom_of_ofLines (file : UInt32) : ∀ (number : Nat) (lines : List Bytes),
    ∀ s ∈ (ofLines file number lines).program,
      ∃ k line, lines[k]? = some line ∧ s.ReadFrom file (number + k) line
  | _, [] => fun s hs => by cases hs
  | number, line :: lines => by
    have ih : ∀ s ∈ (ofLines file (number + 1) lines).program,
        ∃ k later, (line :: lines)[k]? = some later ∧ s.ReadFrom file (number + k) later := by
      intro s hs
      obtain ⟨k, later, hlater, hread⟩ := exists_readFrom_of_ofLines file (number + 1) lines s hs
      refine ⟨k + 1, later, hlater, ?_⟩
      rwa [Nat.add_comm k, ← Nat.add_assoc]
    intro s hs
    rw [ofLines] at hs
    split at hs
    · rename_i statements hstatements
      rcases List.mem_append.mp hs with hs | hs
      · exact ⟨0, line, rfl, statements, hstatements, hs⟩
      · exact ih s hs
    · exact ih s hs

/-- A statement of a text is read from one of its lines; they are counted from 1. -/
theorem exists_readFrom_of_ofSource (file : UInt32) (source : Bytes) :
    ∀ s ∈ (ofSource file source).program,
      ∃ k line, source.lines[k]? = some line ∧ s.ReadFrom file (k + 1) line := by
  intro s hs
  obtain ⟨k, line, hline, hread⟩ := exists_readFrom_of_ofLines file 1 source.lines s hs
  exact ⟨k, line, hline, Nat.add_comm 1 k ▸ hread⟩

end Reading

/-- **A statement of an assembled program was read from the line that it names**, and linking has
put addresses in place of its labels since. -/
theorem Program.exists_readFrom_of_assemble {file : UInt32} {source : Bytes} {p : Program}
    (h : assemble file source = .ok p) (hlines : source.lines.length < 2 ^ 32) :
    ∀ s ∈ p, ∃ k line t, source.lines[k]? = some line ∧ Statement.ReadFrom file (k + 1) line t ∧
      s = t.linked (Reading.ofSource file source).program ∧
      s.location.file = file ∧ s.location.line.toNat = k + 1 := by
  obtain ⟨-, hlink⟩ := assemble_eq_ok_iff.mp h
  obtain ⟨-, -, rfl⟩ := link_eq_ok_iff.mp hlink
  intro s hs
  obtain ⟨t, ht, rfl⟩ := List.mem_map.mp hs
  obtain ⟨k, line, hline, hread⟩ :=
    Reading.exists_readFrom_of_ofSource file source t (List.mem_of_mem_filter ht)
  obtain ⟨hfile, hnumber⟩ := hread.location_eq
  have hk : k < source.lines.length := (List.getElem?_eq_some_iff.mp hline).1
  refine ⟨k, line, t, hline, hread, rfl, hfile, ?_⟩
  show t.location.line.toNat = k + 1
  rw [hnumber, Nat.toUInt32_eq, UInt32.toNat_ofNat']
  exact Nat.mod_eq_of_lt (by omega)

end RegisterMachine
