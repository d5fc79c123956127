/-
# Text as bytes

Every text the machine reads or prints (program source, names, messages, file
contents) is a list of bytes with no encoding attached: `Bytes`. `ascii` turns
a fixed text of the program into its bytes. There are two ways to cut a text
into lines: in a source text what follows the last newline is a line even if
it is empty, in a text file a final newline only ends the last line; they
differ in that one empty line.

Key definitions: `Bytes`, `ascii`, `quoted`, `Bytes.lines`, `Bytes.fileLines`.
Key lemmas: `Bytes.not_mem_of_mem_splitOn`, `Bytes.lines_eq_fileLines`.
-/

namespace RegisterMachine

/-- A text, as the list of its bytes. -/
abbrev Bytes := List UInt8

/-- The bytes of a fixed text. -/
def ascii (s : String) : Bytes := s.toUTF8.data.toList

/-- The text between single quotes, as messages show a part of the input. -/
def quoted (text : Bytes) : Bytes := 39 :: text ++ [39]

namespace Bytes

/-- The byte that ends a line. -/
def newline : UInt8 := 10

/-- The byte that may stand before a newline and belongs to the line's end then. -/
def carriageReturn : UInt8 := 13

/-- A line without the one carriage return that may end it. -/
def withoutReturn (line : Bytes) : Bytes :=
  if line.getLast? = some carriageReturn then line.dropLast else line

/-- The lines of a source text: what stands after the last newline is a line too. -/
def lines (text : Bytes) : List Bytes := (text.splitOn newline).map withoutReturn

/-- The lines of a text file: a final newline ends the last line and begins no other. -/
def fileLines (text : Bytes) : List Bytes :=
  let pieces := text.splitOn newline
  (if pieces.getLast? = some [] then pieces.dropLast else pieces).map withoutReturn

/-- No piece of a text holds the byte at which the text was cut. -/
theorem not_mem_of_mem_splitOn (separator : UInt8) : ∀ (text : Bytes) {piece : Bytes},
    piece ∈ text.splitOn separator → separator ∉ piece
  | [], piece, h => by
    rw [List.splitOn_nil, List.mem_singleton] at h
    rw [h]
    exact List.not_mem_nil
  | b :: rest, piece, h => by
    obtain ⟨first, others, hrest⟩ := List.exists_cons_of_ne_nil (List.splitOn_ne_nil separator rest)
    have ih {p : Bytes} (hp : p ∈ first :: others) : separator ∉ p :=
      not_mem_of_mem_splitOn separator rest (hrest ▸ hp)
    rw [List.splitOn_cons_eq_if_modifyHead, hrest, List.modifyHead_cons] at h
    split at h
    · rcases List.mem_cons.mp h with rfl | h
      · exact List.not_mem_nil
      · exact ih h
    · rename_i hb
      rcases List.mem_cons.mp h with rfl | h
      · rw [List.mem_cons, not_or]
        exact ⟨fun heq => hb (by simp [heq]), ih List.mem_cons_self⟩
      · exact ih (List.mem_cons_of_mem _ h)

/-- The two ways to cut a text differ only in an empty last line. -/
theorem lines_eq_fileLines (text : Bytes) :
    lines text = fileLines text ∨ lines text = fileLines text ++ [[]] := by
  simp only [lines, fileLines]
  by_cases h : (text.splitOn newline).getLast? = some []
  · have hne : text.splitOn newline ≠ [] := by simp
    have hlast : (text.splitOn newline).getLast hne = [] := by
      simpa [List.getLast?_eq_some_getLast hne] using h
    have hsplit := List.dropLast_concat_getLast hne
    rw [hlast] at hsplit
    rw [if_pos h]
    right
    conv => lhs; rw [← hsplit]
    simp [withoutReturn]
  · rw [if_neg h]
    exact Or.inl rfl

end Bytes
end RegisterMachine
