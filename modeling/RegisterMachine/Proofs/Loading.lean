/-
# The two ways to load a program

A program is assembled from a source text or decoded from a bytecode file.
Either way it is a list of instructions that fit into words, no more than a
program may have. A file has exactly one such list: its words are the words of
the instructions, and its bytes are those that are written for these words.

Key definitions: `Program.Loaded`.
Key theorems: `Program.means_of_decodeAll`, `Program.Loaded.means`.
-/
import RegisterMachine.Command.Input
import RegisterMachine.Proofs.Assembling
import RegisterMachine.Proofs.Encoding
import RegisterMachine.Proofs.Images

namespace RegisterMachine

theorem decodeFile_eq_ok_iff {content : Bytes} {p : Program} : decodeFile content = .ok p ↔
    ∃ image, Image.ofBytes content = .ok image ∧ Word.decodeAll image.code = .ok p := by
  unfold decodeFile
  cases Image.ofBytes content <;> simp

namespace Program

/-- The programs that are assembled from a source text or decoded from a bytecode file. -/
inductive Loaded : Program → Prop
  | assembled {file : UInt32} {source : Bytes} {p : Program} (h : assemble file source = .ok p) :
    Loaded p
  | decoded {content : Bytes} {p : Program} (h : decodeFile content = .ok p) : Loaded p

/-- A decoded file is laid out from the words of the instructions that are its program. -/
theorem means_of_decodeAll {content : Bytes} {image : Image} {p : Program}
    (himage : Image.ofBytes content = .ok image) (hp : Word.decodeAll image.code = .ok p) :
    ∃ is, p.Means is ∧ p.length ≤ maxProgramLength ∧
      image = { code := is.map Instruction.word } ∧ content = image.layout := by
  obtain ⟨code, rfl, hwritable, rfl⟩ := Image.layout_of_ofBytes himage
  obtain ⟨is, hmeans, rfl⟩ := Word.means_of_decodeFrom hp
  have hlength := hwritable.1
  rw [List.length_map, ← hmeans.length_eq] at hlength
  exact ⟨is, hmeans, hlength, rfl, rfl⟩

theorem Means.writable {p : Program} {is : List Instruction} (h : p.Means is)
    (hlength : p.length ≤ maxProgramLength) : Image.Writable (is.map Instruction.word) := by
  refine ⟨?_, fun w hw => ?_⟩
  · rwa [List.length_map, ← h.length_eq]
  · obtain ⟨i, hi, rfl⟩ := List.mem_map.mp hw
    exact Instruction.fits_word (Means.fits h i hi)

/-- **A loaded program is a list of instructions that fit into words**, no more than a program may
have. -/
theorem Loaded.means {p : Program} (h : p.Loaded) :
    (∃ is, p.Means is) ∧ p.length ≤ maxProgramLength := by
  cases h with
  | assembled h => exact means_of_assemble h
  | decoded h =>
    obtain ⟨image, himage, hp⟩ := decodeFile_eq_ok_iff.mp h
    obtain ⟨is, hmeans, hlength, -⟩ := means_of_decodeAll himage hp
    exact ⟨⟨is, hmeans⟩, hlength⟩

end Program
end RegisterMachine
