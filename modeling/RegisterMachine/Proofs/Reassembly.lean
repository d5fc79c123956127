/-
# A disassembled file is assembled to itself

A file that is accepted and decoded has one program; the listing of this
program, with addresses or without, is assembled to the same words, and these
are written to the same bytes. The stages have their inverses elsewhere: files
and words in `Program.means_of_decodeAll`, listings in
`Reading.ofSource_of_shownBy`. What joins them is that the program read from
the listing is the same list of instructions as the one that was decoded.

Key theorems: `Program.assemble_of_shownBy`.
-/
import RegisterMachine.Proofs.Listing
import RegisterMachine.Proofs.Loading

namespace RegisterMachine

namespace Statement

theorem Means.wellFormed {s : Statement} {i : Instruction} (h : s.Means i) : s.WellFormed := by
  obtain ⟨hop, hoperands, hlabel⟩ := (agrees_iff _ _).mp h.1
  rw [wellFormed_iff, hop, hoperands, hlabel, ← wellFormed_iff]
  exact Instruction.wellFormed_statement h.2

theorem Means.of_agrees {s t : Statement} {i : Instruction} (h : s.Means i)
    (hts : t.agrees s = true) : t.Means i := ⟨agrees_trans hts h.1, h.2⟩

end Statement

namespace Program

theorem Means.of_agrees : ∀ {p q : Program} {is : List Instruction}, p.Means is →
    List.Forall₂ (fun t s => t.agrees s = true) q p → q.Means is
  | _, _, _, .nil, .nil => .nil
  | _, _, _, .cons hs h, .cons hts hq => .cons (hs.of_agrees hts) (Means.of_agrees h hq)

theorem Means.wellFormed {p : Program} {is : List Instruction} (h : p.Means is) :
    ∀ s ∈ p, s.WellFormed := fun s hs => by
  obtain ⟨i, hi⟩ := Means.exists_of_mem h s hs
  exact hi.wellFormed

/-- Lines that show a list of instructions are assembled to the same instructions. -/
theorem assemble_of_shownBy (file : UInt32) {p : Program} {is : List Instruction}
    (hmeans : p.Means is) (hlength : p.length ≤ maxProgramLength) {lines : List Bytes}
    (hlines : List.Forall₂ Statement.ShownBy p lines) :
    ∃ q, assemble file (lines.flatMap (· ++ [Bytes.newline])) = .ok q ∧ q.Means is := by
  obtain ⟨hdiagnostics, hagrees⟩ := Reading.ofSource_of_shownBy file hlines
  have hq := Means.of_agrees hmeans hagrees
  have hlink := link_of_means hq (by rwa [hagrees.length_eq])
  exact ⟨_, assemble_eq_ok_iff.mpr ⟨hdiagnostics, hlink⟩, hq⟩

/-- **The listing of a decoded file is assembled to the words of the file, and they are written to
the bytes of the file.** -/
theorem encode_assemble_listing {content : Bytes} {image : Image} {p : Program}
    (himage : Image.ofBytes content = .ok image) (hp : Word.decodeAll image.code = .ok p)
    (file : UInt32) {text : Bytes} (htext : text = p.listing ∨ text = p.addressedListing) :
    ∃ q, assemble file text = .ok q ∧ q.encode = .ok image.code ∧
      Image.toBytes { code := image.code } = .ok content := by
  obtain ⟨is, hmeans, hlength, rfl, rfl⟩ := means_of_decodeAll himage hp
  obtain ⟨lines, hlines, rfl⟩ := exists_shownBy (Means.wellFormed hmeans) htext
  obtain ⟨q, hassemble, hq⟩ := assemble_of_shownBy file hmeans hlength hlines
  have hwritable := Means.writable hmeans hlength
  exact ⟨q, hassemble, encode_of_means hq, Image.toBytes_of_writable hwritable⟩

/-- A file with the words of `nop`, of `mv`, of an addition of 255 and of a branch to the last
address, all but the last under one opcode. -/
theorem encode_assemble_listing_of_additions :
    let content : Bytes :=
      [0x52, 0x56, 0x4D, 0x01, 1, 0, 0, 0, 4, 0, 0, 0,
        0x01, 0x00, 0x00, 0x01, 0x32, 0x00, 0x01, 0x11, 0xFF, 0x8B, 0xF0, 0xFF]
    let image : Image := { code := [0x000001, 0x003201, 0xFF1101, 0xFFF08B] }
    let p : Program :=
      [{ operation := .nop }, { operation := .mv, operands := [.register 2, .register 3] },
        { operation := .addi, operands := [.register 1, .register 1, .immediate 255] },
        { operation := .bnz, operands := [.address 4095] }]
    Image.ofBytes content = .ok image ∧ Word.decodeAll image.code = .ok p ∧
      ∃ q, assemble 1 p.addressedListing = .ok q ∧ q.encode = .ok image.code ∧
        Image.toBytes { code := image.code } = .ok content :=
  ⟨by decide, by decide, encode_assemble_listing (by decide) (by decide) 1 (Or.inr rfl)⟩

end Program
end RegisterMachine
