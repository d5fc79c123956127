/-
# No input is of both kinds

An input is taken for a bytecode file if it begins with the magic number, and
for a source text if not. Nothing is lost by that. A bytecode file that is
accepted begins with the magic number, since that is the first number of its
header. A text that begins with it is never assembled, whatever follows: the
magic number is `RVM` and the byte 1, and none of the four ends a line, a
comment or a word, so they begin the first word of the first line. That word is
then a label or a mnemonic with a byte in it that is in neither.

So the argument is about first words (`LineTokens.exists_token_of_ofLine`): what
a line begins with, up to a byte that ends a word, begins the name or the
mnemonic that is read there, and both are words of letters, digits and
underscores.

Key definitions: `LineTokens.endsWord`, `Image.magicBytes`.
Key theorems: `LineTokens.exists_token_of_ofLine`,
`Statement.isWordByte_of_ofLine`, `Image.hasMagic_iff`,
`Image.hasMagic_of_ofBytes`, `Program.assemble_of_hasMagic`,
`SourceFile.program_of_kind`.
-/
import RegisterMachine.Command.Input
import RegisterMachine.Proofs.Assembling
import RegisterMachine.Proofs.Images
import RegisterMachine.Proofs.Listing

namespace RegisterMachine

/-! ### The first line -/

/-- What a text begins with is what its first line begins with, if no line ends there. -/
theorem Bytes.exists_lines_append {a : Bytes} (hnewline : newline ∉ a)
    (hreturn : carriageReturn ∉ a) (rest : Bytes) :
    ∃ behind others, lines (a ++ rest) = (a ++ behind) :: others := by
  have hwithout (piece : Bytes) : ∃ behind, withoutReturn (a ++ piece) = a ++ behind := by
    unfold withoutReturn
    split
    · rename_i hlast
      have hpiece : piece ≠ [] := by
        rintro rfl
        rw [List.append_nil] at hlast
        exact hreturn (List.mem_of_getLast? hlast)
      exact ⟨piece.dropLast, List.dropLast_append_of_ne_nil hpiece⟩
    · exact ⟨piece, rfl⟩
  by_cases h : newline ∈ rest
  · obtain ⟨piece, after, rfl, hpiece⟩ := List.eq_append_cons_of_mem h
    have hnone : newline ∉ a ++ piece := by simp [hnewline, hpiece]
    obtain ⟨behind, hbehind⟩ := hwithout piece
    refine ⟨behind, lines after, ?_⟩
    rw [lines, ← List.append_assoc, List.splitOn_append_cons_self_of_not_mem hnone, List.map_cons,
      hbehind]
    rfl
  · have hnone : newline ∉ a ++ rest := by simp [hnewline, h]
    obtain ⟨behind, hbehind⟩ := hwithout rest
    refine ⟨behind, [], ?_⟩
    rw [lines, List.splitOn_eq_singleton hnone, List.map_singleton, hbehind]

/-! ### The first word -/

namespace LineTokens

/-- The bytes that end the first word of a line, or the line itself. -/
def endsWord (b : UInt8) : Bool := Ascii.isBlank b || b == colon || b == comma || b == semicolon

/-- What a text begins with begins its first word, if no word ends there. -/
theorem prefix_of_append_eq {a word x y : Bytes} (h : a ++ x = word ++ y)
    (hends : ∀ b ∈ y.head?, b ∉ a) : a <+: word := by
  rcases List.append_eq_append_iff.mp h with ⟨more, rfl, -⟩ | ⟨more, ha, hy⟩
  · exact List.prefix_append a more
  · cases more with
    | nil => simp [ha]
    | cons b more =>
      rw [hy] at hends
      exact absurd (by simp [ha]) (hends b rfl)

/-- What a line begins with begins its label or its mnemonic, if no word ends there. -/
theorem exists_token_of_ofLine {a rest : Bytes} (hne : a ≠ []) (ha : ∀ b ∈ a, endsWord b = false)
    {tokens : LineTokens} (h : ofLine (a ++ rest) = .ok tokens) :
    ∃ token : Token, (tokens.label = some token ∨ tokens.mnemonic = some token) ∧
      a <+: token.text := by
  have hnone {b : UInt8} (hb : endsWord b = true) : b ∉ a := fun hmem => by
    rw [ha b hmem] at hb
    cases hb
  have hcomment : withoutComment (a ++ rest) = a ++ withoutComment rest := by
    refine List.takeWhile_append_of_pos fun b hb => ?_
    have hsemicolon : b ≠ semicolon := by
      rintro rfl
      exact hnone (by decide) hb
    simp [hsemicolon]
  obtain ⟨f, hf, hbytes, rfl⟩ := exists_form_of_ofLine h
  rw [hcomment] at hbytes
  have hlead : f.lead = [] := by
    cases hcons : f.lead with
    | nil => rfl
    | cons b lead =>
      have hhead := congrArg List.head? hbytes
      rw [List.head?_append_of_ne_nil _ hne] at hhead
      have hb : a.head? = some b := by
        rw [← hhead]
        simp [LineForm.bytes, LineForm.front, hcons]
      have hblank := hf.lead b (by simp [hcons])
      exact absurd (List.mem_of_mem_head? hb) (hnone (by simp [endsWord, hblank]))
  cases hlabel : f.label with
  | some l =>
    have hplace : a ++ withoutComment rest = l.name ++ colon ::
        (l.gap ++ ((f.instruction.map InstructionForm.bytes).getD [] ++ f.trail)) := by
      simp [← hbytes, LineForm.bytes, LineForm.front, hlead, hlabel, LabelForm.bytes]
    refine ⟨.atOffset f.lead.length l.name, Or.inl (by simp [LineForm.tokens, hlabel]), ?_⟩
    exact prefix_of_append_eq hplace (by simpa using hnone (b := colon) (by decide))
  | none =>
    cases hi : f.instruction with
    | none =>
      obtain ⟨b, hb⟩ := List.exists_mem_of_ne_nil a hne
      have htrail : f.bytes = f.trail := by
        simp [LineForm.bytes, LineForm.front, hlead, hlabel, hi]
      have hmem : b ∈ f.trail := by
        rw [← htrail, hbytes]
        exact List.mem_append_left _ hb
      exact absurd hb (hnone (by simp [endsWord, hf.trail b hmem]))
    | some i =>
      have hform := hf.instruction i hi
      have hplace : a ++ withoutComment rest =
          i.mnemonic ++ (Slot.joined i.operands ++ f.trail) := by
        simp [← hbytes, LineForm.bytes, LineForm.front, hlead, hlabel, hi, InstructionForm.bytes]
      refine ⟨.atOffset f.front.length i.mnemonic, Or.inr (by simp [LineForm.tokens, hi]), ?_⟩
      refine prefix_of_append_eq hplace fun b hb => hnone ?_
      rcases (Slot.gap_iff hform.operands hf.trail).mp hform.gap b hb with hblank | rfl
      · simp [endsWord, hblank]
      · rfl

end LineTokens

theorem Operation.isWord_of_ofMnemonic? {text : Bytes} {operation : Operation}
    (h : ofMnemonic? text = some operation) : Ascii.IsWord text := by
  have hname : operation.name = text.map Ascii.lower := by simpa using List.find?_some h
  have hword := operation.isWord_name
  rw [hname] at hword
  refine ⟨fun hnil => hword.1 (by rw [hnil]; rfl), fun b hb => ?_⟩
  have hlower := hword.2 (Ascii.lower b) (List.mem_map_of_mem hb)
  unfold Ascii.lower at hlower
  split at hlower
  · rename_i hcapital
    simp [Ascii.isWordByte, Ascii.isLetter, hcapital]
  · exact hlower

theorem Statement.isWordByte_of_ofLine {location : Location} {a rest : Bytes}
    (ha : ∀ b ∈ a, LineTokens.endsWord b = false) {statements : List Statement}
    (h : ofLine location (a ++ rest) = .ok statements) : ∀ b ∈ a, Ascii.isWordByte b = true := by
  intro b hb
  have hne : a ≠ [] := List.ne_nil_of_mem hb
  unfold ofLine at h
  split at h
  · cases h
  · rename_i tokens htokens
    obtain ⟨token, htoken, hprefix⟩ := LineTokens.exists_token_of_ofLine hne ha htokens
    have hmem : b ∈ token.text := hprefix.subset hb
    rcases htoken with hlabel | hmnemonic
    · have hname := LineTokens.isIdentifier_of_ofLine htokens token hlabel
      exact (Ascii.isWord_of_isIdentifier hname).2 b hmem
    · simp only [hmnemonic] at h
      obtain ⟨instruction, hinstruction, -⟩ := map_eq_ok_iff.mp h
      have hoperation := operation_of_ofMnemonic hinstruction
      exact (Operation.isWord_of_ofMnemonic? hoperation).2 b hmem

/-! ### The magic number -/

namespace Image

/-- The bytes that a bytecode file begins with. -/
def magicBytes : Bytes := ascii "RVM" ++ [1]

theorem hasMagic_iff (content : Bytes) : hasMagic content = true ↔ magicBytes <+: content := by
  have hbytes : littleEndian 4 bytecodeMagic = magicBytes := by decide
  have hnumber : ofLittleEndian magicBytes = bytecodeMagic := by decide
  have hlength : magicBytes.length = 4 := by decide
  rw [hasMagic, Bool.and_eq_true, decide_eq_true_eq, beq_iff_eq, List.prefix_iff_eq_take, hlength]
  constructor
  · rintro ⟨hfour, hmagic⟩
    have htake : (content.take 4).length = 4 := List.length_take_of_le hfour
    have hread := littleEndian_ofLittleEndian (content.take 4) (Nat.le_of_eq htake)
    rwa [htake, hmagic, hbytes] at hread
  · intro htake
    refine ⟨?_, by rw [← htake, hnumber]⟩
    have hfour := congrArg List.length htake
    rw [hlength, List.length_take] at hfour
    omega

theorem hasMagic_of_ofBytes {content : Bytes} {image : Image} (h : ofBytes content = .ok image) :
    hasMagic content = true := by
  simp only [ofBytes, guard_eq_ok_iff, not_not, Nat.not_lt] at h
  obtain ⟨hheader, hmagic, -⟩ := h
  have hfour : 4 ≤ content.length := Nat.le_trans (by decide) hheader
  rw [List.drop_zero] at hmagic
  simp [hasMagic, hfour, hmagic]

end Image

/-- No text that begins with the magic number is assembled. -/
theorem Program.assemble_of_hasMagic {content : Bytes} (h : Image.hasMagic content = true)
    (file : UInt32) : ∃ rejection, assemble file content = .error rejection := by
  obtain ⟨rest, rfl⟩ := (Image.hasMagic_iff content).mp h
  rw [exists_eq_error_iff]
  intro program hprogram
  obtain ⟨hdiagnostics, -⟩ := assemble_eq_ok_iff.mp hprogram
  have hword : ∀ b ∈ Image.magicBytes, LineTokens.endsWord b = false := by
    have hall : Image.magicBytes.all (fun b => !LineTokens.endsWord b) = true := by decide
    simpa using hall
  obtain ⟨behind, others, hlines⟩ :=
    Bytes.exists_lines_append (a := Image.magicBytes) (by decide) (by decide) rest
  rw [Reading.ofSource, hlines, Reading.ofLines] at hdiagnostics
  split at hdiagnostics
  · rename_i statements hstatements
    have hbyte := Statement.isWordByte_of_ofLine hword hstatements 1 (by decide)
    cases hbyte
  · cases hdiagnostics

namespace SourceFile

/-- **An input is of one kind only, and is taken for that.** A text with the magic number is not
assembled, and a bytecode file that is accepted has it. So an input that can be assembled has no
magic number and is assembled, and an input that is accepted as a bytecode file is decoded. -/
theorem program_of_kind (source : SourceFile) :
    (Image.hasMagic source.content = true →
      ∀ file, ∃ rejection, Program.assemble file source.content = .error rejection) ∧
    (∀ image, Image.ofBytes source.content = .ok image →
      Image.hasMagic source.content = true ∧
        source.program = (Word.decodeAll image.code).mapError (·.render none)) ∧
    ∀ file p, Program.assemble file source.content = .ok p →
      Image.hasMagic source.content = false ∧ source.program = source.assemble := by
  refine ⟨Program.assemble_of_hasMagic, fun image himage => ?_, fun file p hp => ?_⟩
  · have hmagic := Image.hasMagic_of_ofBytes himage
    have hdecode : decodeFile source.content = Word.decodeAll image.code := by
      rw [decodeFile, himage]
    refine ⟨hmagic, ?_⟩
    rw [program, if_pos hmagic, hdecode]
    cases Word.decodeAll image.code <;> rfl
  · have hmagic : ¬ Image.hasMagic source.content = true := by
      intro hmagic
      obtain ⟨rejection, hrejection⟩ := Program.assemble_of_hasMagic hmagic file
      rw [hp] at hrejection
      cases hrejection
    exact ⟨by simpa using hmagic, by rw [program, if_neg hmagic]⟩

/-- A text that goes on behind the magic number as a label does, a bytecode file with a word that is
none, and a text with the magic number in a comment. -/
theorem program_of_kind_of_label :
    let registry : Registry := { paths := [ascii "input"] }
    let labelled : SourceFile :=
      { content := Image.magicBytes ++ ascii ": halt\nhalt\n", registry, file := 1 }
    let bytecode : SourceFile :=
      { content := Image.magicBytes ++ [1, 0, 0, 0, 1, 0, 0, 0, 0xFF, 0xFF, 0xFF], registry
        file := 1 }
    let commented : SourceFile :=
      { content := ascii "halt ;" ++ Image.magicBytes, registry, file := 1 }
    let halting : Program :=
      [{ operation := .halt, location := { file := 1, line := 1, column := 1 } }]
    Image.hasMagic labelled.content = true ∧
      (∃ rejection, Program.assemble 1 labelled.content = .error rejection) ∧
      Image.ofBytes bytecode.content = .ok { code := [0xFFFFFF] } ∧
      bytecode.program = (Word.decodeAll [0xFFFFFF]).mapError (·.render none) ∧
      Program.assemble 1 commented.content = .ok halting ∧
      commented.program = commented.assemble := by
  intro registry labelled bytecode commented halting
  have hmagic : Image.hasMagic labelled.content = true := by decide
  have himage : Image.ofBytes bytecode.content = .ok { code := [0xFFFFFF] } := by decide
  have hassemble : Program.assemble 1 commented.content = .ok halting := by decide
  exact ⟨hmagic, (program_of_kind labelled).1 hmagic 1, himage,
    ((program_of_kind bytecode).2.1 _ himage).2, hassemble,
    ((program_of_kind commented).2.2 1 halting hassemble).2⟩

end SourceFile
end RegisterMachine
