/-
# Listings are read back

A line of a listing gives the statement that it was written for, and nothing
else: `Statement.ShownBy`. That holds of the plain line and of the one with an
address in a comment behind it, however long the statement is, and it holds of
labels that have the name of a register or of an operation, since the place
of an operand alone decides how it is read.

A listing is made of lines of words. The operands of such a line stand between
commas, each behind one space, so the line has a form with the words for its
parts (`LineTokens.ofLine_instruction`), whatever blanks stand behind it.

No line of a listing has a byte below 32 in it, so cutting the listing at its
newlines gives the lines that it was made of, and the last one of them is empty
(`Bytes.lines_flatMap`). The induction over the program is the one of
`Reading.ofLines_of_shownBy`.

Key definitions: `Statement.ShownBy`, `Statement.hasIdentifiers`,
`LineTokens.written`, `LineTokens.arguments`, `LineTokens.slots`.
Key theorems: `LineTokens.ofLine_definition`, `LineTokens.ofLine_instruction`,
`Statement.forall_line`, `Statement.WellFormed.shownBy_line`,
`Statement.WellFormed.shownBy_addressed`, `Bytes.lines_flatMap`,
`Reading.ofSource_of_shownBy`, `Program.exists_shownBy`.
-/
import RegisterMachine.Proofs.Grammar
import RegisterMachine.Proofs.Operands

namespace RegisterMachine

/-- The line is read as this statement and nothing else, at any place of a source text. -/
structure Statement.ShownBy (s : Statement) (line : Bytes) : Prop where
  printable : ∀ b ∈ line, 32 ≤ b
  read : ∀ location, ∃ t, Statement.ofLine location line = .ok [t] ∧ t.agrees s = true

/-! ### The words of a line -/

theorem Operation.isWord_name (op : Operation) : Ascii.IsWord op.name := by
  cases op <;> decide

theorem Numeral.isWord_decimal (n : Nat) : Ascii.IsWord (decimal n) := by
  refine ⟨decimal_ne_nil n, fun b hb => ?_⟩
  simp [Ascii.isWordByte, isDigit_of_mem_decimal n b hb]

/-- The operand is the name of a label only if this is an identifier. -/
def Operand.hasIdentifier : Operand → Bool
  | .label name => Ascii.isIdentifier name
  | .register _ | .immediate _ | .address _ => true

/-- The labels that the statement names or defines are identifiers. -/
def Statement.hasIdentifiers (s : Statement) : Bool :=
  if s.isInstruction then s.operands.all Operand.hasIdentifier else Ascii.isIdentifier s.label

theorem Statement.isInstruction_iff {s : Statement} :
    s.isInstruction = true ↔ s.operation ≠ .label := by
  simp [isInstruction]

theorem Shape.Takes.hasIdentifier {shape : Shape} {o : Operand} (h : shape.Takes o) :
    o.hasIdentifier = true := by
  cases o with
  | label name => exact h.2
  | register _ | immediate _ | address _ => rfl

theorem Statement.WellFormed.hasIdentifiers {s : Statement} (h : s.WellFormed) :
    s.hasIdentifiers = true := by
  cases h with
  | definition _ hname => exact hname
  | @instruction operation operands location hop hoperands =>
    have hinstruction : isInstruction { operation, operands, location } = true :=
      isInstruction_iff.mpr hop
    rw [Statement.hasIdentifiers, if_pos hinstruction, List.all_eq_true]
    intro o ho
    obtain ⟨_, -, htakes⟩ := exists_left_of_forall₂ hoperands o ho
    exact htakes.hasIdentifier

theorem Operand.isWord_text {o : Operand} (h : o.hasIdentifier = true) : Ascii.IsWord o.text := by
  cases o with
  | register index =>
    refine ⟨List.cons_ne_nil _ _, fun b hb => ?_⟩
    rcases List.mem_cons.mp hb with rfl | hb
    · decide
    · exact (Numeral.isWord_decimal _).2 b hb
  | immediate value | address value => exact Numeral.isWord_decimal _
  | label name => exact Ascii.isWord_of_isIdentifier h

theorem Shape.isWord_text_of_takes {shapes : List Shape} {operands : List Operand}
    (h : List.Forall₂ Takes shapes operands) : ∀ o ∈ operands, Ascii.IsWord o.text := by
  intro o ho
  obtain ⟨shape, -, htakes⟩ := exists_left_of_forall₂ h o ho
  exact Operand.isWord_text htakes.hasIdentifier

theorem Ascii.printable_of_isWordByte {b : UInt8} (h : isWordByte b = true) : 32 ≤ b := by
  rw [isWordByte_iff] at h
  rw [UInt8.le_iff_toNat_le]
  show 32 ≤ b.toNat
  omega

theorem Ascii.printable_of_isWord {text : Bytes} (h : IsWord text) : ∀ b ∈ text, 32 ≤ b :=
  fun b hb => printable_of_isWordByte (h.2 b hb)

/-! ### Lines of words -/

namespace LineTokens

open Ascii

/-- What operands look like between the mnemonic and the end of the line. -/
def written (operands : List Bytes) : Bytes := (ascii ", ").intercalate operands

/-- What stands behind the mnemonic of a line: its operands, if there are any. -/
def arguments (operands : List Bytes) : Bytes :=
  if operands = [] then [] else ascii " " ++ written operands

theorem forall_written {P : UInt8 → Prop} (hspace : P 32) (hcomma : P comma) :
    ∀ (operands : List Bytes), (∀ o ∈ operands, ∀ b ∈ o, P b) → ∀ b ∈ written operands, P b
  | [], _ => fun b hb => by cases hb
  | [o], ho => by
    rw [written, List.intercalate_singleton]
    exact ho o List.mem_cons_self
  | o :: p :: rest, ho => by
    have ih := forall_written hspace hcomma (p :: rest) fun q hq =>
      ho q (List.mem_cons_of_mem _ hq)
    have hseparator : ascii ", " = [comma, 32] := by decide
    intro b hb
    rw [written, List.intercalate_cons_cons, hseparator, List.mem_append, List.mem_append] at hb
    rcases hb with (hb | hb) | hb
    · exact ho o List.mem_cons_self b hb
    · rcases List.mem_cons.mp hb with rfl | hb
      · exact hcomma
      · rwa [List.mem_singleton.mp hb]
    · exact ih b hb

theorem forall_arguments {P : UInt8 → Prop} (hspace : P 32) (hcomma : P comma)
    {operands : List Bytes} (ho : ∀ o ∈ operands, ∀ b ∈ o, P b) :
    ∀ b ∈ arguments operands, P b := by
  intro b hb
  have hone : ascii " " = [32] := by decide
  rw [arguments, hone] at hb
  split at hb
  · cases hb
  · rcases List.mem_append.mp hb with hb | hb
    · rwa [List.mem_singleton.mp hb]
    · exact forall_written hspace hcomma operands ho b hb

/-- Written operands, each behind a space. -/
def slots (operands : List Bytes) : List Slot :=
  operands.map fun text => { before := ascii " ", text }

theorem wellFormed_of_mem_slots {operands : List Bytes} (ho : ∀ o ∈ operands, IsWord o) :
    ∀ s ∈ slots operands, s.WellFormed := by
  intro s hs
  obtain ⟨o, hmem, rfl⟩ := List.mem_map.mp hs
  have hword := ho o hmem
  exact ⟨allBlank_space, allBlank_nil, hword.1, hword.trimmed, not_mem_of_isWord hword (by decide)⟩

theorem joined_slots : ∀ operands : List Bytes, Slot.joined (slots operands) = arguments operands
  | [] => rfl
  | [o] => by
    simp [slots, Slot.joined_singleton, Slot.bytes, arguments, written]
  | o :: p :: rest => by
    have ih := joined_slots (p :: rest)
    rw [arguments, if_neg (List.cons_ne_nil _ _)] at ih
    have hcons : slots (o :: p :: rest) = { before := ascii " ", text := o } :: slots (p :: rest) :=
      rfl
    have hwritten : written (o :: p :: rest) = o ++ ascii ", " ++ written (p :: rest) :=
      List.intercalate_cons_cons
    have hseparator : ascii ", " = comma :: ascii " " := by decide
    have hne : slots (p :: rest) ≠ [] := List.cons_ne_nil _ _
    rw [hcons, Slot.joined_cons hne, ih, arguments,
      if_neg (List.cons_ne_nil _ _), hwritten, hseparator]
    simp [Slot.bytes]

/-- The line that defines a label has that label and nothing else. -/
theorem ofLine_definition {name : Bytes} (h : isIdentifier name = true) :
    ∃ tokens, ofLine (name ++ ascii ":") = .ok tokens ∧ tokens.parts = { label := some name } := by
  have hcolon : ascii ":" = [colon] := by decide
  have hsemicolon : semicolon ∉ name ++ [colon] := by
    rw [List.mem_append, not_or]
    exact ⟨not_mem_of_isWord (isWord_of_isIdentifier h) (by decide), by decide⟩
  let f : LineForm := { label := some { name } }
  have hf : f.WellFormed :=
    ⟨allBlank_nil, by simp [f, h, allBlank_nil], by simp [f], by simp [f], allBlank_nil⟩
  have hbytes : f.bytes = name ++ [colon] := by
    simp [f, LineForm.bytes, LineForm.front, LabelForm.bytes]
  refine ⟨f.tokens, ?_, f.parts_tokens⟩
  rw [hcolon]
  exact ofLine_of_form hf (hbytes.trans (withoutComment_of_not_mem hsemicolon).symm)

/-- A line with a word and words behind it, in blanks, has a mnemonic and operands. -/
theorem ofLine_instruction {lead word trail : Bytes} {operands : List Bytes}
    (hlead : AllBlank lead) (hword : IsWord word) (ho : ∀ o ∈ operands, IsWord o)
    (htrail : AllBlank trail) :
    ∃ tokens, ofLine (lead ++ (word ++ (arguments operands ++ trail))) = .ok tokens ∧
      tokens.parts = { mnemonic := some word, operands } := by
  have hsemicolon : semicolon ∉ lead ++ (word ++ (arguments operands ++ trail)) := by
    have harguments := forall_arguments (P := (· ≠ semicolon)) (by decide) (by decide)
      fun o hmem b hb => ne_of_isWordByte ((ho o hmem).2 b hb) (by decide)
    simp only [List.mem_append, not_or]
    exact ⟨not_mem_of_allBlank hlead rfl, not_mem_of_isWord hword (by decide),
      fun hmem => harguments _ hmem rfl, not_mem_of_allBlank htrail rfl⟩
  let i : InstructionForm := { mnemonic := word, operands := slots operands }
  let f : LineForm := { lead, instruction := some i, trail }
  have hi : i.WellFormed := by
    refine ⟨hword.1, fun b hb => ?_, wellFormed_of_mem_slots ho, fun s hs => ?_⟩
    · exact ⟨isBlank_of_isWordByte (hword.2 b hb), ne_of_isWordByte (hword.2 b hb) (by decide)⟩
    · obtain ⟨o, -, rfl⟩ := List.mem_map.mp (List.mem_of_mem_head? hs)
      exact List.cons_ne_nil _ _
  have hf : f.WellFormed := by
    refine ⟨hlead, by simp [f], ?_, ?_, htrail⟩
    · rintro j ⟨⟩
      exact hi
    · rintro - j ⟨⟩
      exact not_mem_of_isWord hword (by decide)
  have hbytes : f.bytes = lead ++ (word ++ (arguments operands ++ trail)) := by
    simp [f, i, LineForm.bytes, LineForm.front, InstructionForm.bytes, joined_slots]
  have hcut : f.bytes = withoutComment (lead ++ (word ++ (arguments operands ++ trail))) := by
    rw [hbytes, withoutComment_of_not_mem hsemicolon]
  refine ⟨f.tokens, ofLine_of_form hf hcut, ?_⟩
  rw [f.parts_tokens]
  simp [f, i, LineForm.parts, slots, Function.comp_def]

end LineTokens

/-! ### The lines of a listing -/

namespace Statement

theorem line_instruction {s : Statement} (hs : s.isInstruction = true) : s.line =
    ascii "  " ++ (s.operation.name ++ LineTokens.arguments (s.operands.map Operand.text)) := by
  simp only [line, hs, if_true, text, isInstruction_iff.mp hs, if_false, LineTokens.arguments,
    LineTokens.written, List.map_eq_nil_iff]

theorem line_definition {s : Statement} (hs : s.isInstruction = false) :
    s.line = s.label ++ ascii ":" := by
  have hop : s.operation = .label := by simpa [isInstruction] using hs
  rw [line, hs, if_neg Bool.false_ne_true, text, if_pos hop]

theorem ofLine_definition {name : Bytes} (h : Ascii.isIdentifier name = true)
    (place location : Location) :
    ∃ t, ofLine location (define name place).line = .ok [t] ∧
      t.agrees (define name place) = true := by
  obtain ⟨tokens, htokens, hparts⟩ := LineTokens.ofLine_definition h
  obtain ⟨label, mnemonic, operands⟩ := tokens
  simp only [LineTokens.parts, LineParts.mk.injEq, Option.map_eq_some_iff,
    Option.map_eq_none_iff] at hparts
  obtain ⟨⟨token, rfl, rfl⟩, rfl, -⟩ := hparts
  have hline : (define token.text place).line = token.text ++ ascii ":" := rfl
  rw [hline, ofLine, htokens]
  exact ⟨_, rfl, by simp [agrees, define]⟩

/-- The line of an instruction is read as that instruction, whatever blanks stand behind it. -/
theorem ofLine_instruction {operation : Operation} {operands : List Operand}
    (hop : operation ≠ .label) (h : List.Forall₂ Shape.Takes operation.shapes operands)
    {trail : Bytes} (htrail : Ascii.AllBlank trail) (place location : Location) :
    ∃ t, ofLine location (line { operation, operands, location := place } ++ trail) = .ok [t] ∧
      t.agrees { operation, operands, location := place } = true := by
  have hwords : ∀ o ∈ operands.map Operand.text, Ascii.IsWord o := by
    intro o ho
    obtain ⟨o, hmem, rfl⟩ := List.mem_map.mp ho
    exact Shape.isWord_text_of_takes h o hmem
  have hindent : Ascii.AllBlank (ascii "  ") := by decide
  obtain ⟨tokens, htokens, hparts⟩ :=
    LineTokens.ofLine_instruction hindent operation.isWord_name hwords htrail
  obtain ⟨label, mnemonic, arguments⟩ := tokens
  simp only [LineTokens.parts, LineParts.mk.injEq, Option.map_eq_some_iff,
    Option.map_eq_none_iff] at hparts
  obtain ⟨rfl, ⟨token, rfl, hname⟩, htexts⟩ := hparts
  have hline : line { operation, operands, location := place } ++ trail = ascii "  " ++
      (operation.name ++ (LineTokens.arguments (operands.map Operand.text) ++ trail)) := by
    have hinstruction : isInstruction { operation, operands, location := place } = true :=
      isInstruction_iff.mpr hop
    rw [line_instruction hinstruction, List.append_assoc, List.append_assoc]
  have hlength : arguments.length = operation.arity := by
    have htexts := congrArg List.length htexts
    rw [List.length_map, List.length_map] at htexts
    rw [htexts, Operation.arity, h.length_eq]
  rw [hline, ofLine, htokens]
  simp only [ofMnemonic, hname, Operation.ofMnemonic?_name hop, hlength, ne_eq, not_true, if_false,
    Operand.ofTokens_text h htexts]
  exact ⟨_, rfl, by simp [agrees]⟩

theorem forall_line {P : UInt8 → Prop} (hspace : P 32) (hcomma : P LineTokens.comma)
    (hword : ∀ b, Ascii.isWordByte b = true → P b) {s : Statement} (hs : s.isInstruction = true)
    (h : s.hasIdentifiers = true) : ∀ b ∈ s.line, P b := by
  have hindent : ascii "  " = [32, 32] := by decide
  rw [hasIdentifiers, if_pos hs, List.all_eq_true] at h
  have htexts : ∀ o ∈ s.operands.map Operand.text, ∀ b ∈ o, P b := fun o ho b hb => by
    obtain ⟨o, hmem, rfl⟩ := List.mem_map.mp ho
    exact hword b ((Operand.isWord_text (h o hmem)).2 b hb)
  intro b hb
  rw [line_instruction hs, hindent] at hb
  rcases List.mem_append.mp hb with hb | hb
  · have : b = 32 := by simpa using hb
    rwa [this]
  · rcases List.mem_append.mp hb with hb | hb
    · exact hword b (s.operation.isWord_name.2 b hb)
    · exact LineTokens.forall_arguments hspace hcomma htexts b hb

theorem printable_line {s : Statement} (h : s.hasIdentifiers = true) : ∀ b ∈ s.line, 32 ≤ b := by
  cases hs : s.isInstruction with
  | true => exact forall_line (by decide) (by decide) (fun _ => Ascii.printable_of_isWordByte) hs h
  | false =>
    have hcolon : ascii ":" = [58] := by decide
    rw [hasIdentifiers, hs, if_neg Bool.false_ne_true] at h
    intro b hb
    rw [line_definition hs, hcolon, List.mem_append, List.mem_singleton] at hb
    rcases hb with hb | rfl
    · exact Ascii.printable_of_isWord (Ascii.isWord_of_isIdentifier h) b hb
    · decide

/-- An address in a comment adds nothing unprintable to a line. -/
theorem printable_addressed {s : Statement} (h : s.hasIdentifiers = true) (address : Nat) :
    ∀ b ∈ Numeral.padRight 32 Program.commentColumn s.line ++ Program.addressComment address,
      32 ≤ b := by
  have hcomment : ascii "; " = [LineTokens.semicolon, 32] := by decide
  intro b hb
  simp only [Numeral.padRight, Program.addressComment, Numeral.zeroPadded, Numeral.padLeft,
    hcomment, List.mem_append, List.mem_replicate, List.mem_cons, List.not_mem_nil,
    or_false] at hb
  rcases hb with (hb | ⟨-, rfl⟩) | (rfl | rfl) | ⟨-, rfl⟩ | hb
  · exact printable_line h b hb
  · decide
  · decide
  · decide
  · decide
  · exact Ascii.printable_of_isWord (Numeral.isWord_decimal address) b hb

theorem WellFormed.shownBy_line {s : Statement} (h : s.WellFormed) : s.ShownBy s.line := by
  refine ⟨printable_line h.hasIdentifiers, fun location => ?_⟩
  cases h with
  | definition place hname => exact ofLine_definition hname place location
  | instruction place hop hoperands =>
    have h := ofLine_instruction hop hoperands Ascii.allBlank_nil place location
    rwa [List.append_nil] at h

/-- The line of an instruction shows it with an address in a comment behind it, too. -/
theorem WellFormed.shownBy_addressed {s : Statement} (h : s.WellFormed)
    (hs : s.isInstruction = true) (address : Nat) :
    s.ShownBy
      (Numeral.padRight 32 Program.commentColumn s.line ++ Program.addressComment address) := by
  have hcomment : ascii "; " = [LineTokens.semicolon, 32] := by decide
  refine ⟨printable_addressed h.hasIdentifiers address, fun location => ?_⟩
  cases h with
  | definition place hname => cases hs
  | @instruction operation operands place hop hoperands =>
    have hblank : Ascii.AllBlank (List.replicate
        (Program.commentColumn - (line ⟨operation, operands, [], place⟩).length) 32) := by
      intro b hb
      rw [List.eq_of_mem_replicate hb]
      rfl
    obtain ⟨t, ht, hagrees⟩ := ofLine_instruction hop hoperands hblank place location
    refine ⟨t, ?_, hagrees⟩
    rw [ofLine] at ht ⊢
    rw [Program.addressComment, hcomment, List.cons_append, LineTokens.ofLine_append_comment]
    exact ht

end Statement

/-! ### The lines of a text -/

/-- A text that is made of lines without line ends in them is cut into these lines, and the empty
one behind the last newline. -/
theorem Bytes.lines_flatMap : ∀ (texts : List Bytes), (∀ text ∈ texts, ∀ b ∈ text, 32 ≤ b) →
    lines (texts.flatMap (· ++ [newline])) = texts ++ [[]]
  | [], _ => rfl
  | text :: rest, h => by
    have htext := h text List.mem_cons_self
    have hnewline : newline ∉ text := fun hmem => absurd (htext _ hmem) (by decide)
    have hreturn : withoutReturn text = text := by
      rw [withoutReturn, if_neg]
      exact fun hlast => absurd (htext _ (List.mem_of_getLast? hlast)) (by decide)
    have ih := lines_flatMap rest fun t ht => h t (List.mem_cons_of_mem _ ht)
    rw [lines] at ih
    rw [lines, List.flatMap_cons, List.append_assoc, List.singleton_append,
      List.splitOn_append_cons_self_of_not_mem hnewline, List.map_cons, ih, hreturn,
      List.cons_append]

namespace Reading

theorem ofLines_of_shownBy (file : UInt32) : ∀ {program : Program} {lines : List Bytes},
    List.Forall₂ Statement.ShownBy program lines → ∀ number,
      (ofLines file number (lines ++ [[]])).diagnostics = [] ∧
        List.Forall₂ (fun t s => t.agrees s = true) (ofLines file number (lines ++ [[]])).program
          program
  | _, _, .nil, _ => ⟨rfl, .nil⟩
  | s :: program, line :: lines, .cons hline h, number => by
    obtain ⟨t, ht, hagrees⟩ := hline.read { file, line := number.toUInt32 }
    obtain ⟨hdiagnostics, hprogram⟩ := ofLines_of_shownBy file h (number + 1)
    rw [List.cons_append, ofLines]
    simp only [ht]
    exact ⟨hdiagnostics, .cons hagrees hprogram⟩

/-- A text of lines that show the statements of a program is read as this program. -/
theorem ofSource_of_shownBy (file : UInt32) {program : Program} {lines : List Bytes}
    (h : List.Forall₂ Statement.ShownBy program lines) :
    let reading := ofSource file (lines.flatMap (· ++ [Bytes.newline]))
    reading.diagnostics = [] ∧
      List.Forall₂ (fun t s => t.agrees s = true) reading.program program := by
  have hprintable : ∀ line ∈ lines, ∀ b ∈ line, 32 ≤ b := fun line hline => by
    obtain ⟨s, -, hs⟩ := exists_left_of_forall₂ h line hline
    exact hs.printable
  rw [ofSource, Bytes.lines_flatMap lines hprintable]
  exact ofLines_of_shownBy file h 1

end Reading

/-! ### Listings -/

namespace Program

theorem listing_eq (program : Program) :
    program.listing = (program.map Statement.line).flatMap (· ++ [Bytes.newline]) := by
  rw [listing, List.flatMap_map]

theorem shownBy_map_line : ∀ {program : Program}, (∀ s ∈ program, s.WellFormed) →
    List.Forall₂ Statement.ShownBy program (program.map Statement.line)
  | [], _ => .nil
  | s :: _, h => .cons (h s List.mem_cons_self).shownBy_line
      (shownBy_map_line fun t ht => h t (List.mem_cons_of_mem _ ht))

/-- So do the lines of a listing with addresses, from any address on. -/
theorem shownBy_addressedLines : ∀ {program : Program}, (∀ s ∈ program, s.WellFormed) →
    ∀ address, List.Forall₂ Statement.ShownBy program (addressedLines address program)
  | [], _, _ => .nil
  | s :: _, h, address => by
    have hs := h s List.mem_cons_self
    have ih := shownBy_addressedLines fun t ht => h t (List.mem_cons_of_mem _ ht)
    rw [addressedLines]
    split
    · rename_i hinstruction
      exact .cons (hs.shownBy_addressed hinstruction address) (ih (address + 1))
    · exact .cons hs.shownBy_line (ih address)

/-- A listing of either kind is made of lines that show the statements of the program. -/
theorem exists_shownBy {program : Program} (h : ∀ s ∈ program, s.WellFormed) {text : Bytes}
    (htext : text = program.listing ∨ text = program.addressedListing) :
    ∃ lines, List.Forall₂ Statement.ShownBy program lines ∧
      text = lines.flatMap (· ++ [Bytes.newline]) := by
  rcases htext with rfl | rfl
  · exact ⟨_, shownBy_map_line h, listing_eq program⟩
  · exact ⟨_, shownBy_addressedLines h 0, rfl⟩

/-- **A listing is read without a diagnostic, as the program that it was made from**, with and
without addresses. -/
theorem ofSource_listing {program : Program} (h : ∀ s ∈ program, s.WellFormed) (file : UInt32)
    {text : Bytes} (htext : text = program.listing ∨ text = program.addressedListing) :
    (Reading.ofSource file text).diagnostics = [] ∧
      List.Forall₂ (fun t s => t.agrees s = true) (Reading.ofSource file text).program program := by
  obtain ⟨lines, hlines, rfl⟩ := exists_shownBy h htext
  exact Reading.ofSource_of_shownBy file hlines

/-- Labels with the names of a register and of an operation, a line beyond the column of the
comments, and the largest numbers. -/
theorem ofSource_listing_of_labels :
    let program : Program :=
      [.define (ascii "r1"),
        { operation := .addi, operands := [.register 0, .register 15, .immediate 255] },
        .define (ascii "add"), { operation := .bz, operands := [.label (ascii "r1")] },
        { operation := .jmp, operands := [.label (ascii "beyond_the_column_of_comments")] },
        { operation := .bnz, operands := [.address 4095] },
        .define (ascii "beyond_the_column_of_comments"), { operation := .halt }]
    (∀ s ∈ program, s.WellFormed) ∧
      (Reading.ofSource 1 program.addressedListing).diagnostics = [] ∧
      List.Forall₂ (fun t s => t.agrees s = true)
        (Reading.ofSource 1 program.addressedListing).program program :=
  ⟨by decide, ofSource_listing (by decide) 1 (Or.inr rfl)⟩

end Program
end RegisterMachine
