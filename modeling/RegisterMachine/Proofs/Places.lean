/-
# Places point at what they describe

A statement that is read from a text names a line of it and a column, and there
it stands: the name of a label with its colon, first in its line, or a mnemonic
of the operation, as a whole word. A diagnostic names a line of the text and a
column of it, or the one behind its end. Statements are read in the order of
their places, and a line has at most one diagnostic. Linking leaves the places
as they are.

Offsets into a line are counted in the line without its comment, in what is left
behind a word, and in the pieces between commas. The statements are followed by
the form of the line, which adds these offsets up (`LineForm.tokens`). A fault
has no form to go by: it is at the offset of a cursor, and no cursor leaves the
line, because taking off blanks and words keeps the offset at which it ends.

Columns have 32 bits and are counted from 1, so the place behind the end of a
line has one only if the line has at most 2 ^ 32 - 2 bytes. A text of one byte
more is enough for a diagnostic whose column is 0, which says "not known"
(`Reading.not_placed_behind_longest_line`).

Key definitions: `Location.Before`, `LineFault.Within`, `Statement.StandsIn`,
`Statement.PlacedIn`, `Diagnostic.NamesLine`.
Key theorems: `LineTokens.within_of_ofLine`, `Statement.standsIn_of_ofLine`,
`Statement.within_of_ofLine`, `Reading.pairwise_before_ofLines`,
`Reading.ofSource_placed`.
-/
import RegisterMachine.Proofs.Detection
import RegisterMachine.Proofs.Grammar
import RegisterMachine.Proofs.LineByLine

namespace RegisterMachine

open Ascii LineTokens

/-! ### The columns of faults -/

/-- The fault is at a byte of a line of `length` bytes, or behind its end. -/
def LineFault.Within (length : Nat) (fault : LineFault) : Prop :=
  ∃ offset ≤ length, fault.column = (offset + 1).toUInt32

namespace LineFault

variable {fault : LineFault} {length : Nat}

theorem Within.mono {longer : Nat} (h : fault.Within length) (hle : length ≤ longer) :
    fault.Within longer := by
  obtain ⟨offset, hoffset, hcolumn⟩ := h
  exact ⟨offset, by omega, hcolumn⟩

/-- A column from 1 on, if the one behind the end of the line has 32 bits. -/
theorem Within.bounds (h : fault.Within length) (hlength : length ≤ 2 ^ 32 - 2) :
    0 < fault.column.toNat ∧ fault.column.toNat ≤ length + 1 := by
  obtain ⟨offset, hoffset, hcolumn⟩ := h
  have hnat : fault.column.toNat = offset + 1 := by
    rw [hcolumn]
    exact UInt32.toNat_ofNat_of_lt' (show offset + 1 < 2 ^ 32 by omega)
  omega

end LineFault

namespace Cursor

theorem offset_le_lineEnd (c : Cursor) : c.offset ≤ c.lineEnd := Nat.le_add_right _ _

theorem fault_within (c : Cursor) (error : LineError) : (c.fault error).Within c.lineEnd :=
  ⟨c.offset, c.offset_le_lineEnd, rfl⟩

end Cursor

namespace LineTokens

theorem operandTokens_within : ∀ {offset : Nat} {pieces : List Bytes} {fault : LineFault},
    operandTokens offset pieces = .error fault →
      fault.Within (offset + ([comma].intercalate pieces).length)
  | _, [], _, h => by cases h
  | offset, piece :: rest, fault, h => by
    have hpiece : offset + piece.length ≤
        offset + ([comma].intercalate (piece :: rest)).length := by
      cases rest with
      | nil => simp
      | cons next rest => simp [List.intercalate_cons_cons]
    rw [operandTokens] at h
    split at h
    · cases h
      have hwithin := (Cursor.skipBlanks { offset, rest := piece }).fault_within .missingOperand
      rw [Cursor.skipBlanks_end] at hwithin
      exact hwithin.mono hpiece
    · split at h
      · cases h
      · rename_i hrest
        cases h
        have hne : rest ≠ [] := by
          rintro rfl
          cases hrest
        apply (operandTokens_within hrest).mono
        rw [List.intercalate_cons_of_ne_nil hne]
        simp only [List.length_append, List.length_singleton]
        omega

theorem ofWord_within {label : Option Token} {start after : Cursor} {word : Bytes}
    {fault : LineFault} (hend : after.lineEnd = start.lineEnd)
    (h : ofWord label start word after = .error fault) : fault.Within start.lineEnd := by
  unfold ofWord at h
  split at h
  · cases h
    exact start.fault_within _
  · simp only at h
    split at h
    · cases h
    · split at h
      · cases h
      · rename_i hoperands
        cases h
        have hwithin := operandTokens_within hoperands
        rw [List.intercalate_splitOn] at hwithin
        rw [← hend, ← after.skipBlanks_end]
        exact hwithin

theorem ofLabelled_within {label : Token} {start : Cursor} {fault : LineFault}
    (h : ofLabelled label start = .error fault) : fault.Within start.lineEnd := by
  unfold ofLabelled at h
  split at h
  · cases h
  · exact ofWord_within (start.word_end _) h

theorem ofFirstWord_within {start : Cursor} {fault : LineFault}
    (h : ofFirstWord start = .error fault) : fault.Within start.lineEnd := by
  have hend := start.word_end endsFirstWord
  simp only [ofFirstWord] at h
  split at h
  · cases h
  · split at h
    · rename_i hcolon
      split at h
      · have hwithin := ofLabelled_within h
        rw [Cursor.skipBlanks_end] at hwithin
        apply hwithin.mono
        obtain ⟨rest, hrest⟩ := List.head?_eq_some_iff.mp hcolon
        rw [← hend]
        simp only [Cursor.lineEnd, hrest, List.tail_cons, List.length_cons]
        omega
      · cases h
        exact start.fault_within _
    · exact ofWord_within hend h

/-- **A line that is not cut has a fault in it**, or behind its end. -/
theorem within_of_ofLine {line : Bytes} {fault : LineFault} (h : ofLine line = .error fault) :
    fault.Within line.length := by
  rw [ofLine_eq] at h
  have hwithin := ofFirstWord_within h
  rw [Cursor.skipBlanks_end] at hwithin
  apply hwithin.mono
  rw [Cursor.lineEnd, Nat.zero_add]
  exact (List.takeWhile_sublist _).length_le

end LineTokens

/-! ### Statements in their lines -/

/-- What the statement says stands in the line at the column that it names: the name of a label and
its colon, behind blanks only, or a mnemonic of its operation, as a whole word. -/
inductive Statement.StandsIn (line : Bytes) (s : Statement) : Prop
  | definition {before after : Bytes} : s.operation = .label → AllBlank before →
      line = before ++ s.label ++ colon :: after →
      s.location.column.toNat = before.length + 1 → StandsIn line s
  | instruction {before mnemonic after : Bytes} : IsWord mnemonic →
      Operation.ofMnemonic? mnemonic = some s.operation → line = before ++ mnemonic ++ after →
      (∀ b ∈ before.getLast?, isBlank b = true ∨ b = colon) →
      (∀ b ∈ after.head?, isBlank b = true ∨ b = semicolon) →
      s.location.column.toNat = before.length + 1 → StandsIn line s

namespace LineForm

section

variable {f : LineForm} (hf : f.WellFormed)
include hf

/-- A mnemonic begins the line, or it is behind a blank or the colon of a label. -/
theorem getLast?_front : ∀ b ∈ f.front.getLast?, isBlank b = true ∨ b = colon := by
  intro b hb
  cases hlabel : f.label with
  | none =>
    simp only [front, hlabel, Option.map_none, Option.getD_none, List.append_nil] at hb
    exact Or.inl (hf.lead b (List.mem_of_getLast? hb))
  | some l =>
    have hlast : f.front.getLast? = (colon :: l.gap).getLast? := by
      rw [front, hlabel, Option.map_some, Option.getD_some, LabelForm.bytes, ← List.append_assoc,
        List.getLast?_append_of_ne_nil _ (List.cons_ne_nil _ _)]
    rw [hlast] at hb
    rcases List.mem_cons.mp (List.mem_of_getLast? hb) with hcolon | hgap
    · exact Or.inr hcolon
    · exact Or.inl ((hf.label l hlabel).2 b hgap)

/-- A mnemonic ends the line, or it is followed by a blank or a comment. -/
theorem head?_behind {i : InstructionForm} (hi : i ∈ f.instruction) {behind : Bytes}
    (hbehind : ∀ b ∈ behind.head?, b = semicolon) :
    ∀ b ∈ (Slot.joined i.operands ++ (f.trail ++ behind)).head?,
      isBlank b = true ∨ b = semicolon := by
  intro b hb
  obtain ⟨mnemonic, operands⟩ := i
  cases operands with
  | nil =>
    cases htrail : f.trail with
    | nil =>
      rw [htrail] at hb
      exact Or.inr (hbehind b hb)
    | cons first rest =>
      rw [htrail] at hb
      obtain rfl : first = b := Option.some.inj hb
      exact Or.inl (hf.trail first (by simp [htrail]))
  | cons s rest =>
    have hform := hf.instruction _ hi
    have hgap : s.before ≠ [] := hform.gap s rfl
    obtain ⟨more, hmore⟩ := Slot.exists_joined_cons s rest
    simp only [hmore, Slot.bytes, List.append_assoc, List.head?_append_of_ne_nil _ hgap] at hb
    exact Or.inl ((hform.operands s List.mem_cons_self).before b (List.mem_of_mem_head? hb))

variable {line behind : Bytes} (hcut : line = f.bytes ++ behind) (hline : line.length < 2 ^ 32)
include hcut hline

theorem standsIn_define (location : Location) {l : LabelForm} (hl : l ∈ f.label) :
    (Statement.define l.name
      (location.atColumn (Token.atOffset f.lead.length l.name).column)).StandsIn line := by
  have hplace : line = f.lead ++ l.name ++ colon ::
      (l.gap ++ ((f.instruction.map InstructionForm.bytes).getD [] ++ f.trail ++ behind)) := by
    simp [hcut, bytes, front, Option.mem_def.mp hl, LabelForm.bytes]
  have hlength := congrArg List.length hplace
  simp only [List.length_append, List.length_cons] at hlength
  exact .definition rfl hf.lead hplace (Token.toNat_column_atOffset l.name (by omega))

theorem standsIn_instruction (hbehind : ∀ b ∈ behind.head?, b = semicolon) {i : InstructionForm}
    (hi : i ∈ f.instruction) {s : Statement}
    (hoperation : Operation.ofMnemonic? i.mnemonic = some s.operation)
    (hcolumn : s.location.column = (Token.atOffset f.front.length i.mnemonic).column) :
    s.StandsIn line := by
  have hword := Operation.isWord_of_ofMnemonic? hoperation
  have hplace : line =
      f.front ++ i.mnemonic ++ (Slot.joined i.operands ++ (f.trail ++ behind)) := by
    simp [hcut, bytes, Option.mem_def.mp hi, InstructionForm.bytes]
  have hpositive : 0 < i.mnemonic.length := List.length_pos_iff.mpr hword.1
  have hlength := congrArg List.length hplace
  simp only [List.length_append] at hlength
  refine .instruction hword hoperation hplace (getLast?_front hf) (head?_behind hf hi hbehind) ?_
  rw [hcolumn]
  exact Token.toNat_column_atOffset i.mnemonic (by omega)

theorem column_label_lt {l : LabelForm} (hl : l ∈ f.label) {i : InstructionForm}
    (hi : i ∈ f.instruction) :
    (Token.atOffset f.lead.length l.name).column <
      (Token.atOffset f.front.length i.mnemonic).column := by
  have hfront : f.front.length = f.lead.length + (l.name.length + (l.gap.length + 1)) := by
    simp [front, Option.mem_def.mp hl, LabelForm.bytes]
  have hpositive : 0 < i.mnemonic.length :=
    List.length_pos_iff.mpr (hf.instruction i hi).mnemonic_ne_nil
  have hlength := congrArg List.length hcut
  simp only [bytes, Option.mem_def.mp hi, Option.map_some, Option.getD_some, InstructionForm.bytes,
    List.length_append] at hlength
  rw [UInt32.lt_iff_toNat_lt, Token.toNat_column_atOffset l.name (by omega),
    Token.toNat_column_atOffset i.mnemonic (by omega)]
  omega

end

end LineForm

namespace Statement

/-- **The statements of a line stand in it**, the one after the other. -/
theorem standsIn_of_ofLine {location : Location} {line : Bytes} {statements : List Statement}
    (hline : line.length < 2 ^ 32) (h : ofLine location line = .ok statements) :
    (∀ s ∈ statements, s.StandsIn line) ∧
      statements.Pairwise fun s t => s.location.column < t.location.column := by
  obtain ⟨tokens, htokens, instruction, rfl, hinstruction⟩ := exists_of_ofLine h
  obtain ⟨f, hf, hbytes, rfl⟩ := exists_form_of_ofLine htokens
  obtain ⟨behind, hcut, hbehind⟩ := exists_append_withoutComment line
  rw [← hbytes] at hcut
  have hlabels : ∀ s ∈ f.tokens.label.toList.map fun t =>
      define t.text (location.atColumn t.column), s.StandsIn line ∧
        ∀ i ∈ f.instruction,
          s.location.column < (Token.atOffset f.front.length i.mnemonic).column := by
    intro s hs
    obtain ⟨t, ht, rfl⟩ := List.mem_map.mp hs
    obtain ⟨l, hl, rfl⟩ := Option.map_eq_some_iff.mp (Option.mem_toList.mp ht)
    exact ⟨f.standsIn_define hf hcut hline location hl,
      fun i hi => f.column_label_lt hf hcut hline hl hi⟩
  have hmnemonic : ∀ s ∈ instruction.toList, s.StandsIn line ∧ ∃ i ∈ f.instruction,
      s.location.column = (Token.atOffset f.front.length i.mnemonic).column := by
    intro s hs
    obtain ⟨mnemonic, hmnemonic, hs⟩ := hinstruction s (Option.mem_toList.mp hs)
    obtain ⟨i, hi, rfl⟩ := Option.map_eq_some_iff.mp hmnemonic
    have hcolumn := congrArg Location.column (location_of_ofMnemonic hs)
    exact ⟨f.standsIn_instruction hf hcut hline hbehind hi (operation_of_ofMnemonic hs) hcolumn,
      i, hi, hcolumn⟩
  constructor
  · intro s hs
    rcases List.mem_append.mp hs with hs | hs
    · exact (hlabels s hs).1
    · exact (hmnemonic s hs).1
  · refine List.pairwise_append.mpr ⟨?_, ?_, fun s hs t ht => ?_⟩
    · cases f.tokens.label <;> simp
    · cases instruction <;> simp
    · obtain ⟨-, i, hi, hcolumn⟩ := hmnemonic t ht
      rw [hcolumn]
      exact (hlabels s hs).2 i hi

end Statement

/-! ### Lines with a fault -/

namespace Operand

theorem column_of_ofRegisterToken {token : Token} {fault : LineFault}
    (h : ofRegisterToken token = .error fault) : fault.column = token.column := by
  unfold ofRegisterToken at h
  simp only at h
  split at h
  · split at h
    · split at h
      · cases h
        rfl
      · split at h
        · cases h
          rfl
        · split at h
          · cases h
            rfl
          · cases h
    · cases h
      rfl
  · cases h
    rfl

theorem column_of_ofImmediateToken {token : Token} {fault : LineFault}
    (h : ofImmediateToken token = .error fault) : fault.column = token.column := by
  unfold ofImmediateToken at h
  split at h
  · cases h
    rfl
  · split at h
    · cases h
      rfl
    · cases h

theorem column_of_ofTargetToken {token : Token} {fault : LineFault}
    (h : ofTargetToken token = .error fault) : fault.column = token.column := by
  unfold ofTargetToken at h
  split at h
  · cases h
  · split at h
    · cases h
      rfl
    · split at h
      · cases h
        rfl
      · cases h

theorem column_of_ofToken {shape : Shape} {token : Token} {fault : LineFault}
    (h : ofToken shape token = .error fault) : fault.column = token.column := by
  cases shape with
  | register => exact column_of_ofRegisterToken h
  | immediate => exact column_of_ofImmediateToken h
  | target => exact column_of_ofTargetToken h
  | nothing | unknown =>
    cases h
    rfl

theorem exists_column_of_ofTokens : ∀ {shapes : List Shape} {tokens : List Token}
    {fault : LineFault}, ofTokens shapes tokens = .error fault →
      ∃ t ∈ tokens, fault.column = t.column
  | [], _, _, h => by cases h
  | _ :: _, [], _, h => by cases h
  | shape :: shapes, token :: tokens, fault, h => by
    rw [ofTokens] at h
    split at h
    · rename_i htoken
      cases h
      exact ⟨token, List.mem_cons_self, column_of_ofToken htoken⟩
    · obtain ⟨t, ht, hcolumn⟩ := exists_column_of_ofTokens (map_eq_error_iff.mp h)
      exact ⟨t, List.mem_cons_of_mem _ ht, hcolumn⟩

end Operand

namespace Statement

theorem exists_column_of_ofMnemonic {location : Location} {mnemonic : Token}
    {operands : List Token} {fault : LineFault}
    (h : ofMnemonic location mnemonic operands = .error fault) :
    ∃ t ∈ mnemonic :: operands, fault.column = t.column := by
  unfold ofMnemonic at h
  split at h
  · cases h
    exact ⟨mnemonic, List.mem_cons_self, rfl⟩
  · split at h
    · cases h
      exact ⟨mnemonic, List.mem_cons_self, rfl⟩
    · obtain ⟨t, ht, hcolumn⟩ := Operand.exists_column_of_ofTokens (map_eq_error_iff.mp h)
      exact ⟨t, List.mem_cons_of_mem _ ht, hcolumn⟩

/-- **A line that is refused has a fault in it**, or behind its end. -/
theorem within_of_ofLine {location : Location} {line : Bytes} {fault : LineFault}
    (hline : line.length < 2 ^ 32) (h : ofLine location line = .error fault) :
    fault.Within line.length := by
  unfold ofLine at h
  split at h
  · rename_i hfault
    cases h
    exact LineTokens.within_of_ofLine hfault
  · rename_i tokens htokens
    simp only at h
    split at h
    · cases h
    · rename_i mnemonic hmnemonic
      obtain ⟨t, ht, hcolumn⟩ := exists_column_of_ofMnemonic (map_eq_error_iff.mp h)
      have hall : t ∈ tokens.all := by
        rw [LineTokens.all, hmnemonic]
        rcases List.mem_cons.mp ht with rfl | ht
        · simp
        · simp [ht]
      obtain ⟨before, after, hplace, hbefore⟩ := LineTokens.standsIn_of_ofLine hline htokens t hall
      refine ⟨before.length, ?_, ?_⟩
      · rw [hplace, List.append_assoc, List.length_append]
        exact Nat.le_add_right _ _
      · rw [hcolumn, ← hbefore, Nat.toUInt32_eq, UInt32.ofNat_toNat]

end Statement

/-! ### Places in a text -/

/-- The place is in an earlier line, or further to the left in the same one. -/
def Location.Before (a b : Location) : Prop :=
  a.line < b.line ∨ a.line = b.line ∧ a.column < b.column

/-- The statement names this file and a line of the text, and stands there. -/
def Statement.PlacedIn (file : UInt32) (source : Bytes) (s : Statement) : Prop :=
  ∃ k line, source.lines[k]? = some line ∧ s.location.file = file ∧
    s.location.line.toNat = k + 1 ∧ s.StandsIn line

/-- The diagnostic is an error in this file and names this line of the text. -/
def Diagnostic.NamesLine (file : UInt32) (source line : Bytes) (d : Diagnostic) : Prop :=
  ∃ k, source.lines[k]? = some line ∧ d.severity = .error ∧ d.location.file = file ∧
    d.location.line.toNat = k + 1

theorem Bytes.length_le_of_mem_intercalate (separator : Bytes) {piece : Bytes} :
    ∀ {pieces : List Bytes},
      piece ∈ pieces → piece.length ≤ (separator.intercalate pieces).length
  | [_], h => by
    rw [List.mem_singleton.mp h, List.intercalate_singleton]
  | first :: second :: rest, h => by
    rw [List.intercalate_cons_cons, List.length_append, List.length_append]
    rcases List.mem_cons.mp h with rfl | h
    · omega
    · have ih := length_le_of_mem_intercalate separator h
      omega

theorem Bytes.length_le_of_mem_lines {source line : Bytes} (h : line ∈ source.lines) :
    line.length ≤ source.length := by
  obtain ⟨piece, hpiece, rfl⟩ := List.mem_map.mp h
  have hlength := length_le_of_mem_intercalate [newline] hpiece
  rw [List.intercalate_splitOn] at hlength
  apply le_trans _ hlength
  unfold withoutReturn
  split
  · exact (List.dropLast_sublist piece).length_le
  · exact le_rfl

namespace Reading

theorem exists_fault_of_ofLines (file : UInt32) : ∀ (number : Nat) (lines : List Bytes),
    ∀ d ∈ (ofLines file number lines).diagnostics, ∃ k line fault, lines[k]? = some line ∧
      Statement.ofLine { file, line := (number + k).toUInt32 } line = .error fault ∧
      d = fault.diagnostic { file, line := (number + k).toUInt32 }
  | _, [] => fun d hd => by cases hd
  | number, line :: lines => by
    intro d hd
    rw [ofLines_cons] at hd
    rcases List.mem_append.mp hd with hd | hd
    · unfold ofLine at hd
      split at hd
      · cases hd
      · rename_i fault hfault
        exact ⟨0, line, fault, rfl, hfault, List.mem_singleton.mp hd⟩
    · obtain ⟨k, later, fault, hlater, hfault, hdiagnostic⟩ :=
        exists_fault_of_ofLines file (number + 1) lines d hd
      refine ⟨k + 1, later, fault, hlater, ?_⟩
      rw [Nat.add_comm k, ← Nat.add_assoc]
      exact ⟨hfault, hdiagnostic⟩

theorem le_line_of_mem_ofLines (file : UInt32) {number : Nat} {lines : List Bytes}
    (h : number + lines.length ≤ 2 ^ 32) :
    (∀ s ∈ (ofLines file number lines).program, number ≤ s.location.line.toNat) ∧
      ∀ d ∈ (ofLines file number lines).diagnostics, number ≤ d.location.line.toNat := by
  have hbefore {k : Nat} (hk : k < number) : (ofLines file number lines).atLine k = {} :=
    atLine_ofLines_of_outside file h (Or.inl hk)
  refine ⟨fun s hs => ?_, fun d hd => ?_⟩
  · by_contra hlt
    exact (atLine_eq_empty_iff.mp (hbefore (Nat.lt_of_not_le hlt))).1 s hs rfl
  · by_contra hlt
    exact (atLine_eq_empty_iff.mp (hbefore (Nat.lt_of_not_le hlt))).2 d hd rfl

theorem pairwise_before_ofLine (location : Location) {line : Bytes} (hline : line.length < 2 ^ 32) :
    (ofLine location line).program.Pairwise fun s t => s.location.Before t.location := by
  have hnoted := (line_of_mem_ofLine location line).1
  unfold ofLine at hnoted ⊢
  split
  · rename_i statements hstatements
    rw [hstatements] at hnoted
    refine (Statement.standsIn_of_ofLine hline hstatements).2.imp_of_mem fun hs ht hlt => ?_
    exact Or.inr ⟨(hnoted _ hs).trans (hnoted _ ht).symm, hlt⟩
  · exact .nil

/-- **Statements are read in the order of their places.** -/
theorem pairwise_before_ofLines (file : UInt32) : ∀ {number : Nat} {lines : List Bytes},
    number + lines.length ≤ 2 ^ 32 → (∀ line ∈ lines, line.length < 2 ^ 32) →
      (ofLines file number lines).program.Pairwise fun s t => s.location.Before t.location
  | _, [], _, _ => .nil
  | number, line :: lines, hbound, hlength => by
    rw [List.length_cons] at hbound
    obtain ⟨hline, hlater⟩ := List.forall_mem_cons.mp hlength
    have hnumber : number.toUInt32.toNat = number :=
      UInt32.toNat_ofNat_of_lt' (show number < 2 ^ 32 by omega)
    rw [ofLines_cons]
    refine List.pairwise_append.mpr ⟨pairwise_before_ofLine _ hline,
      pairwise_before_ofLines file (by omega) hlater, fun s hs t ht => Or.inl ?_⟩
    have hfirst := (line_of_mem_ofLine _ line).1 s hs
    have hrest := (le_line_of_mem_ofLines file (by omega)).1 t ht
    rw [UInt32.lt_iff_toNat_lt, hfirst, hnumber]
    exact hrest

/-- **Diagnostics are in the order of their lines**, so a line has no more than one. -/
theorem pairwise_line_ofLines (file : UInt32) : ∀ {number : Nat} {lines : List Bytes},
    number + lines.length ≤ 2 ^ 32 →
      (ofLines file number lines).diagnostics.Pairwise fun d e => d.location.line < e.location.line
  | _, [], _ => .nil
  | number, line :: lines, hbound => by
    rw [List.length_cons] at hbound
    have hnumber : number.toUInt32.toNat = number :=
      UInt32.toNat_ofNat_of_lt' (show number < 2 ^ 32 by omega)
    have hsingle : (ofLine { file, line := number.toUInt32 } line).diagnostics.Pairwise
        fun d e => d.location.line < e.location.line := by
      unfold ofLine
      split <;> simp
    rw [ofLines_cons]
    refine List.pairwise_append.mpr
      ⟨hsingle, pairwise_line_ofLines file (by omega), fun d hd e he => ?_⟩
    have hfirst := ((line_of_mem_ofLine _ line).2 d hd).1
    have hrest := (le_line_of_mem_ofLines file (by omega)).2 e he
    rw [UInt32.lt_iff_toNat_lt, hfirst, hnumber]
    exact hrest

section

variable (file : UInt32) {source : Bytes} (hlines : source.lines.length < 2 ^ 32)
  (hsource : source.length < 2 ^ 32)
include hlines hsource

theorem placedIn_of_mem_program :
    ∀ s ∈ (ofSource file source).program, s.PlacedIn file source := by
  intro s hs
  obtain ⟨k, line, hline, hread⟩ := exists_readFrom_of_ofSource file source s hs
  obtain ⟨hfile, hnumber⟩ := hread.location_eq
  obtain ⟨statements, hstatements, hs⟩ := hread
  have hk : k < source.lines.length := (List.getElem?_eq_some_iff.mp hline).1
  have hlength := Bytes.length_le_of_mem_lines (List.mem_of_getElem? hline)
  refine ⟨k, line, hline, hfile, ?_,
    (Statement.standsIn_of_ofLine (by omega) hstatements).1 s hs⟩
  rw [hnumber]
  exact UInt32.toNat_ofNat_of_lt' (show k + 1 < 2 ^ 32 by omega)

theorem namesLine_of_mem_diagnostics : ∀ d ∈ (ofSource file source).diagnostics,
    ∃ line, d.NamesLine file source line ∧ (line.length ≤ 2 ^ 32 - 2 →
      0 < d.location.column.toNat ∧ d.location.column.toNat ≤ line.length + 1) := by
  intro d hd
  obtain ⟨k, line, fault, hline, hfault, rfl⟩ := exists_fault_of_ofLines file 1 source.lines d hd
  have hk : k < source.lines.length := (List.getElem?_eq_some_iff.mp hline).1
  have hlength := Bytes.length_le_of_mem_lines (List.mem_of_getElem? hline)
  refine ⟨line, ⟨k, hline, rfl, rfl, ?_⟩, (Statement.within_of_ofLine (by omega) hfault).bounds⟩
  show (1 + k).toUInt32.toNat = k + 1
  rw [Nat.add_comm]
  exact UInt32.toNat_ofNat_of_lt' (show k + 1 < 2 ^ 32 by omega)

end

end Reading

theorem Statement.StandsIn.linked {line : Bytes} {s : Statement} (h : s.StandsIn line)
    (program : Program) : (s.linked program).StandsIn line := by
  cases h with
  | definition hoperation hbefore hplace hcolumn =>
    exact .definition hoperation hbefore hplace hcolumn
  | instruction hword hoperation hplace hfront hbehind hcolumn =>
    exact .instruction hword hoperation hplace hfront hbehind hcolumn

/-- **Places point at what they describe.** A statement of a text names its file and a line of it,
and stands there at its column; so do the instructions of an assembled program, which are those of
the text with their places. The statements are in the order of their places. Each diagnostic is an
error in a line of the text, at a column of it or the one behind its end if the line has at most
`2 ^ 32 - 2` bytes. They are in the order of their lines, with one for a line at most. -/
theorem Reading.ofSource_placed (file : UInt32) (source : Bytes)
    (hlines : source.lines.length < 2 ^ 32) (hsource : source.length < 2 ^ 32) :
    let reading := ofSource file source
    (∀ s ∈ reading.program, s.PlacedIn file source) ∧
    (reading.program.Pairwise fun s t => s.location.Before t.location) ∧
    (∀ d ∈ reading.diagnostics, ∃ line, d.NamesLine file source line ∧
      (line.length ≤ 2 ^ 32 - 2 →
        0 < d.location.column.toNat ∧ d.location.column.toNat ≤ line.length + 1)) ∧
    (reading.diagnostics.Pairwise fun d e => d.location.line < e.location.line) ∧
    ∀ p, Program.assemble file source = .ok p →
      (p.map fun s => (s.operation, s.location)) =
        reading.program.instructions.map (fun s => (s.operation, s.location)) ∧
      ∀ s ∈ p, s.PlacedIn file source := by
  intro reading
  have hbound : 1 + source.lines.length ≤ 2 ^ 32 := by omega
  have hprogram := placedIn_of_mem_program file hlines hsource
  refine ⟨hprogram, pairwise_before_ofLines file hbound fun line hline => ?_,
    namesLine_of_mem_diagnostics file hlines hsource, pairwise_line_ofLines file hbound, ?_⟩
  · have hlength := Bytes.length_le_of_mem_lines hline
    omega
  · intro p hp
    obtain ⟨-, hlink⟩ := Program.assemble_eq_ok_iff.mp hp
    obtain ⟨-, -, rfl⟩ := Program.link_eq_ok_iff.mp hlink
    refine ⟨by rw [List.map_map]; rfl, fun s hs => ?_⟩
    obtain ⟨t, ht, rfl⟩ := List.mem_map.mp hs
    obtain ⟨k, line, hline, hfile, hnumber, hstands⟩ := hprogram t (List.mem_of_mem_filter ht)
    exact ⟨k, line, hline, hfile, hnumber, hstands.linked _⟩

namespace Reading

/-- A text with a label in front of an instruction, and one with a fault at a word and one behind
the end of its last line. -/
theorem ofSource_placed_of_loop :
    let source := ascii "loop:\n\tmv r1, r2 ; copy\nend: jmp loop"
    let faulty := ascii "  foo r1\nnop\n mv r1,"
    let p : Program :=
      [{ operation := .mv, operands := [.register 1, .register 2],
         location := { file := 3, line := 2, column := 2 } },
       { operation := .jmp, operands := [.address 0],
         location := { file := 3, line := 3, column := 6 } }]
    source.lines.length < 2 ^ 32 ∧ source.length < 2 ^ 32 ∧
      (ofSource 3 source).program.map (·.location.column) = [1, 2, 1, 6] ∧
      (∀ s ∈ (ofSource 3 source).program, s.PlacedIn 3 source) ∧
      Program.assemble 3 source = .ok p ∧ (∀ s ∈ p, s.PlacedIn 3 source) ∧
      faulty.lines.length < 2 ^ 32 ∧ faulty.length < 2 ^ 32 ∧
      (ofSource 3 faulty).diagnostics.map (·.location.column) = [3, 8] ∧
      ∀ d ∈ (ofSource 3 faulty).diagnostics, ∃ line, d.NamesLine 3 faulty line ∧
        0 < d.location.column.toNat ∧ d.location.column.toNat ≤ line.length + 1 := by
  intro source faulty p
  have hlines : source.lines.length < 2 ^ 32 := by decide
  have hsource : source.length < 2 ^ 32 := by decide
  have hassemble : Program.assemble 3 source = .ok p := by decide
  have hfaultylines : faulty.lines.length < 2 ^ 32 := by decide
  have hfaulty : faulty.length < 2 ^ 32 := by decide
  obtain ⟨hprogram, -, -, -, hp⟩ := ofSource_placed 3 source hlines hsource
  obtain ⟨-, -, hdiagnostics, -⟩ := ofSource_placed 3 faulty hfaultylines hfaulty
  refine ⟨hlines, hsource, by decide, hprogram, hassemble, (hp p hassemble).2, hfaultylines,
    hfaulty, by decide, fun d hd => ?_⟩
  obtain ⟨line, ⟨k, hline, hplace⟩, hcolumn⟩ := hdiagnostics d hd
  have hlength := Bytes.length_le_of_mem_lines (List.mem_of_getElem? hline)
  have hshort : faulty.length ≤ 2 ^ 32 - 2 := by decide
  exact ⟨line, ⟨k, hline, hplace⟩, hcolumn (hlength.trans hshort)⟩

/-- A comma at the end of a line leaves an operand missing behind the end. -/
theorem ofSource_trailing_comma (file : UInt32) (n : Nat) :
    (Bytes.lines (List.replicate n 32 ++ ascii "a r,")).length = 1 ∧
    (ofSource file (List.replicate n 32 ++ ascii "a r,")).diagnostics =
      [LineFault.diagnostic { file, line := 1 }
        { error := .missingOperand, column := (n + 5).toUInt32 }] := by
  have hblank : AllBlank (List.replicate n 32) := fun b hb => by
    rw [(List.mem_replicate.mp hb).2]
    rfl
  have hnewline : Bytes.newline ∉ List.replicate n 32 ++ ascii "a r," := by
    rw [List.mem_append, List.mem_replicate, not_or]
    exact ⟨fun h => absurd h.2 (by decide), by decide⟩
  have hreturn : Bytes.withoutReturn (List.replicate n 32 ++ ascii "a r,") =
      List.replicate n 32 ++ ascii "a r," := by
    rw [Bytes.withoutReturn, List.getLast?_append_of_ne_nil _ (by decide), if_neg (by decide)]
  have hsemicolon : semicolon ∉ List.replicate n 32 ++ ascii "a r," := by
    rw [List.mem_append, not_or]
    exact ⟨not_mem_of_allBlank hblank rfl, by decide⟩
  have hfirst : ∀ b ∈ (ascii "a r,").head?, isBlank b = false := by
    rintro b ⟨⟩
    rfl
  have htokens : LineTokens.ofLine (List.replicate n 32 ++ ascii "a r,") =
      .error { error := .missingOperand, column := (n + 5).toUInt32 } := by
    rw [ofLine_eq, withoutComment_of_not_mem hsemicolon, Cursor.skipBlanks_append 0 hblank hfirst,
      List.length_replicate, Nat.zero_add]
    rfl
  constructor
  · rw [Bytes.lines_of_not_mem hnewline]
    rfl
  · rw [ofSource_of_not_mem file hnewline, hreturn, ofLine, Statement.ofLine, htokens]

theorem column_behind_longest_line (file : UInt32) {n : Nat} (hn : n + 5 = 2 ^ 32) :
    let source : Bytes := List.replicate n 32 ++ ascii "a r,"
    source.lines.length < 2 ^ 32 ∧ source.length < 2 ^ 32 ∧
      (ofSource file source).diagnostics.map (·.location.column) = [0] := by
  intro source
  obtain ⟨hone, hdiagnostics⟩ := ofSource_trailing_comma file n
  have hlines : source.lines.length = 1 := hone
  have hcomma : (ascii "a r,").length = 4 := by decide
  have hlength : source.length = n + 4 := by
    rw [List.length_append, List.length_replicate, hcomma]
  refine ⟨by omega, by omega, ?_⟩
  rw [hdiagnostics, hn]
  rfl

/-- A text of one line and `2 ^ 32 - 1` bytes has a diagnostic whose column is not from 1 on. -/
theorem not_placed_behind_longest_line :
    let source : Bytes := List.replicate (2 ^ 32 - 5) 32 ++ ascii "a r,"
    source.lines.length < 2 ^ 32 ∧ source.length < 2 ^ 32 ∧
      (ofSource 1 source).diagnostics.map (·.location.column) = [0] ∧
      ¬ ∀ d ∈ (ofSource 1 source).diagnostics, 1 ≤ d.location.column.toNat := by
  intro source
  obtain ⟨hlines, hsource, hcolumns⟩ := column_behind_longest_line 1 (n := 2 ^ 32 - 5) (by decide)
  refine ⟨hlines, hsource, hcolumns, fun hplaced => ?_⟩
  obtain ⟨d, hd, hzero⟩ : ∃ d ∈ (ofSource 1 source).diagnostics, d.location.column = 0 := by
    rw [← List.mem_map, hcolumns]
    exact List.mem_singleton_self _
  have hcolumn := hplaced d hd
  rw [hzero] at hcolumn
  exact absurd hcolumn (by decide)

end Reading
end RegisterMachine
