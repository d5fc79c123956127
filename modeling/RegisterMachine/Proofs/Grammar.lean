/-
# The grammar of a line

A line can be cut into tokens if, and only if, it has this form up to its
comment: blanks; a label, its colon and blanks; a mnemonic and its operands;
blanks. The label may be missing, and so may the instruction. The operands
stand between commas, each in blanks, and a blank parts the first of them from
the mnemonic. `LineForm` is a line taken apart in this way, and
`LineForm.bytes` puts it together again.

The tokens are the parts of the form, at the places where they stand
(`LineForm.tokens`). A word ends at a blank, at a comma and, in front of a
label, at a colon, so what is found is the only way to take the line apart. Each
stage is described by the forms that it accepts, and the next stage is built on
that: `LineTokens.ofWord_eq_ok_iff`, `LineTokens.ofLabelled_eq_ok_iff`,
`LineTokens.ofLine_eq_ok_iff`.

Key definitions: `InstructionForm`, `LabelForm`, `LineForm`,
`LineForm.WellFormed`, `LineForm.tokens`, `LineTokens.all`.
Key theorems: `LineTokens.ofLine_eq_ok_iff`,
`LineForm.standsIn_of_mem_tokens`, `LineTokens.ofLine_grammar`.
-/
import RegisterMachine.Proofs.Slots

namespace RegisterMachine

open Ascii LineTokens

/-! ### The form of a line -/

/-- A mnemonic and its operands. -/
structure InstructionForm where
  mnemonic : Bytes
  operands : List Slot := []
deriving DecidableEq, Repr

namespace InstructionForm

/-- A mnemonic, and its operands behind it. -/
def bytes (i : InstructionForm) : Bytes := i.mnemonic ++ Slot.joined i.operands

/-- A mnemonic has neither blanks nor commas in it, and blanks part the operands from it. -/
structure WellFormed (i : InstructionForm) : Prop where
  mnemonic_ne_nil : i.mnemonic ≠ []
  mnemonic : ∀ b ∈ i.mnemonic, isBlank b = false ∧ b ≠ comma
  operands : ∀ s ∈ i.operands, s.WellFormed
  gap : ∀ s ∈ i.operands.head?, s.before ≠ []

instance : DecidablePred WellFormed := fun i =>
  have : DecidablePred fun b => isBlank b = false ∧ b ≠ comma := fun _ => instDecidableAnd
  have : Decidable (∀ b ∈ i.mnemonic, isBlank b = false ∧ b ≠ comma) := List.decidableBAll _ _
  have : Decidable (∀ s ∈ i.operands, s.WellFormed) := List.decidableBAll _ _
  decidable_of_iff
    (i.mnemonic ≠ [] ∧ (∀ b ∈ i.mnemonic, isBlank b = false ∧ b ≠ comma) ∧
      (∀ s ∈ i.operands, s.WellFormed) ∧ ∀ s ∈ i.operands.head?, s.before ≠ [])
    ⟨fun ⟨hne, mnemonic, operands, gap⟩ => ⟨hne, mnemonic, operands, gap⟩,
      fun h => ⟨h.mnemonic_ne_nil, h.mnemonic, h.operands, h.gap⟩⟩

/-- The tokens of an instruction that stands behind `offset` bytes. -/
def tokens (label : Option Token) (offset : Nat) (i : InstructionForm) : LineTokens where
  label
  mnemonic := some (.atOffset offset i.mnemonic)
  operands := Slot.tokens (offset + i.mnemonic.length) i.operands

end InstructionForm

/-- The name of a label, and the blanks behind its colon. -/
structure LabelForm where
  name : Bytes
  gap : Bytes := []
deriving DecidableEq, Repr

/-- The name of a label, its colon and the blanks behind it. -/
def LabelForm.bytes (l : LabelForm) : Bytes := l.name ++ colon :: l.gap

/-- A line without its comment, taken apart. -/
structure LineForm where
  lead : Bytes := []
  label : Option LabelForm := none
  instruction : Option InstructionForm := none
  trail : Bytes := []
deriving DecidableEq, Repr

namespace LineForm

/-- What stands in front of the instruction of a line. -/
def front (f : LineForm) : Bytes := f.lead ++ (f.label.map LabelForm.bytes).getD []

/-- The line that has this form. -/
def bytes (f : LineForm) : Bytes :=
  f.front ++ (f.instruction.map InstructionForm.bytes).getD [] ++ f.trail

/-- A label is an identifier. Where there is none, the mnemonic has no colon in it. -/
structure WellFormed (f : LineForm) : Prop where
  lead : AllBlank f.lead
  label : ∀ l ∈ f.label, isIdentifier l.name = true ∧ AllBlank l.gap
  instruction : ∀ i ∈ f.instruction, i.WellFormed
  colon_not_mem : f.label = none → ∀ i ∈ f.instruction, colon ∉ i.mnemonic
  trail : AllBlank f.trail

instance : DecidablePred WellFormed := fun f =>
  decidable_of_iff
    (AllBlank f.lead ∧ (∀ l ∈ f.label, isIdentifier l.name = true ∧ AllBlank l.gap) ∧
      (∀ i ∈ f.instruction, i.WellFormed) ∧
      (f.label = none → ∀ i ∈ f.instruction, colon ∉ i.mnemonic) ∧ AllBlank f.trail)
    ⟨fun ⟨lead, label, instruction, hcolon, trail⟩ => ⟨lead, label, instruction, hcolon, trail⟩,
      fun h => ⟨h.lead, h.label, h.instruction, h.colon_not_mem, h.trail⟩⟩

/-- The parts of the form, without the blanks. -/
def parts (f : LineForm) : LineParts where
  label := f.label.map (·.name)
  mnemonic := f.instruction.map (·.mnemonic)
  operands := (f.instruction.map fun i => i.operands.map (·.text)).getD []

/-- The parts of the form, at the places where they stand. -/
def tokens (f : LineForm) : LineTokens where
  label := f.label.map fun l => .atOffset f.lead.length l.name
  mnemonic := f.instruction.map fun i => .atOffset f.front.length i.mnemonic
  operands := (f.instruction.map fun i =>
    Slot.tokens (f.front.length + i.mnemonic.length) i.operands).getD []

theorem tokens_eq (f : LineForm) :
    f.tokens = f.instruction.elim { label := f.tokens.label }
      (·.tokens f.tokens.label f.front.length) := by
  obtain ⟨lead, label, instruction, trail⟩ := f
  cases instruction <;> rfl

end LineForm

/-! ### Instructions -/

namespace LineTokens

theorem ofWord_eq (label : Option Token) (start : Cursor) {word : Bytes} (after : Cursor)
    (hne : word ≠ []) : ofWord label start word after =
      if AllBlank after.rest then .ok { label, mnemonic := some (start.token word) }
      else (operandTokens after.offset (after.rest.splitOn comma)).map fun operands =>
        { label, mnemonic := some (start.token word), operands } := by
  obtain ⟨blanks, hblanks, hrest, hoffset⟩ := after.exists_skipBlanks
  have hend : after.skipBlanks.rest = [] ↔ AllBlank after.rest := trimLeft_eq_nil_iff
  have hoperands := operandTokens_append_blanks hblanks after.offset after.skipBlanks.rest
  rw [← hrest, ← hoffset] at hoperands
  rw [ofWord, if_neg hne]
  simp only [hend, hoperands]
  split
  · rfl
  · cases operandTokens after.skipBlanks.offset (after.skipBlanks.rest.splitOn comma) <;> rfl

/-- **What is cut behind a mnemonic is a list of operands, and blanks.** -/
theorem ofWord_eq_ok_iff {label : Option Token} {start after : Cursor} {word : Bytes}
    {tokens : LineTokens} : ofWord label start word after = .ok tokens ↔
      word ≠ [] ∧ ∃ (slots : List Slot) (trail : Bytes), (∀ s ∈ slots, s.WellFormed) ∧
        AllBlank trail ∧ after.rest = Slot.joined slots ++ trail ∧
        tokens = { label, mnemonic := some (start.token word),
                   operands := Slot.tokens after.offset slots } := by
  by_cases hne : word = []
  · simp [ofWord, hne]
  rw [ofWord_eq label start after hne]
  by_cases hblank : AllBlank after.rest
  · rw [if_pos hblank]
    constructor
    · intro h
      cases h
      exact ⟨hne, [], after.rest, by simp, hblank, rfl, rfl⟩
    · rintro ⟨-, slots, trail, hslots, -, hrest, rfl⟩
      rw [hrest] at hblank
      rw [Slot.eq_nil_of_allBlank hslots hblank]
      rfl
  · rw [if_neg hblank, map_eq_ok_iff]
    simp only [operandTokens_splitOn_eq_ok_iff]
    constructor
    · rintro ⟨operands, ⟨slots, -, hslots, hrest, rfl⟩, rfl⟩
      exact ⟨hne, slots, [], hslots, allBlank_nil, by rw [List.append_nil, hrest], rfl⟩
    · rintro ⟨-, slots, trail, hslots, htrail, hrest, rfl⟩
      have hsome : slots ≠ [] := by
        rintro rfl
        apply hblank
        rwa [hrest]
      obtain ⟨wider, hwide, hwider, hjoined, htokens⟩ :=
        Slot.exists_joined_append htrail hsome hslots
      exact ⟨_, ⟨wider, hwide, hwider, by rw [hrest, hjoined], rfl⟩, by rw [htokens]⟩

section

variable {stop : UInt8 → Bool} (hstop : ∀ b, isBlank b = true ∨ b = comma → stop b = true)
include hstop

theorem word_of_form {start : Cursor} {i : InstructionForm} {trail : Bytes} (hi : i.WellFormed)
    (hword : ∀ b ∈ i.mnemonic, stop b = false) (htrail : AllBlank trail)
    (hstart : start.rest = i.bytes ++ trail) :
    start.word stop = (i.mnemonic, { offset := start.offset + i.mnemonic.length,
                                     rest := Slot.joined i.operands ++ trail }) := by
  obtain ⟨offset, rest⟩ := start
  obtain rfl : rest = i.bytes ++ trail := hstart
  have hhead := (Slot.gap_iff hi.operands htrail).mp hi.gap
  rw [InstructionForm.bytes, List.append_assoc]
  exact word_append _ offset hword fun b hb => hstop b (hhead b hb)

theorem ofWord_of_form (label : Option Token) {start : Cursor} {i : InstructionForm}
    {trail : Bytes} (hi : i.WellFormed) (hword : ∀ b ∈ i.mnemonic, stop b = false)
    (htrail : AllBlank trail) (hstart : start.rest = i.bytes ++ trail) :
    ofWord label start (start.word stop).1 (start.word stop).2 =
      .ok (i.tokens label start.offset) := by
  rw [word_of_form hstop hi hword htrail hstart]
  exact ofWord_eq_ok_iff.mpr ⟨hi.mnemonic_ne_nil, i.operands, trail, hi.operands, htrail, rfl, rfl⟩

theorem exists_form_of_ofWord {label : Option Token} {start : Cursor} {tokens : LineTokens}
    (hhead : ∀ b ∈ (start.word stop).2.rest.head?, isBlank b = true ∨ b = comma)
    (h : ofWord label start (start.word stop).1 (start.word stop).2 = .ok tokens) :
    ∃ (i : InstructionForm) (trail : Bytes), i.WellFormed ∧ (∀ b ∈ i.mnemonic, stop b = false) ∧
      AllBlank trail ∧ start.rest = i.bytes ++ trail ∧ tokens = i.tokens label start.offset := by
  obtain ⟨hcut, hoffset, hword, -⟩ := start.word_spec stop
  obtain ⟨hne, slots, trail, hslots, htrail, hrest, rfl⟩ := ofWord_eq_ok_iff.mp h
  rw [hrest] at hhead hcut
  refine ⟨⟨(start.word stop).1, slots⟩, trail, ⟨hne, fun b hb => ?_, hslots, ?_⟩, hword, htrail,
    ?_, ?_⟩
  · have hb := hword b hb
    have hnone : ¬ (isBlank b = true ∨ b = comma) := fun hends => by
      rw [hstop b hends] at hb
      cases hb
    rw [not_or, Bool.not_eq_true] at hnone
    exact hnone
  · exact (Slot.gap_iff hslots htrail).mpr hhead
  · rw [hcut, InstructionForm.bytes, List.append_assoc]
  · rw [hoffset]
    rfl

end

/-! ### Lines -/

/-- **What is cut behind a label is an instruction, or nothing.** -/
theorem ofLabelled_eq_ok_iff {label : Token} {start : Cursor} {tokens : LineTokens}
    (hstart : ∀ b ∈ start.rest.head?, isBlank b = false) :
    ofLabelled label start = .ok tokens ↔
      ∃ (instruction : Option InstructionForm) (trail : Bytes),
        (∀ i ∈ instruction, i.WellFormed) ∧ AllBlank trail ∧
        start.rest = (instruction.map InstructionForm.bytes).getD [] ++ trail ∧
        tokens = instruction.elim { label := some label } (·.tokens (some label) start.offset) := by
  have hstop (b : UInt8) : isBlank b = true ∨ b = comma ↔ (isBlank b || b == comma) = true := by
    simp
  by_cases hrest : start.rest = []
  · rw [ofLabelled, if_pos hrest, hrest]
    constructor
    · intro h
      cases h
      exact ⟨none, [], by simp, allBlank_nil, rfl, rfl⟩
    · rintro ⟨_ | i, trail, hi, -, hnil, rfl⟩
      · rfl
      · have hne : i.mnemonic ≠ [] := (hi i rfl).mnemonic_ne_nil
        simp [InstructionForm.bytes, hne] at hnil
  · rw [ofLabelled, if_neg hrest]
    constructor
    · intro h
      have hends := (start.word_spec fun b => isBlank b || b == comma).2.2.2
      obtain ⟨i, trail, hi, -, htrail, hbytes, rfl⟩ :=
        exists_form_of_ofWord (fun b => (hstop b).mp) (fun b hb => (hstop b).mpr (hends b hb)) h
      refine ⟨some i, trail, ?_, htrail, hbytes, rfl⟩
      rintro j ⟨⟩
      exact hi
    · rintro ⟨_ | i, trail, hi, htrail, hbytes, rfl⟩
      · -- The blanks in front are skipped already, so there is nothing left of them.
        have hblank : AllBlank start.rest := by
          rw [hbytes]
          exact htrail
        obtain ⟨b, rest, hcons⟩ := List.exists_cons_of_ne_nil hrest
        have hfirst := hblank b (by simp [hcons])
        rw [hstart b (by simp [hcons])] at hfirst
        cases hfirst
      · have hword : ∀ b ∈ i.mnemonic, (isBlank b || b == comma) = false := fun b hb => by
          simpa using (hi i rfl).mnemonic b hb
        exact ofWord_of_form (fun b => (hstop b).mp) (some label) (hi i rfl) hword htrail hbytes

/-- The bytes that end the first word of a line. -/
def endsFirstWord (b : UInt8) : Bool := isBlank b || b == colon || b == comma

theorem endsFirstWord_iff (b : UInt8) :
    endsFirstWord b = true ↔ b = colon ∨ isBlank b = true ∨ b = comma := by
  simp [endsFirstWord, or_comm, or_left_comm]

theorem endsFirstWord_of_ends (b : UInt8) (h : isBlank b = true ∨ b = comma) :
    endsFirstWord b = true := (endsFirstWord_iff b).mpr (Or.inr h)

theorem endsFirstWord_of_isWord {text : Bytes} (h : IsWord text) :
    ∀ b ∈ text, endsFirstWord b = false := by
  intro b hb
  have hb := h.2 b hb
  have hcolon : b ≠ colon := ne_of_isWordByte hb (by decide)
  have hcomma : b ≠ comma := ne_of_isWordByte hb (by decide)
  simp [endsFirstWord, isBlank_of_isWordByte hb, hcolon, hcomma]

/-- The tokens from the first word on, which is a label if a colon ends it. -/
def ofFirstWord (start : Cursor) : Except LineFault LineTokens :=
  let word := (start.word endsFirstWord).1
  let after := (start.word endsFirstWord).2
  if start.rest = [] then .ok {}
  else if after.rest.head? = some colon then
    if isIdentifier word then
      ofLabelled (start.token word)
        (Cursor.skipBlanks { offset := after.offset + 1, rest := after.rest.tail })
    else .error (start.fault (.labelName word))
  else ofWord none start word after

theorem ofLine_eq (line : Bytes) :
    ofLine line = ofFirstWord (Cursor.skipBlanks { offset := 0, rest := withoutComment line }) := by
  generalize hstart : Cursor.skipBlanks { offset := 0, rest := withoutComment line } = start
  have hword : start.word (fun b => isBlank b || b == colon || b == comma) =
      start.word endsFirstWord := rfl
  rw [ofLine, ofFirstWord, hstart]
  simp only [hword]
  rcases start.word endsFirstWord with ⟨word, offset, rest⟩
  cases rest with
  | nil => rfl
  | cons b rest => simp only [List.head?_cons, Option.some.injEq, List.tail_cons]

end LineTokens

theorem InstructionForm.WellFormed.head?_bytes {i : InstructionForm} (h : i.WellFormed)
    (rest : Bytes) : ∀ b ∈ (i.bytes ++ rest).head?, isBlank b = false := by
  intro b hb
  rw [bytes, List.append_assoc, List.head?_append_of_ne_nil _ h.mnemonic_ne_nil] at hb
  exact (h.mnemonic b (List.mem_of_mem_head? hb)).1

namespace LineTokens

theorem exists_form_of_ofLabelled {lead name rest : Bytes} {tokens : LineTokens}
    (hlead : AllBlank lead) (hname : isIdentifier name = true)
    (h : ofLabelled (.atOffset lead.length name)
      (Cursor.skipBlanks { offset := lead.length + name.length + 1, rest }) = .ok tokens) :
    ∃ f : LineForm, f.WellFormed ∧ f.bytes = lead ++ (name ++ colon :: rest) ∧
      tokens = f.tokens := by
  obtain ⟨gap, hgap, hrest, hoffset⟩ :=
    Cursor.exists_skipBlanks { offset := lead.length + name.length + 1, rest }
  obtain ⟨instruction, trail, hi, htrail, hbytes, rfl⟩ :=
    (ofLabelled_eq_ok_iff (head?_trimLeft _)).mp h
  refine ⟨{ lead, label := some { name, gap }, instruction, trail },
    ⟨hlead, ?_, hi, by simp, htrail⟩, ?_, ?_⟩
  · rintro l ⟨⟩
    exact ⟨hname, hgap⟩
  · rw [hbytes] at hrest
    simp only at hrest
    simp [LineForm.bytes, LineForm.front, LabelForm.bytes, hrest]
  · have hfront : (Cursor.skipBlanks { offset := lead.length + name.length + 1, rest }).offset =
        (lead ++ (name ++ colon :: gap)).length := by
      rw [hoffset]
      simp only [List.length_append, List.length_cons]
      omega
    rw [hfront, LineForm.tokens_eq]
    rfl

theorem exists_form_of_unlabelled {lead : Bytes} {start : Cursor} {tokens : LineTokens}
    (hlead : AllBlank lead) (hoffset : start.offset = lead.length)
    (hcolon : (start.word endsFirstWord).2.rest.head? ≠ some colon)
    (h : ofWord none start (start.word endsFirstWord).1 (start.word endsFirstWord).2 =
      .ok tokens) :
    ∃ f : LineForm, f.WellFormed ∧ f.bytes = lead ++ start.rest ∧ tokens = f.tokens := by
  have hhead : ∀ b ∈ (start.word endsFirstWord).2.rest.head?, isBlank b = true ∨ b = comma := by
    intro b hb
    have hends := (endsFirstWord_iff b).mp ((start.word_spec endsFirstWord).2.2.2 b hb)
    refine hends.resolve_left ?_
    rintro rfl
    exact hcolon hb
  obtain ⟨i, trail, hi, hword, htrail, hbytes, rfl⟩ :=
    exists_form_of_ofWord endsFirstWord_of_ends hhead h
  refine ⟨{ lead, instruction := some i, trail }, ⟨hlead, by simp, ?_, ?_, htrail⟩, ?_, ?_⟩
  · rintro j ⟨⟩
    exact hi
  · rintro - j ⟨⟩ hmem
    have hends := hword colon hmem
    cases hends
  · simp [LineForm.bytes, LineForm.front, hbytes]
  · rw [hoffset, LineForm.tokens_eq]
    simp [LineForm.tokens, LineForm.front]

theorem exists_form_of_ofLine {line : Bytes} {tokens : LineTokens} (h : ofLine line = .ok tokens) :
    ∃ f : LineForm, f.WellFormed ∧ f.bytes = withoutComment line ∧ tokens = f.tokens := by
  obtain ⟨lead, hlead, hline, hoffset⟩ :=
    Cursor.exists_skipBlanks { offset := 0, rest := withoutComment line }
  simp only [Nat.zero_add] at hline hoffset
  rw [ofLine_eq] at h
  generalize Cursor.skipBlanks { offset := 0, rest := withoutComment line } = start at *
  obtain ⟨hcut, hafter, -, -⟩ := start.word_spec endsFirstWord
  rw [hline]
  simp only [ofFirstWord] at h
  split at h
  · rename_i hrest
    cases h
    exact ⟨{ lead }, ⟨hlead, by simp, by simp, by simp, allBlank_nil⟩,
      by simp [LineForm.bytes, LineForm.front, hrest], rfl⟩
  · split at h
    · rename_i hcolon
      obtain ⟨hname, h⟩ : isIdentifier (start.word endsFirstWord).1 = true ∧ _ := by
        split at h
        · exact ⟨‹_›, h⟩
        · cases h
      have htoken : start.token (start.word endsFirstWord).1 =
          .atOffset lead.length (start.word endsFirstWord).1 := by
        rw [← hoffset]
        rfl
      rw [hafter, hoffset, htoken] at h
      obtain ⟨f, hf, hbytes, htokens⟩ := exists_form_of_ofLabelled hlead hname h
      rw [List.cons_head?_tail hcolon, ← hcut] at hbytes
      exact ⟨f, hf, hbytes, htokens⟩
    · rename_i hcolon
      exact exists_form_of_unlabelled hlead hoffset hcolon h

theorem ofFirstWord_instruction (offset : Nat) {i : InstructionForm} {trail : Bytes}
    (hi : i.WellFormed) (hcolon : colon ∉ i.mnemonic) (htrail : AllBlank trail) :
    ofFirstWord { offset, rest := i.bytes ++ trail } = .ok (i.tokens none offset) := by
  have hword : ∀ b ∈ i.mnemonic, endsFirstWord b = false := by
    intro b hb
    have hne : b ≠ colon := by
      rintro rfl
      exact hcolon hb
    simpa [endsFirstWord, hne] using hi.mnemonic b hb
  have hcut := word_of_form endsFirstWord_of_ends hi hword htrail
    (show Cursor.rest { offset, rest := i.bytes ++ trail } = _ from rfl)
  have htokens := ofWord_of_form endsFirstWord_of_ends none hi hword htrail
    (show Cursor.rest { offset, rest := i.bytes ++ trail } = _ from rfl)
  have hrest : i.bytes ++ trail ≠ [] := by simp [InstructionForm.bytes, hi.mnemonic_ne_nil]
  have hnone : (Slot.joined i.operands ++ trail).head? ≠ some colon := by
    intro hhead
    have hends := (Slot.gap_iff hi.operands htrail).mp hi.gap colon hhead
    revert hends
    decide
  rw [ofFirstWord]
  simp only [hrest, if_false, hcut, hnone]
  rwa [hcut] at htokens

theorem ofFirstWord_label (offset : Nat) {name : Bytes} (rest : Bytes)
    (hname : isIdentifier name = true) :
    ofFirstWord { offset, rest := name ++ colon :: rest } =
      ofLabelled (.atOffset offset name)
        (Cursor.skipBlanks { offset := offset + name.length + 1, rest }) := by
  have hword := endsFirstWord_of_isWord (isWord_of_isIdentifier hname)
  have hcut : Cursor.word endsFirstWord { offset, rest := name ++ colon :: rest } =
      (name, { offset := offset + name.length, rest := colon :: rest }) :=
    word_append (colon :: rest) offset hword (by simp [endsFirstWord])
  have hne : name ++ colon :: rest ≠ [] := by simp
  rw [ofFirstWord]
  simp only [hcut, hne, if_false, List.head?_cons, if_true, hname, List.tail_cons]
  rfl

theorem ofLine_of_form {line : Bytes} {f : LineForm} (hf : f.WellFormed)
    (hline : f.bytes = withoutComment line) : ofLine line = .ok f.tokens := by
  obtain ⟨lead, label, instruction, trail⟩ := f
  obtain ⟨hlead, hlabel, hi, hcolon, htrail⟩ := hf
  simp only [LineForm.bytes, LineForm.front] at hlead hlabel hi hcolon htrail hline
  rw [ofLine_eq, ← hline]
  cases label with
  | none =>
    cases instruction with
    | none =>
      have hblank : AllBlank (lead ++ trail) := List.forall_mem_append.mpr ⟨hlead, htrail⟩
      have hskip := Cursor.skipBlanks_of_allBlank 0 hblank
      simp [hskip, ofFirstWord, LineForm.tokens]
    | some i =>
      have hskip := Cursor.skipBlanks_append 0 hlead ((hi i rfl).head?_bytes trail)
      simp only [Option.map_none, Option.getD_none, List.append_nil, Option.map_some,
        Option.getD_some, List.append_assoc, hskip]
      rw [ofFirstWord_instruction _ (hi i rfl) (hcolon rfl i rfl) htrail, LineForm.tokens_eq]
      simp [LineForm.tokens, LineForm.front]
  | some l =>
    obtain ⟨hname, hgap⟩ := hlabel l rfl
    have hbytes (rest : Bytes) : lead ++ l.bytes ++ rest ++ trail =
        lead ++ (l.name ++ colon :: (l.gap ++ (rest ++ trail))) := by
      simp [LabelForm.bytes]
    have hword := isWord_of_isIdentifier hname
    rw [Option.map_some, Option.getD_some, hbytes,
      Cursor.skipBlanks_append 0 hlead (hword.trimmed.head?_append hword.1 _),
      ofFirstWord_label _ _ hname]
    cases instruction with
    | none =>
      have hblank : AllBlank (l.gap ++ trail) := List.forall_mem_append.mpr ⟨hgap, htrail⟩
      have hskip (offset : Nat) := Cursor.skipBlanks_of_allBlank offset hblank
      simp [hskip, ofLabelled, LineForm.tokens]
    | some i =>
      have hskip (offset : Nat) :=
        Cursor.skipBlanks_append offset hgap ((hi i rfl).head?_bytes trail)
      simp only [Option.map_some, Option.getD_some, hskip]
      apply (ofLabelled_eq_ok_iff ((hi i rfl).head?_bytes trail)).mpr
      refine ⟨some i, trail, hi, htrail, rfl, ?_⟩
      rw [LineForm.tokens_eq]
      simp [LineForm.tokens, LineForm.front, LabelForm.bytes, Nat.add_assoc, Nat.add_comm,
        Nat.add_left_comm]

/-- **The lines that are cut into tokens are those of the grammar**, and the tokens are its parts. -/
theorem ofLine_eq_ok_iff {line : Bytes} {tokens : LineTokens} : ofLine line = .ok tokens ↔
    ∃ f : LineForm, f.WellFormed ∧ f.bytes = withoutComment line ∧ tokens = f.tokens := by
  refine ⟨exists_form_of_ofLine, ?_⟩
  rintro ⟨f, hf, hline, rfl⟩
  exact ofLine_of_form hf hline

end LineTokens

/-! ### The places of the tokens -/

/-- All tokens of a line, in their order. -/
def LineTokens.all (tokens : LineTokens) : List Token :=
  tokens.label.toList ++ tokens.mnemonic.toList ++ tokens.operands

namespace LineForm

theorem standsIn_of_mem_tokens {f : LineForm} (hf : f.WellFormed) {line behind : Bytes}
    (hcut : line = f.bytes ++ behind) (hline : line.length < 2 ^ 32) :
    ∀ t ∈ f.tokens.all, t.StandsIn line := by
  intro t ht
  simp only [LineTokens.all, tokens, List.mem_append, Option.mem_toList, Option.map_eq_some_iff]
    at ht
  rcases ht with (⟨l, hl, rfl⟩ | ⟨i, hi, rfl⟩) | ht
  · have hname : l.name ≠ [] := (isWord_of_isIdentifier (hf.label l hl).1).1
    apply Token.standsIn_atOffset _ hname hline
    · exact colon :: l.gap ++ (f.instruction.map InstructionForm.bytes).getD [] ++ f.trail ++ behind
    · simp [hcut, bytes, front, hl, LabelForm.bytes]
  · apply Token.standsIn_atOffset _ (hf.instruction i hi).mnemonic_ne_nil hline
    · exact Slot.joined i.operands ++ f.trail ++ behind
    · simp [hcut, bytes, hi, InstructionForm.bytes]
  · cases hi : f.instruction with
    | none =>
      rw [hi] at ht
      cases ht
    | some i =>
      rw [hi, Option.map_some, Option.getD_some, ← List.length_append] at ht
      apply Slot.standsIn_of_mem_tokens hline (hf.instruction i hi).operands _ t ht
      · exact f.trail ++ behind
      · simp [hcut, bytes, hi, InstructionForm.bytes]

theorem parts_tokens (f : LineForm) : f.tokens.parts = f.parts := by
  obtain ⟨lead, label, instruction, trail⟩ := f
  cases instruction <;>
    simp [tokens, parts, LineTokens.parts, Token.atOffset, Slot.map_text_tokens, Function.comp_def]

end LineForm

namespace LineTokens

/-- What is taken off a line as its comment begins with a semicolon. -/
theorem exists_append_withoutComment (line : Bytes) :
    ∃ behind, line = withoutComment line ++ behind ∧ ∀ b ∈ behind.head?, b = semicolon := by
  refine ⟨line.dropWhile (· != semicolon), List.takeWhile_append_dropWhile.symm, fun b hb => ?_⟩
  have h := List.head?_dropWhile_not (· != semicolon) line
  rw [hb] at h
  simpa using h

theorem standsIn_of_ofLine {line : Bytes} {tokens : LineTokens} (hline : line.length < 2 ^ 32)
    (h : ofLine line = .ok tokens) : ∀ t ∈ tokens.all, t.StandsIn line := by
  obtain ⟨f, hf, hbytes, rfl⟩ := exists_form_of_ofLine h
  obtain ⟨behind, hcut, -⟩ := exists_append_withoutComment line
  rw [← hbytes] at hcut
  exact f.standsIn_of_mem_tokens hf hcut hline

/-- **Cutting a line is lossless and follows one grammar.** A line is cut into tokens exactly if, up
to its comment, it has the form of a line, and then into the parts of this form, in their order and
at their places; each of them stands in the line at its column. So two lines with the same parts
have tokens with the same texts, whatever blanks and comments they have. -/
theorem ofLine_grammar (line : Bytes) (hline : line.length < 2 ^ 32) :
    (∀ tokens, ofLine line = .ok tokens ↔
      ∃ f : LineForm, f.WellFormed ∧ f.bytes = withoutComment line ∧ tokens = f.tokens) ∧
    (∀ tokens, ofLine line = .ok tokens → ∀ t ∈ tokens.all, t.StandsIn line) ∧
    ∀ f : LineForm, f.WellFormed → f.bytes = withoutComment line →
      ∀ (other : Bytes) (g : LineForm), g.WellFormed → g.bytes = withoutComment other →
        g.parts = f.parts → ∃ tokens others, ofLine line = .ok tokens ∧
          ofLine other = .ok others ∧ tokens.parts = f.parts ∧ others.parts = f.parts := by
  refine ⟨fun tokens => ofLine_eq_ok_iff, fun tokens => standsIn_of_ofLine hline, ?_⟩
  intro f hf hbytes other g hg hother hparts
  refine ⟨f.tokens, g.tokens, ofLine_of_form hf hbytes, ofLine_of_form hg hother,
    f.parts_tokens, ?_⟩
  rw [g.parts_tokens, hparts]

/-- A line with blanks wherever they may be and a comment, and the same line with as few as
possible. -/
theorem ofLine_grammar_of_wide :
    let wide := ascii "  loop:\tadd  r3 , r1,r2 ; r3 = r1 + r2"
    let narrow := ascii "loop:add r3,r1,r2"
    let form : LineForm :=
      { lead := ascii "  ", label := some { name := ascii "loop", gap := ascii "\t" }
        instruction := some
          { mnemonic := ascii "add"
            operands := [{ before := ascii "  ", text := ascii "r3", after := ascii " " },
              { before := ascii " ", text := ascii "r1" },
              { text := ascii "r2", after := ascii " " }] } }
    let tokens : LineTokens :=
      { label := some { text := ascii "loop", column := 3 }
        mnemonic := some { text := ascii "add", column := 9 }
        operands := [{ text := ascii "r3", column := 14 }, { text := ascii "r1", column := 19 },
          { text := ascii "r2", column := 22 }] }
    wide.length < 2 ^ 32 ∧ ofLine wide = .ok tokens ∧ (∀ t ∈ tokens.all, t.StandsIn wide) ∧
      ∃ others, ofLine narrow = .ok others ∧ others.parts = form.parts := by
  intro wide narrow form tokens
  let dense : LineForm :=
    { label := some { name := ascii "loop" }
      instruction := some
        { mnemonic := ascii "add"
          operands := [{ before := ascii " ", text := ascii "r3" }, { text := ascii "r1" },
            { text := ascii "r2" }] } }
  have hlength : wide.length < 2 ^ 32 := by decide
  have hform : form.WellFormed := by decide
  have hdense : dense.WellFormed := by decide
  have hbytes : form.bytes = withoutComment wide := by decide
  have hdensebytes : dense.bytes = withoutComment narrow := by decide
  have htokens : form.tokens = tokens := by decide
  obtain ⟨hiff, hstands, hsame⟩ := ofLine_grammar wide hlength
  have hcut : ofLine wide = .ok tokens := (hiff tokens).mpr ⟨form, hform, hbytes, htokens.symm⟩
  obtain ⟨-, others, -, hothers, -, hparts⟩ :=
    hsame form hform hbytes narrow dense hdense hdensebytes rfl
  exact ⟨hlength, hcut, hstands tokens hcut, others, hothers, hparts⟩

end LineTokens
end RegisterMachine
