/-
# Operands between commas

What stands between two commas of a line is an operand in its blanks, a `Slot`.
Behind a mnemonic the line is cut at its commas, and each piece is trimmed. The
pieces are slots exactly if each of them holds something else than blanks, so
what is cut there is a list of slots with commas between them
(`LineTokens.operandTokens_splitOn_eq_ok_iff`), and an operand stands in the
line where its token says (`Slot.standsIn_of_mem_tokens`).

Blanks are taken off in three ways: from the front of what is left of a line,
from a piece at both ends, and by ending a word. Each is described by what it
leaves: a text that does not begin, or end, with a blank.

Key definitions: `Ascii.Trimmed`, `Token.atOffset`, `Token.StandsIn`, `Slot`,
`Slot.WellFormed`, `Slot.joined`, `Slot.tokens`.
Key theorems: `Ascii.exists_trim`, `Cursor.skipBlanks_append`,
`Cursor.word_spec`, `LineTokens.operandTokens_splitOn_eq_ok_iff`,
`LineTokens.operandTokens_append_blanks`, `Slot.gap_iff`,
`Slot.standsIn_of_mem_tokens`.
-/
import Mathlib.Algebra.Group.Nat.Defs
import RegisterMachine.Proofs.Pointwise
import RegisterMachine.Proofs.Tokens

namespace RegisterMachine

/-! ### Blanks at the ends of a text -/

namespace Ascii

/-- The text neither begins nor ends with a blank. -/
def Trimmed (text : Bytes) : Prop :=
  (∀ b ∈ text.head?, isBlank b = false) ∧ ∀ b ∈ text.getLast?, isBlank b = false

instance : DecidablePred Trimmed := fun text =>
  have : Decidable (∀ b ∈ text.head?, isBlank b = false) := Option.decidableForallMem _
  have : Decidable (∀ b ∈ text.getLast?, isBlank b = false) := Option.decidableForallMem _
  inferInstanceAs (Decidable (_ ∧ _))

theorem head?_trimLeft (text : Bytes) : ∀ b ∈ (trimLeft text).head?, isBlank b = false := by
  intro b hb
  have h := List.head?_dropWhile_not isBlank text
  rw [trimLeft] at hb
  rwa [hb] at h

theorem exists_trimLeft (text : Bytes) : ∃ before, AllBlank before ∧
    before.length = leadingBlanks text ∧ text = before ++ trimLeft text :=
  ⟨text.takeWhile isBlank, fun _ hb => List.mem_takeWhile_imp hb, rfl,
    List.takeWhile_append_dropWhile.symm⟩

theorem trimLeft_append_of_head? {before rest : Bytes} (hbefore : AllBlank before)
    (hrest : ∀ b ∈ rest.head?, isBlank b = false) : trimLeft (before ++ rest) = rest := by
  rw [trimLeft_append_blanks hbefore]
  cases rest with
  | nil => rfl
  | cons b rest => exact List.dropWhile_cons_of_neg (by simp [hrest b rfl])

theorem trimLeft_eq_nil_iff {text : Bytes} : trimLeft text = [] ↔ AllBlank text :=
  List.dropWhile_eq_nil_iff

theorem trim_eq (text : Bytes) : trim text = (trimLeft (trimLeft text).reverse).reverse := rfl

theorem exists_trim (text : Bytes) : ∃ before after, AllBlank before ∧ AllBlank after ∧
    trimLeft text = trim text ++ after ∧ text = before ++ trim text ++ after := by
  obtain ⟨before, hbefore, -, htext⟩ := exists_trimLeft text
  obtain ⟨after, hafter, -, hreverse⟩ := exists_trimLeft (trimLeft text).reverse
  have hleft : trimLeft text = trim text ++ after.reverse := by
    rw [trim_eq, ← List.reverse_append, ← hreverse, List.reverse_reverse]
  refine ⟨before, after.reverse, hbefore, ?_, hleft, ?_⟩
  · exact fun b hb => hafter b (List.mem_reverse.mp hb)
  · rw [List.append_assoc, ← hleft]
    exact htext

theorem trimmed_trim (text : Bytes) : Trimmed (trim text) := by
  obtain ⟨before, after, -, -, hleft, -⟩ := exists_trim text
  constructor
  · intro b hb
    apply head?_trimLeft text
    rw [hleft, List.head?_append, hb]
    rfl
  · intro b hb
    rw [trim_eq, List.getLast?_reverse] at hb
    exact head?_trimLeft _ b hb

theorem Trimmed.head?_append {text : Bytes} (h : Trimmed text) (hne : text ≠ []) (rest : Bytes) :
    ∀ b ∈ (text ++ rest).head?, isBlank b = false := by
  intro b hb
  rw [List.head?_append_of_ne_nil _ hne] at hb
  exact h.1 b hb

theorem IsWord.trimmed {text : Bytes} (h : IsWord text) : Trimmed text :=
  ⟨fun b hb => isBlank_of_isWordByte (h.2 b (List.mem_of_mem_head? hb)),
    fun b hb => isBlank_of_isWordByte (h.2 b (List.mem_of_getLast? hb))⟩

theorem trim_of_trimmed {text : Bytes} (h : Trimmed text) : trim text = text := by
  have hleft : trimLeft text = text := trimLeft_append_of_head? allBlank_nil h.1
  have hlast : ∀ b ∈ text.reverse.head?, isBlank b = false := by
    rw [List.head?_reverse]
    exact h.2
  have hright : trimLeft text.reverse = text.reverse :=
    trimLeft_append_of_head? allBlank_nil hlast
  rw [trim_eq, hleft, hright, List.reverse_reverse]

end Ascii

namespace Cursor

open Ascii

theorem exists_skipBlanks (c : Cursor) : ∃ blanks, AllBlank blanks ∧
    c.rest = blanks ++ c.skipBlanks.rest ∧ c.skipBlanks.offset = c.offset + blanks.length := by
  obtain ⟨blanks, hblanks, hlength, hrest⟩ := exists_trimLeft c.rest
  exact ⟨blanks, hblanks, hrest, by rw [hlength]; rfl⟩

theorem skipBlanks_append {blanks rest : Bytes} (offset : Nat) (hblanks : AllBlank blanks)
    (hrest : ∀ b ∈ rest.head?, isBlank b = false) :
    skipBlanks { offset, rest := blanks ++ rest } = { offset := offset + blanks.length, rest } := by
  have htrim : trimLeft (blanks ++ rest) = rest := trimLeft_append_of_head? hblanks hrest
  have hlength := leadingBlanks_add_length (blanks ++ rest)
  rw [htrim, List.length_append] at hlength
  simp only [skipBlanks, htrim, mk.injEq, and_true]
  omega

theorem skipBlanks_of_allBlank {blanks : Bytes} (offset : Nat) (h : AllBlank blanks) :
    skipBlanks { offset, rest := blanks } = { offset := offset + blanks.length, rest := [] } := by
  have hend : ∀ b ∈ ([] : Bytes).head?, isBlank b = false := fun b hb => by cases hb
  have hskip := skipBlanks_append offset h hend
  rwa [List.append_nil] at hskip

/-- A word and what is behind it are what was to be cut; the word ends where a byte ends it. -/
theorem word_spec (stop : UInt8 → Bool) (c : Cursor) :
    c.rest = (c.word stop).1 ++ (c.word stop).2.rest ∧
      (c.word stop).2.offset = c.offset + (c.word stop).1.length ∧
      (∀ b ∈ (c.word stop).1, stop b = false) ∧
      ∀ b ∈ (c.word stop).2.rest.head?, stop b = true := by
  refine ⟨List.takeWhile_append_dropWhile.symm, rfl, fun b hb => ?_, fun b hb => ?_⟩
  · simpa using List.mem_takeWhile_imp hb
  · have h := List.head?_dropWhile_not (!stop ·) c.rest
    rw [word] at hb
    rw [hb] at h
    simpa using h

end Cursor

open Ascii LineTokens

/-! ### Tokens at their places -/

/-- The token of a text behind the first `offset` bytes of a line. -/
def Token.atOffset (offset : Nat) (text : Bytes) : Token :=
  { text, column := (offset + 1).toUInt32 }

/-- The text of the token stands in the line at its column, counted from 1. -/
def Token.StandsIn (line : Bytes) (t : Token) : Prop :=
  ∃ before after, line = before ++ t.text ++ after ∧ t.column.toNat = before.length + 1

theorem Token.toNat_column_atOffset {offset : Nat} (text : Bytes) (h : offset + 1 < 2 ^ 32) :
    (Token.atOffset offset text).column.toNat = offset + 1 := by
  show (offset + 1).toUInt32.toNat = _
  rw [Nat.toUInt32_eq, UInt32.toNat_ofNat']
  exact Nat.mod_eq_of_lt h

theorem Token.standsIn_atOffset {line before text after : Bytes}
    (hcut : line = before ++ text ++ after) (htext : text ≠ []) (hline : line.length < 2 ^ 32) :
    (Token.atOffset before.length text).StandsIn line := by
  have hpositive : 0 < text.length := List.length_pos_iff.mpr htext
  have hlength := congrArg List.length hcut
  simp only [List.length_append] at hlength
  exact ⟨before, after, hcut, toNat_column_atOffset text (by omega)⟩

/-! ### Slots -/

/-- What stands between two commas: an operand, and the blanks around it. -/
structure Slot where
  before : Bytes := []
  text : Bytes
  after : Bytes := []
deriving DecidableEq, Repr

namespace Slot

/-- An operand in its blanks. -/
def bytes (s : Slot) : Bytes := s.before ++ s.text ++ s.after

/-- An operand is not empty and has no comma in it; the blanks around it are not its own. -/
structure WellFormed (s : Slot) : Prop where
  before : AllBlank s.before
  after : AllBlank s.after
  text_ne_nil : s.text ≠ []
  trimmed : Trimmed s.text
  comma_not_mem : comma ∉ s.text

instance : DecidablePred WellFormed := fun s =>
  decidable_of_iff
    (AllBlank s.before ∧ AllBlank s.after ∧ s.text ≠ [] ∧ Trimmed s.text ∧ comma ∉ s.text)
    ⟨fun ⟨before, after, hne, trimmed, hcomma⟩ => ⟨before, after, hne, trimmed, hcomma⟩,
      fun h => ⟨h.before, h.after, h.text_ne_nil, h.trimmed, h.comma_not_mem⟩⟩

/-- Operands with commas between them. -/
def joined (slots : List Slot) : Bytes := [comma].intercalate (slots.map bytes)

/-- The tokens of operands, the first of which stands with its blanks behind `offset` bytes. -/
def tokens : Nat → List Slot → List Token
  | _, [] => []
  | offset, s :: rest =>
    .atOffset (offset + s.before.length) s.text :: tokens (offset + s.bytes.length + 1) rest

theorem joined_cons {s : Slot} {slots : List Slot} (h : slots ≠ []) :
    joined (s :: slots) = s.bytes ++ comma :: joined slots := by
  obtain ⟨t, rest, rfl⟩ := List.exists_cons_of_ne_nil h
  simp [joined, List.intercalate_cons_cons]

theorem joined_singleton (s : Slot) : joined [s] = s.bytes := List.intercalate_singleton

theorem map_text_tokens : ∀ (offset : Nat) (slots : List Slot),
    (tokens offset slots).map Token.text = slots.map Slot.text
  | _, [] => rfl
  | offset, s :: rest => by
    rw [tokens, List.map_cons, map_text_tokens, List.map_cons]
    rfl

namespace WellFormed

variable {s : Slot} (h : s.WellFormed)
include h

theorem comma_not_mem_bytes : comma ∉ s.bytes := by
  simp only [bytes, List.mem_append, not_or]
  exact ⟨⟨not_mem_of_allBlank h.before rfl, h.comma_not_mem⟩, not_mem_of_allBlank h.after rfl⟩

theorem skipBlanks_bytes (offset : Nat) : Cursor.skipBlanks { offset, rest := s.bytes } =
    { offset := offset + s.before.length, rest := s.text ++ s.after } := by
  rw [bytes, List.append_assoc]
  exact Cursor.skipBlanks_append offset h.before (h.trimmed.head?_append h.text_ne_nil s.after)

theorem trim_bytes : trim s.bytes = s.text := by
  rw [bytes, trim_append_blanks _ h.before h.after, trim_of_trimmed h.trimmed]

end WellFormed

theorem exists_joined_cons (s : Slot) (slots : List Slot) :
    ∃ behind, joined (s :: slots) = s.bytes ++ behind := by
  by_cases h : slots = []
  · exact ⟨[], by rw [h, joined_singleton, List.append_nil]⟩
  · exact ⟨_, joined_cons h⟩

/-- A piece with something else in it than blanks and commas is an operand in blanks. -/
theorem exists_wellFormed {piece : Bytes} (hcomma : comma ∉ piece) (hne : trimLeft piece ≠ []) :
    ∃ s : Slot, s.WellFormed ∧ s.bytes = piece := by
  obtain ⟨before, after, hbefore, hafter, hleft, hpiece⟩ := exists_trim piece
  refine ⟨⟨before, trim piece, after⟩, ⟨hbefore, hafter, ?_, trimmed_trim piece, ?_⟩, hpiece.symm⟩
  · show trim piece ≠ []
    intro hnil
    apply hne
    rw [hnil, List.append_nil] at hpiece
    rw [hpiece, trimLeft_eq_nil_iff]
    exact List.forall_mem_append.mpr ⟨hbefore, hafter⟩
  · intro hmem
    apply hcomma
    rw [hpiece]
    simp [hmem]

/-- Blanks behind operands can be taken for blanks of the last one. -/
theorem exists_joined_append {trail : Bytes} (htrail : AllBlank trail) : ∀ {slots : List Slot},
    slots ≠ [] → (∀ s ∈ slots, s.WellFormed) → ∃ wider, wider ≠ [] ∧
      (∀ s ∈ wider, s.WellFormed) ∧ joined wider = joined slots ++ trail ∧
      ∀ offset, tokens offset wider = tokens offset slots
  | [], hne, _ => absurd rfl hne
  | [s], _, h => by
    have hs := h s List.mem_cons_self
    refine ⟨[{ s with after := s.after ++ trail }], List.cons_ne_nil _ _, ?_, ?_, fun _ => rfl⟩
    · intro t ht
      rw [List.mem_singleton.mp ht]
      exact { hs with after := List.forall_mem_append.mpr ⟨hs.after, htrail⟩ }
    · simp [joined_singleton, bytes]
  | s :: t :: rest, _, h => by
    obtain ⟨wider, hne, hwider, hjoined, htokens⟩ := exists_joined_append htrail
      (List.cons_ne_nil t rest) fun u hu => h u (List.mem_cons_of_mem _ hu)
    refine ⟨s :: wider, List.cons_ne_nil _ _, ?_, ?_, fun offset => ?_⟩
    · exact List.forall_mem_cons.mpr ⟨h s List.mem_cons_self, hwider⟩
    · rw [joined_cons hne, hjoined, joined_cons (List.cons_ne_nil t rest)]
      simp
    · rw [tokens, htokens]
      rfl

end Slot

namespace LineTokens

/-- The pieces between commas are operands if each holds something else than blanks. -/
theorem operandTokens_eq_ok_iff : ∀ {offset : Nat} {pieces : List Bytes} {tokens : List Token},
    (∀ piece ∈ pieces, comma ∉ piece) →
    (operandTokens offset pieces = .ok tokens ↔ ∃ slots : List Slot,
      (∀ s ∈ slots, s.WellFormed) ∧ slots.map Slot.bytes = pieces ∧
        tokens = Slot.tokens offset slots)
  | offset, [], tokens, _ => by
    constructor
    · intro h
      cases h
      exact ⟨[], by simp, rfl, rfl⟩
    · rintro ⟨slots, -, hslots, rfl⟩
      rw [List.map_eq_nil_iff.mp hslots]
      rfl
  | offset, piece :: rest, tokens, hcomma => by
    rw [List.forall_mem_cons] at hcomma
    constructor
    · intro h
      rw [operandTokens] at h
      obtain ⟨hne, h⟩ := guard_eq_ok_iff.mp h
      obtain ⟨s, hs, rfl⟩ := Slot.exists_wellFormed hcomma.1 hne
      split at h
      · rename_i later hlater
        obtain ⟨slots, hslots, hbytes, rfl⟩ := (operandTokens_eq_ok_iff hcomma.2).mp hlater
        cases h
        refine ⟨s :: slots, List.forall_mem_cons.mpr ⟨hs, hslots⟩, ?_, ?_⟩
        · rw [List.map_cons, hbytes]
        · rw [Slot.tokens, hs.skipBlanks_bytes, hs.trim_bytes]
          rfl
      · cases h
    · rintro ⟨_ | ⟨s, slots⟩, hslots, hbytes, rfl⟩
      · cases hbytes
      · obtain ⟨hs, hslots⟩ := List.forall_mem_cons.mp hslots
        rw [List.map_cons, List.cons.injEq] at hbytes
        obtain ⟨rfl, hbytes⟩ := hbytes
        have hlater : operandTokens (offset + s.bytes.length + 1) rest =
            .ok (Slot.tokens (offset + s.bytes.length + 1) slots) :=
          (operandTokens_eq_ok_iff hcomma.2).mpr ⟨slots, hslots, hbytes, rfl⟩
        have hne : s.text ++ s.after ≠ [] := by simp [hs.text_ne_nil]
        rw [operandTokens]
        simp only [hs.skipBlanks_bytes, hne, if_false, hlater, hs.trim_bytes]
        rfl

/-- **What is cut at its commas is a list of operands with commas between them.** -/
theorem operandTokens_splitOn_eq_ok_iff {offset : Nat} {text : Bytes} {tokens : List Token} :
    operandTokens offset (text.splitOn comma) = .ok tokens ↔ ∃ slots : List Slot, slots ≠ [] ∧
      (∀ s ∈ slots, s.WellFormed) ∧ text = Slot.joined slots ∧
        tokens = Slot.tokens offset slots := by
  rw [operandTokens_eq_ok_iff fun piece => Bytes.not_mem_of_mem_splitOn comma text]
  constructor
  · rintro ⟨slots, hslots, hbytes, htokens⟩
    refine ⟨slots, ?_, hslots, ?_, htokens⟩
    · rintro rfl
      exact List.splitOn_ne_nil comma text hbytes.symm
    · rw [Slot.joined, hbytes, List.intercalate_splitOn]
  · rintro ⟨slots, hne, hslots, rfl, htokens⟩
    refine ⟨slots, hslots, (List.splitOn_intercalate comma ?_ (by simpa using hne)).symm, htokens⟩
    intro piece hpiece
    obtain ⟨s, hs, rfl⟩ := List.mem_map.mp hpiece
    exact (hslots s hs).comma_not_mem_bytes

theorem splitOn_append {blanks : Bytes} (h : comma ∉ blanks) (text : Bytes) :
    (blanks ++ text).splitOn comma = (text.splitOn comma).modifyHead (blanks ++ ·) := by
  obtain ⟨piece, rest, htext⟩ := List.exists_cons_of_ne_nil (List.splitOn_ne_nil comma text)
  induction blanks with
  | nil => simp [htext]
  | cons b blanks ih =>
    rw [List.mem_cons, not_or] at h
    have hb : ¬ (b == comma) = true := by simpa using Ne.symm h.1
    rw [List.cons_append, List.splitOn_cons_eq_if_modifyHead, if_neg hb, ih h.2, htext]
    rfl

/-- Blanks in front of the operands only put them further to the right. -/
theorem operandTokens_append_blanks {blanks : Bytes} (h : AllBlank blanks) (offset : Nat)
    (text : Bytes) : operandTokens offset ((blanks ++ text).splitOn comma) =
      operandTokens (offset + blanks.length) (text.splitOn comma) := by
  obtain ⟨piece, rest, htext⟩ := List.exists_cons_of_ne_nil (List.splitOn_ne_nil comma text)
  have hskip : Cursor.skipBlanks { offset, rest := blanks ++ piece } =
      Cursor.skipBlanks { offset := offset + blanks.length, rest := piece } := by
    obtain ⟨more, hmore, -, hpiece⟩ := exists_trimLeft piece
    have hall : AllBlank (blanks ++ more) := List.forall_mem_append.mpr ⟨h, hmore⟩
    rw [hpiece, ← List.append_assoc, Cursor.skipBlanks_append _ hall (head?_trimLeft piece),
      Cursor.skipBlanks_append _ hmore (head?_trimLeft piece), List.length_append, Nat.add_assoc]
  have htrim : trim (blanks ++ piece) = trim piece := by
    rw [trim_eq, trimLeft_append_blanks h, ← trim_eq]
  have hend : offset + (blanks ++ piece).length = offset + blanks.length + piece.length := by
    rw [List.length_append, Nat.add_assoc]
  rw [splitOn_append (not_mem_of_allBlank h rfl), htext, List.modifyHead_cons, operandTokens,
    operandTokens, hskip, htrim, hend]

end LineTokens

/-! ### What stands around operands -/

namespace Slot

variable {slots : List Slot} (hslots : ∀ s ∈ slots, s.WellFormed)
include hslots

/-- Operands are more than blanks. -/
theorem eq_nil_of_allBlank {trail : Bytes} (h : AllBlank (joined slots ++ trail)) :
    slots = [] := by
  cases slots with
  | nil => rfl
  | cons s rest =>
    have hs := hslots s List.mem_cons_self
    obtain ⟨behind, hbehind⟩ := exists_joined_cons s rest
    obtain ⟨b, text, htext⟩ := List.exists_cons_of_ne_nil hs.text_ne_nil
    have hblank : isBlank b = true := h b (by simp [hbehind, bytes, htext])
    have hfirst : isBlank b = false := hs.trimmed.1 b (by rw [htext]; rfl)
    rw [hblank] at hfirst
    cases hfirst

/-- What follows a mnemonic ends it exactly if blanks part it from the first operand. -/
theorem gap_iff {trail : Bytes} (htrail : AllBlank trail) :
    (∀ s ∈ slots.head?, s.before ≠ []) ↔
      ∀ b ∈ (joined slots ++ trail).head?, isBlank b = true ∨ b = comma := by
  cases slots with
  | nil =>
    refine iff_of_true (by simp) fun b hb => Or.inl ?_
    exact htrail b (List.mem_of_mem_head? hb)
  | cons s rest =>
    have hs := hslots s List.mem_cons_self
    obtain ⟨behind, hbehind⟩ := exists_joined_cons s rest
    simp only [List.head?_cons, Option.mem_some_iff, forall_eq', hbehind, bytes, List.append_assoc]
    by_cases hbefore : s.before = []
    · obtain ⟨b, text, htext⟩ := List.exists_cons_of_ne_nil hs.text_ne_nil
      have hfirst : isBlank b = false := hs.trimmed.1 b (by rw [htext]; rfl)
      have hcomma : b ≠ comma := fun heq => hs.comma_not_mem (by simp [htext, heq])
      simp [hbefore, htext, hfirst, hcomma]
    · obtain ⟨b, more, hmore⟩ := List.exists_cons_of_ne_nil hbefore
      have hblank : isBlank b = true := hs.before b (by simp [hmore])
      simp [hmore, hblank]

end Slot

theorem Slot.standsIn_of_mem_tokens {line : Bytes} (hline : line.length < 2 ^ 32) :
    ∀ {slots : List Slot} {front behind : Bytes}, (∀ s ∈ slots, s.WellFormed) →
      line = front ++ joined slots ++ behind →
      ∀ t ∈ tokens front.length slots, t.StandsIn line
  | [], _, _, _, _ => fun t ht => by cases ht
  | s :: rest, front, behind, hslots, hcut => by
    obtain ⟨hs, hrest⟩ := List.forall_mem_cons.mp hslots
    intro t ht
    rw [tokens, ← List.length_append] at ht
    rcases List.mem_cons.mp ht with rfl | ht
    · obtain ⟨more, hmore⟩ := exists_joined_cons s rest
      apply Token.standsIn_atOffset _ hs.text_ne_nil hline
      · exact s.after ++ more ++ behind
      · rw [hcut, hmore, bytes]
        simp only [List.append_assoc]
    · have hne : rest ≠ [] := by
        rintro rfl
        cases ht
      have hfront : front.length + s.bytes.length + 1 = (front ++ s.bytes ++ [comma]).length := by
        simp only [List.length_append, List.length_singleton]
      rw [hfront] at ht
      apply standsIn_of_mem_tokens hline hrest _ t ht
      · exact behind
      · rw [hcut, joined_cons hne]
        simp

end RegisterMachine
