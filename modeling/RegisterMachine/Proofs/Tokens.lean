/-
# Blanks, words and comments

The parts of a line are words, which are texts of letters, digits and
underscores, and the blanks around them. A word ends where a byte stands that is
none of its own (`LineTokens.word_append`), blanks around a text are trimmed
away, and a comment changes nothing.

The columns of tokens depend on the blanks, their texts do not:
`LineTokens.parts` forgets the columns.

Key definitions: `LineParts`, `LineTokens.parts`, `Ascii.IsWord`,
`Ascii.AllBlank`.
Key theorems: `Ascii.trim_append_blanks`, `LineTokens.word_append`,
`LineTokens.ofLine_append_comment`.
-/
import Mathlib.Data.List.TakeWhile
import RegisterMachine.Assembly.Tokens

namespace RegisterMachine

/-! ### Blanks and words -/

namespace Ascii

/-- A text of at least one letter, digit or underscore, and nothing else. -/
def IsWord (text : Bytes) : Prop := text ≠ [] ∧ ∀ b ∈ text, isWordByte b = true

/-- A text of blanks. -/
def AllBlank (text : Bytes) : Prop := ∀ b ∈ text, isBlank b = true

instance : DecidablePred AllBlank := fun text => List.decidableBAll (isBlank · = true) text

instance : DecidablePred IsWord := fun text =>
  have : Decidable (∀ b ∈ text, isWordByte b = true) := List.decidableBAll _ _
  inferInstanceAs (Decidable (_ ∧ _))

theorem allBlank_nil : AllBlank [] := by decide

theorem allBlank_space : AllBlank (ascii " ") := by decide

theorem isWordByte_iff (b : UInt8) : isWordByte b = true ↔
    (65 ≤ b.toNat ∧ b.toNat ≤ 90) ∨ (97 ≤ b.toNat ∧ b.toNat ≤ 122) ∨
      (48 ≤ b.toNat ∧ b.toNat ≤ 57) ∨ b.toNat = 95 := by
  simp [isWordByte, isLetter, isDigit, UInt8.le_iff_toNat_le, ← UInt8.toNat_inj, or_assoc]

theorem isBlank_iff (b : UInt8) :
    isBlank b = true ↔ b.toNat = 32 ∨ (9 ≤ b.toNat ∧ b.toNat ≤ 13) := by
  simp [isBlank, UInt8.le_iff_toNat_le, ← UInt8.toNat_inj]

theorem isBlank_of_isWordByte {b : UInt8} (h : isWordByte b = true) : isBlank b = false := by
  rw [isWordByte_iff] at h
  rw [Bool.eq_false_iff, ne_eq, isBlank_iff]
  omega

/-- A byte that is in no word is none of a word's bytes. -/
theorem ne_of_isWordByte {b c : UInt8} (hb : isWordByte b = true) (hc : isWordByte c = false) :
    b ≠ c := by
  rintro rfl
  rw [hb] at hc
  cases hc

theorem not_mem_of_isWord {text : Bytes} {c : UInt8} (h : IsWord text)
    (hc : isWordByte c = false) : c ∉ text :=
  fun hmem => ne_of_isWordByte (h.2 c hmem) hc rfl

theorem not_mem_of_allBlank {text : Bytes} {c : UInt8} (h : AllBlank text)
    (hc : isBlank c = false) : c ∉ text := by
  intro hmem
  rw [h c hmem] at hc
  cases hc

theorem isWord_of_isIdentifier {name : Bytes} (h : isIdentifier name = true) : IsWord name := by
  cases name with
  | nil => cases h
  | cons first rest =>
    simp only [isIdentifier, Bool.and_eq_true, Bool.or_eq_true, List.all_eq_true] at h
    refine ⟨List.cons_ne_nil _ _, fun b hb => ?_⟩
    rcases List.mem_cons.mp hb with rfl | hb
    · rcases h.1 with hletter | hscore
      · simp [isWordByte, hletter]
      · simp [isWordByte, hscore]
    · exact h.2 b hb

theorem trimLeft_append_blanks {before text : Bytes} (h : AllBlank before) :
    trimLeft (before ++ text) = trimLeft text := List.dropWhile_append_of_pos h

/-- Blanks around a text are trimmed away. -/
theorem trim_append_blanks {before after : Bytes} (text : Bytes) (hbefore : AllBlank before)
    (hafter : AllBlank after) : trim (before ++ text ++ after) = trim text := by
  have hreverse : ∀ b ∈ after.reverse, isBlank b = true := fun b hb =>
    hafter b (List.mem_reverse.mp hb)
  rw [trim, List.append_assoc, trimLeft_append_blanks hbefore, trim, trimLeft, trimLeft,
    List.dropWhile_append]
  split
  · rename_i hempty
    rw [List.isEmpty_iff.mp hempty, List.dropWhile_eq_nil_iff.mpr hafter]
  · rw [List.reverse_append, List.dropWhile_append_of_pos hreverse]

end Ascii

/-- What a line says, without the columns. -/
structure LineParts where
  label : Option Bytes := none
  mnemonic : Option Bytes := none
  operands : List Bytes := []

namespace LineTokens

open Ascii

/-! ### Comments -/

theorem ne_semicolon_of_not_mem {text : Bytes} (h : semicolon ∉ text) :
    ∀ b ∈ text, (b != semicolon) = true := by
  intro b hb
  simp only [bne_iff_ne, ne_eq]
  rintro rfl
  exact h hb

theorem withoutComment_of_not_mem {text : Bytes} (h : semicolon ∉ text) :
    withoutComment text = text := by
  rw [withoutComment, List.takeWhile_eq_self_iff]
  exact ne_semicolon_of_not_mem h

/-- A comment has no tokens. -/
theorem ofLine_append_comment (text comment : Bytes) :
    ofLine (text ++ semicolon :: comment) = ofLine text := by
  have hcut : withoutComment (text ++ semicolon :: comment) = withoutComment text := by
    rw [withoutComment, withoutComment, List.takeWhile_append]
    split
    · rename_i hall
      rw [List.takeWhile_cons_of_neg (by simp), List.append_nil]
      exact ((List.takeWhile_prefix _).eq_of_length hall).symm
    · rfl
  simp only [ofLine, hcut]

/-! ### Lines -/

/-- The texts of the tokens of a line. -/
def parts (tokens : LineTokens) : LineParts where
  label := tokens.label.map Token.text
  mnemonic := tokens.mnemonic.map Token.text
  operands := tokens.operands.map Token.text

/-- A word ends where something else begins. -/
theorem word_append {stop : UInt8 → Bool} {text : Bytes} (rest : Bytes) (offset : Nat)
    (htext : ∀ b ∈ text, stop b = false) (hrest : ∀ b ∈ rest.head?, stop b = true) :
    Cursor.word stop { offset, rest := text ++ rest } =
      (text, { offset := offset + text.length, rest }) := by
  have hinside : ∀ b ∈ text, (!stop b) = true := fun b hb => by simp [htext b hb]
  have htake : rest.takeWhile (!stop ·) = [] := by
    cases rest with
    | nil => rfl
    | cons b rest => exact List.takeWhile_cons_of_neg (by simp [hrest b rfl])
  have hdrop : rest.dropWhile (!stop ·) = rest := by
    cases rest with
    | nil => rfl
    | cons b rest => exact List.dropWhile_cons_of_neg (by simp [hrest b rfl])
  simp only [Cursor.word, List.takeWhile_append_of_pos hinside, htake, List.append_nil,
    List.dropWhile_append_of_pos hinside, hdrop]

end LineTokens
end RegisterMachine
