/-
# The texts that are literals

A literal of the language is written in decimal with an optional minus sign, or
in hexadecimal behind `0x` or `0X` with no sign at all, and its magnitude fits
into 63 bits: `Literal.Written` lists these spellings with the numbers that they
denote. What is denoted is given by the positions of the digits, not by a way to
read them (`Literal.denoted`).

All of them are read as the number that they denote, and one more kind of text
is read: with a minus sign behind the `0x`. The sign in front is taken off before
the base is known, and what follows the `0x` is read by the rule for a body of
any base, which takes a sign of its own. These texts are set apart as
`Literal.SignedHexadecimal`; none of them is a documented literal, and nothing
else is read (`Literal.value?_eq_some_iff`).

The proof goes from the digit to the text: a byte is a digit by what it is worth
(`digit?_eq_some_iff`), a run of digits is read by induction from its last one,
and the forms of a body and of a literal are then told apart by their first
bytes.

Key definitions: `Ascii.isHexDigit`, `Literal.denoted`, `Literal.Decimal`,
`Literal.Hexadecimal`, `Literal.Written`, `Literal.SignedHexadecimal`.
Key theorems: `Literal.magnitude?_ten_eq_some_iff`,
`Literal.magnitude?_sixteen_eq_some_iff`, `Literal.body?_eq_some_iff`,
`Literal.value?_of_decimal`, `Literal.value?_eq_some_iff`.
-/
import Mathlib.Data.List.Induction
import Mathlib.Data.Nat.Digits.Defs
import RegisterMachine.Proofs.Numerals
import RegisterMachine.Text.Literal

namespace RegisterMachine

/-- A hexadecimal digit, with letters of either case. -/
def Ascii.isHexDigit (b : UInt8) : Bool :=
  isDigit b || (65 ≤ b && b ≤ 70) || (97 ≤ b && b ≤ 102)

namespace Literal

open Ascii

/-! ### Numbers and their digits -/

/-- The value of a digit; capital and small letters go on from ten. -/
def digitValue (b : UInt8) : Nat :=
  if b.toNat < 65 then b.toNat - 48 else if b.toNat < 97 then b.toNat - 55 else b.toNat - 87

/-- The number that digits denote by their positions, the last one in the place of the ones. -/
def denoted (base : Nat) (digits : Bytes) : Nat :=
  Nat.ofDigits base (digits.reverse.map digitValue)

/-- Decimal digits, at least one. -/
def Decimal (digits : Bytes) : Prop := digits ≠ [] ∧ ∀ b ∈ digits, isDigit b = true

/-- Hexadecimal digits, at least one. -/
def Hexadecimal (digits : Bytes) : Prop := digits ≠ [] ∧ ∀ b ∈ digits, isHexDigit b = true

instance : DecidablePred Decimal := fun digits =>
  have : Decidable (∀ b ∈ digits, isDigit b = true) := List.decidableBAll _ _
  inferInstanceAs (Decidable (_ ∧ _))

instance : DecidablePred Hexadecimal := fun digits =>
  have : Decidable (∀ b ∈ digits, isHexDigit b = true) := List.decidableBAll _ _
  inferInstanceAs (Decidable (_ ∧ _))

theorem denoted_append_singleton (base : Nat) (digits : Bytes) (b : UInt8) :
    denoted base (digits ++ [b]) = denoted base digits * base + digitValue b := by
  rw [denoted, List.reverse_append, List.reverse_singleton, List.singleton_append, List.map_cons,
    Nat.ofDigits_cons, denoted, Nat.mul_comm, Nat.add_comm]

theorem decimal_numeral (n : Nat) : Decimal (Numeral.decimal n) :=
  ⟨Numeral.decimal_ne_nil n, Numeral.isDigit_of_mem_decimal n⟩

theorem denoted_numeral (n : Nat) : denoted 10 (Numeral.decimal n) = n := by
  induction n using Nat.strongRecOn with
  | ind n ih =>
    have hlast : digitValue (48 + n % 10).toUInt8 = n % 10 := by
      have hnat := Numeral.toNat_digit (Nat.mod_lt n (show 0 < 10 by omega))
      rw [digitValue, hnat, if_pos (by omega)]
      omega
    rw [Numeral.decimal_eq, denoted_append_singleton, hlast]
    split
    · rename_i h
      rw [Nat.mod_eq_of_lt h]
      exact Nat.zero_add n
    · rw [ih (n / 10) (by omega)]
      omega

theorem isHexDigit_iff (b : UInt8) : isHexDigit b = true ↔
    (48 ≤ b.toNat ∧ b.toNat ≤ 57) ∨ (65 ≤ b.toNat ∧ b.toNat ≤ 70) ∨
      (97 ≤ b.toNat ∧ b.toNat ≤ 102) := by
  simp [isHexDigit, isDigit, UInt8.le_iff_toNat_le, or_assoc]

theorem isLetter_iff (b : UInt8) : isLetter b = true ↔
    (65 ≤ b.toNat ∧ b.toNat ≤ 90) ∨ (97 ≤ b.toNat ∧ b.toNat ≤ 122) := by
  simp [isLetter, UInt8.le_iff_toNat_le]

/-- A decimal digit is a hexadecimal one that is worth less than ten. -/
theorem isDigit_iff_isHexDigit (b : UInt8) :
    isDigit b = true ↔ isHexDigit b = true ∧ digitValue b < 10 := by
  rw [isDigit_iff, isHexDigit_iff, digitValue]
  split
  · omega
  · split <;> omega

theorem digitValue_lt_sixteen {b : UInt8} (h : isHexDigit b = true) : digitValue b < 16 := by
  rw [isHexDigit_iff] at h
  unfold digitValue
  split
  · omega
  · split <;> omega

theorem toNat_sub_of_isDigit {b : UInt8} (h : isDigit b = true) :
    (b - 48).toNat = digitValue b := by
  rw [isDigit_iff] at h
  rw [digitValue, if_pos (by omega), UInt8.toNat_sub_of_le b 48 (UInt8.le_iff_toNat_le.2 h.1)]
  rfl

theorem toNat_lower_of_isLetter {b : UInt8} (h : isLetter b = true) :
    (lower b - 97).toNat + 10 = digitValue b := by
  have key : ∀ n : Fin 256, isLetter (UInt8.ofFin n) = true →
      (lower (UInt8.ofFin n) - 97).toNat + 10 = digitValue (UInt8.ofFin n) := by decide +kernel
  exact key b.toFin h

theorem digit?_eq_some_iff {base : Nat} (hbase : base ≤ 16) (b : UInt8) (d : Nat) :
    digit? base b = some d ↔ isHexDigit b = true ∧ digitValue b < base ∧ d = digitValue b := by
  have hclass : isHexDigit b = true ↔
      isDigit b = true ∨ (isLetter b = true ∧ digitValue b < 16) := by
    rw [isHexDigit_iff, isDigit_iff, isLetter_iff, digitValue]
    grind
  rw [hclass]
  by_cases hdigit : isDigit b = true
  · simp only [digit?, hdigit, if_true, toNat_sub_of_isDigit hdigit,
      Option.ite_none_right_eq_some, Option.some.injEq]
    grind
  · by_cases hletter : isLetter b = true
    · simp only [digit?, hdigit, hletter, if_true, toNat_lower_of_isLetter hletter,
        Option.ite_none_right_eq_some, Option.some.injEq]
      grind
    · simp [digit?, hdigit, hletter]

/-- Digits give the number that they denote, behind digits of value `0`. -/
theorem magnitudeFrom?_eq_some_iff {base : Nat} (hbase : base ≤ 16) (digits : Bytes) (v : Nat) :
    magnitudeFrom? base 0 digits = some v ↔
      (∀ b ∈ digits, isHexDigit b = true ∧ digitValue b < base) ∧ v = denoted base digits := by
  induction digits using List.reverseRecOn generalizing v with
  | nil => simp [magnitudeFrom?, denoted, @eq_comm _ 0 v]
  | append_singleton digits last ih =>
    simp only [magnitudeFrom?_append_singleton, Option.bind_eq_some_iff, Option.map_eq_some_iff, ih,
      digit?_eq_some_iff hbase, denoted_append_singleton, List.mem_append, List.mem_singleton]
    constructor
    · rintro ⟨_, ⟨hdigits, rfl⟩, _, ⟨hhex, hlt, rfl⟩, rfl⟩
      refine ⟨fun b hb => ?_, rfl⟩
      rcases hb with hb | rfl
      · exact hdigits b hb
      · exact ⟨hhex, hlt⟩
    · rintro ⟨hdigits, rfl⟩
      obtain ⟨hhex, hlt⟩ := hdigits last (Or.inr rfl)
      exact ⟨_, ⟨fun b hb => hdigits b (Or.inl hb), rfl⟩, _, ⟨hhex, hlt, rfl⟩, rfl⟩

theorem magnitude?_ten_eq_some_iff (digits : Bytes) (v : Nat) :
    magnitude? 10 digits = some v ↔ Decimal digits ∧ v = denoted 10 digits := by
  rw [magnitude?, Option.ite_none_left_eq_some, magnitudeFrom?_eq_some_iff (by omega), Decimal,
    and_assoc]
  simp only [isDigit_iff_isHexDigit, ne_eq]

theorem magnitude?_sixteen_eq_some_iff (digits : Bytes) (v : Nat) :
    magnitude? 16 digits = some v ↔ Hexadecimal digits ∧ v = denoted 16 digits := by
  have hlt (b : UInt8) : isHexDigit b = true ∧ digitValue b < 16 ↔ isHexDigit b = true :=
    and_iff_left_of_imp digitValue_lt_sixteen
  rw [magnitude?, Option.ite_none_left_eq_some, magnitudeFrom?_eq_some_iff le_rfl, Hexadecimal,
    and_assoc]
  simp only [hlt, ne_eq]

/-! ### Bodies -/

theorem fits_iff (n : Int) : fits n = true ↔ -2 ^ 63 ≤ n ∧ n < 2 ^ 63 := by
  have hmin : Int64.minValue.toInt = -2 ^ 63 := by decide
  have hmax : Int64.maxValue.toInt = 2 ^ 63 - 1 := by decide
  simp only [fits, hmin, hmax, Bool.and_eq_true, decide_eq_true_eq]
  omega

/-- A body is digits, or a minus sign and digits, of a value that fits. -/
theorem body?_eq_some_iff (base : Nat) (text : Bytes) (n : Int) :
    body? base text = some n ↔
      (text.head? ≠ some minus ∧ ∃ v, magnitude? base text = some v ∧ v < 2 ^ 63 ∧ n = v) ∨
      (∃ digits v, text = minus :: digits ∧ magnitude? base digits = some v ∧ v ≤ 2 ^ 63 ∧
        n = -v) := by
  match text with
  | [] => simp [body?, magnitude?]
  | first :: rest =>
    by_cases hfirst : first = minus
    · simp only [body?, hfirst, if_true, Option.filter_eq_some_iff, Option.map_eq_some_iff,
        fits_iff, Int.ofNat_eq_natCast, List.head?_cons, ne_eq, not_true_eq_false, false_and,
        false_or, List.cons.injEq, true_and]
      constructor
      · rintro ⟨⟨v, hv, rfl⟩, hfits⟩
        exact ⟨rest, v, rfl, hv, by omega, rfl⟩
      · rintro ⟨_, v, rfl, hv, hle, rfl⟩
        exact ⟨⟨v, hv, rfl⟩, by omega⟩
    · simp only [body?, hfirst, if_false, Option.filter_eq_some_iff, Option.map_eq_some_iff,
        fits_iff, Int.ofNat_eq_natCast, List.head?_cons, ne_eq, Option.some.injEq,
        not_false_eq_true, true_and, List.cons.injEq, false_and, exists_false, or_false]
      constructor
      · rintro ⟨⟨v, hv, rfl⟩, hfits⟩
        exact ⟨v, hv, by omega, rfl⟩
      · rintro ⟨v, hv, hlt, rfl⟩
        exact ⟨⟨v, hv, rfl⟩, by omega⟩

/-- A text with a digit at its second place does not begin a hexadecimal literal. -/
theorem hexadecimal?_cons_of_isDigit (first : UInt8) {rest : Bytes}
    (h : ∀ b ∈ rest, isDigit b = true) : hexadecimal? (first :: rest) = none := by
  match rest with
  | [] | [_] => rfl
  | x :: third :: rest =>
    have hx := h x List.mem_cons_self
    have h120 : x ≠ 120 := ne_of_isDigit hx (by decide)
    have h88 : x ≠ 88 := ne_of_isDigit hx (by decide)
    simp [hexadecimal?, h120, h88]

/-- Decimal digits have no sign and begin no hexadecimal literal. -/
theorem Decimal.exists_cons {digits : Bytes} (h : Decimal digits) :
    ∃ first rest, digits = first :: rest ∧ first ≠ minus ∧ hexadecimal? digits = none := by
  obtain ⟨hne, hdigits⟩ := h
  obtain ⟨first, rest, rfl⟩ := List.exists_cons_of_ne_nil hne
  exact ⟨first, rest, rfl, ne_of_isDigit (hdigits first List.mem_cons_self) (by decide),
    hexadecimal?_cons_of_isDigit first fun b hb => hdigits b (List.mem_cons_of_mem _ hb)⟩

theorem body?_ten_eq_some_iff {text : Bytes} (h : text.head? ≠ some minus) (n : Int) :
    body? 10 text = some n ↔ Decimal text ∧ denoted 10 text < 2 ^ 63 ∧ n = denoted 10 text := by
  simp only [body?_eq_some_iff, magnitude?_ten_eq_some_iff]
  constructor
  · rintro (⟨-, _, ⟨hdecimal, rfl⟩, hlt, rfl⟩ | ⟨digits, _, rfl, -⟩)
    · exact ⟨hdecimal, hlt, rfl⟩
    · exact absurd rfl h
  · rintro ⟨hdecimal, hlt, rfl⟩
    exact Or.inl ⟨h, _, ⟨hdecimal, rfl⟩, hlt, rfl⟩

/-- Decimal digits are the literal of what they denote, if that fits, and no literal otherwise. -/
theorem value?_of_decimal {digits : Bytes} (h : Decimal digits) :
    value? digits =
      if denoted 10 digits < 2 ^ 63 then some (denoted 10 digits : Int) else none := by
  obtain ⟨first, rest, rfl, hminus, hhex⟩ := h.exists_cons
  have hhead : (first :: rest).head? ≠ some minus := by simpa using hminus
  have hbody (n : Int) := body?_ten_eq_some_iff hhead n
  have hvalue : value? (first :: rest) = body? 10 (first :: rest) := by
    rw [value?, if_neg hminus, hhex]
  rw [hvalue]
  by_cases hlt : denoted 10 (first :: rest) < 2 ^ 63
  · rw [if_pos hlt, hbody]
    exact ⟨h, hlt, rfl⟩
  · rw [if_neg hlt, Option.eq_none_iff_forall_ne_some]
    intro n hn
    exact hlt ((hbody n).1 hn).2.1

/-- Behind a minus sign in front there are decimal digits. -/
theorem value?_minus_cons_eq_some_iff (digits : Bytes) (n : Int) :
    value? (minus :: digits) = some n ↔
      Decimal digits ∧ denoted 10 digits < 2 ^ 63 ∧ n = -denoted 10 digits := by
  rw [value?, if_pos rfl, Option.ite_none_left_eq_some, Option.map_eq_some_iff, not_or]
  constructor
  · rintro ⟨⟨hminus, -⟩, m, hm, rfl⟩
    obtain ⟨hdecimal, hlt, rfl⟩ := (body?_ten_eq_some_iff hminus m).1 hm
    exact ⟨hdecimal, hlt, rfl⟩
  · rintro ⟨hdecimal, hlt, rfl⟩
    obtain ⟨first, rest, rfl, hminus, hhex⟩ := hdecimal.exists_cons
    have hhead : (first :: rest).head? ≠ some minus := by simpa using hminus
    exact ⟨⟨hhead, by simp [hhex]⟩, _, (body?_ten_eq_some_iff hhead _).2 ⟨hdecimal, hlt, rfl⟩, rfl⟩

theorem hexadecimal?_eq_some_iff (text digits : Bytes) :
    hexadecimal? text = some digits ↔
      digits ≠ [] ∧ ∃ x, (x = 120 ∨ x = 88) ∧ text = 48 :: x :: digits := by
  unfold hexadecimal?
  split
  · rw [Option.ite_none_right_eq_some, Option.some.injEq]
    grind
  · rename_i hshort
    constructor
    · intro h
      cases h
    · rintro ⟨hne, x, -, rfl⟩
      obtain ⟨first, rest, rfl⟩ := List.exists_cons_of_ne_nil hne
      exact absurd rfl (hshort 48 x first rest)

/-! ### Literals -/

/-- The documented literals and the numbers that they denote. -/
inductive Written : Bytes → Int → Prop
  | decimal {digits : Bytes} : Decimal digits → denoted 10 digits < 2 ^ 63 →
      Written digits (denoted 10 digits)
  | negative {digits : Bytes} : Decimal digits → denoted 10 digits < 2 ^ 63 →
      Written (minus :: digits) (-denoted 10 digits)
  | hexadecimal {x : UInt8} {digits : Bytes} : x = 120 ∨ x = 88 → Hexadecimal digits →
      denoted 16 digits < 2 ^ 63 → Written (48 :: x :: digits) (denoted 16 digits)

/-- A hexadecimal literal with a minus sign behind the `0x`, and the number that is read there. -/
def SignedHexadecimal (text : Bytes) (n : Int) : Prop :=
  ∃ x digits, (x = 120 ∨ x = 88) ∧ Hexadecimal digits ∧ denoted 16 digits ≤ 2 ^ 63 ∧
    text = 48 :: x :: minus :: digits ∧ n = -denoted 16 digits

theorem Written.value?_eq {text : Bytes} {n : Int} (h : Written text n) :
    value? text = some n := by
  cases h with
  | decimal hdecimal hlt => rw [value?_of_decimal hdecimal, if_pos hlt]
  | negative hdecimal hlt => exact (value?_minus_cons_eq_some_iff _ _).2 ⟨hdecimal, hlt, rfl⟩
  | @hexadecimal x digits hx hdigits hlt =>
    have hhead : digits.head? ≠ some minus := fun h => by
      have := hdigits.2 minus (List.mem_of_mem_head? h)
      revert this
      decide
    rw [value?, if_neg (by decide),
      (hexadecimal?_eq_some_iff _ digits).2 ⟨hdigits.1, x, hx, rfl⟩]
    exact (body?_eq_some_iff 16 digits _).2
      (Or.inl ⟨hhead, _, (magnitude?_sixteen_eq_some_iff _ _).2 ⟨hdigits, rfl⟩, hlt, rfl⟩)

theorem SignedHexadecimal.value?_eq {text : Bytes} {n : Int} (h : SignedHexadecimal text n) :
    value? text = some n := by
  obtain ⟨x, digits, hx, hdigits, hle, rfl, rfl⟩ := h
  rw [value?, if_neg (by decide),
    (hexadecimal?_eq_some_iff _ (minus :: digits)).2 ⟨List.cons_ne_nil _ _, x, hx, rfl⟩]
  exact (body?_eq_some_iff 16 _ _).2
    (Or.inr ⟨digits, _, rfl, (magnitude?_sixteen_eq_some_iff _ _).2 ⟨hdigits, rfl⟩, hle, rfl⟩)

/-- No number is documented for a text with a minus sign behind the `0x`. -/
theorem SignedHexadecimal.not_written {text : Bytes} {n m : Int} (h : SignedHexadecimal text n) :
    ¬ Written text m := by
  obtain ⟨x, digits, -, -, -, rfl, -⟩ := h
  intro hwritten
  cases hwritten with
  | decimal hdecimal => exact absurd (hdecimal.2 minus (by simp)) (by decide)
  | hexadecimal _ hdigits => exact absurd (hdigits.2 minus (by simp)) (by decide)

/-- The documented literals are read as the numbers that they denote, and so are hexadecimal ones
with a minus sign behind the `0x`, down to `-2^63`; nothing else is a literal. -/
theorem value?_eq_some_iff (text : Bytes) (n : Int) :
    value? text = some n ↔ Written text n ∨ SignedHexadecimal text n := by
  constructor
  · intro h
    match text with
    | [] => cases h
    | first :: rest =>
      by_cases hminus : first = minus
      · subst hminus
        obtain ⟨hdecimal, hlt, rfl⟩ := (value?_minus_cons_eq_some_iff rest n).1 h
        exact Or.inl (.negative hdecimal hlt)
      · rw [value?, if_neg hminus] at h
        split at h
        · rename_i digits hhex
          obtain ⟨-, x, hx, htext⟩ := (hexadecimal?_eq_some_iff _ _).1 hhex
          rw [htext]
          rcases (body?_eq_some_iff 16 digits n).1 h with
            ⟨-, v, hv, hlt, rfl⟩ | ⟨digits, v, rfl, hv, hle, rfl⟩
          · obtain ⟨hdigits, rfl⟩ := (magnitude?_sixteen_eq_some_iff _ _).1 hv
            exact Or.inl (.hexadecimal hx hdigits hlt)
          · obtain ⟨hdigits, rfl⟩ := (magnitude?_sixteen_eq_some_iff _ _).1 hv
            exact Or.inr ⟨x, digits, hx, hdigits, hle, rfl, rfl⟩
        · obtain ⟨hdecimal, hlt, rfl⟩ :=
            (body?_ten_eq_some_iff (by simpa using hminus) n).1 h
          exact Or.inl (.decimal hdecimal hlt)
  · rintro (h | h)
    · exact h.value?_eq
    · exact h.value?_eq

/-- `0x-5` is read as `-5`, and is none of the documented literals. -/
theorem value?_signed_hexadecimal :
    value? (ascii "0x-5") = some (-5) ∧ ∀ n, ¬ Written (ascii "0x-5") n := by
  have hdigits : Hexadecimal (ascii "5") := by decide
  have hsigned : SignedHexadecimal (ascii "0x-5") (-5) :=
    ⟨120, ascii "5", Or.inl rfl, hdigits, by decide, rfl, by decide⟩
  exact ⟨hsigned.value?_eq, fun n => hsigned.not_written⟩

end Literal
end RegisterMachine
