/-
# Operands of digits

A register behind its letter, an immediate and an address can all be written as
bare decimal digits, of any number and with any zeros in front. What becomes of
them depends on what they denote alone: up to the bound of the place they are
the operand; above it they are refused as out of range as long as their number
fits into 63 bits; digits of a greater number are no literal at all, and are
refused as a text that is no operand.

Key definitions: `Operand.ranged`.
Key theorems: `Operand.ofRegisterToken_of_decimal`,
`Operand.ofImmediateToken_of_decimal`, `Operand.ofTargetToken_of_decimal`,
`Operand.ofToken_digits`.
-/
import RegisterMachine.Assembly.Reading
import RegisterMachine.Proofs.Literals

namespace RegisterMachine
namespace Operand

open Literal

/-- What becomes of digits that denote `v` in a place with this bound, by the errors for a number
out of range and for a text that is no literal. -/
def ranged (v bound : Nat) (column : UInt32) (operand : Operand)
    (outOfRange noLiteral : LineError) : Except LineFault Operand :=
  if v ≤ bound then .ok operand
  else .error { error := if v < 2 ^ 63 then outOfRange else noLiteral, column }

/-- No decimal digit is a letter of the prefix `0x`, or a sign. -/
theorem plain_of_decimal {digits : Bytes} (h : Decimal digits) :
    digits.any (fun b => b == 120 || b == 88 || b == minus) = false := by
  rw [List.any_eq_false]
  intro b hb
  have hx : b ≠ 120 := Ascii.ne_of_isDigit (h.2 b hb) (by decide)
  have hX : b ≠ 88 := Ascii.ne_of_isDigit (h.2 b hb) (by decide)
  have hminus : b ≠ minus := Ascii.ne_of_isDigit (h.2 b hb) (by decide)
  simp [hx, hX, hminus]

theorem not_isIdentifier_of_decimal {digits : Bytes} (h : Decimal digits) :
    Ascii.isIdentifier digits = false := by
  obtain ⟨first, rest, rfl, -⟩ := h.exists_cons
  have hfirst := h.2 first List.mem_cons_self
  have hscore : first ≠ 95 := Ascii.ne_of_isDigit hfirst (by decide)
  have hletter : ¬ Ascii.isLetter first = true := by
    rw [Ascii.isDigit_iff] at hfirst
    rw [isLetter_iff]
    omega
  simp [Ascii.isIdentifier, hscore, hletter]

section
variable {digits : Bytes} (h : Decimal digits) (column : UInt32)
include h

theorem ofRegisterToken_of_decimal {r : UInt8} (hr : r = 114 ∨ r = 82) :
    ofRegisterToken { text := r :: digits, column } =
      ranged (denoted 10 digits) 15 column (.register (denoted 10 digits).toUInt16)
        (.noRegister (r :: digits)) (.notRegister (r :: digits)) := by
  have hplain := plain_of_decimal h
  have hvalue := value?_of_decimal h
  obtain ⟨digit, rest, rfl, -⟩ := h.exists_cons
  have hdigit := h.2 digit List.mem_cons_self
  simp only [ofRegisterToken, ranged, hr, hdigit, and_self, if_true, hvalue, hplain,
    Bool.false_eq_true, if_false]
  by_cases hfits : denoted 10 (digit :: rest) < 2 ^ 63
  · by_cases hle : denoted 10 (digit :: rest) ≤ 15
    · have hge : ¬ (denoted 10 (digit :: rest) : Int) ≥ 16 := by omega
      simp only [if_pos hfits, if_pos hle, if_neg hge, Int.toNat_natCast]
    · have hge : (denoted 10 (digit :: rest) : Int) ≥ 16 := by omega
      simp only [if_pos hfits, if_neg hle, if_pos hge]
  · have hle : ¬ denoted 10 (digit :: rest) ≤ 15 := by omega
    simp only [if_neg hfits, if_neg hle]

theorem ofImmediateToken_of_decimal :
    ofImmediateToken { text := digits, column } =
      ranged (denoted 10 digits) 255 column (.immediate (denoted 10 digits).toUInt16)
        (.immediateRange digits) (.notImmediate digits) := by
  rw [ofImmediateToken, ranged, value?_of_decimal h]
  by_cases hfits : denoted 10 digits < 2 ^ 63
  · by_cases hle : denoted 10 digits ≤ 255
    · have hrange : ¬ ((denoted 10 digits : Int) < -128 ∨ (denoted 10 digits : Int) > 255) := by
        omega
      have hmod : (denoted 10 digits : Int) % 256 = denoted 10 digits := by omega
      simp only [if_pos hfits, if_pos hle, if_neg hrange, hmod, Int.toNat_natCast]
    · have hrange : (denoted 10 digits : Int) < -128 ∨ (denoted 10 digits : Int) > 255 := by omega
      simp only [if_pos hfits, if_neg hle, if_pos hrange]
  · have hle : ¬ denoted 10 digits ≤ 255 := by omega
    simp only [if_neg hfits, if_neg hle]

theorem ofTargetToken_of_decimal :
    ofTargetToken { text := digits, column } =
      ranged (denoted 10 digits) 4095 column (.address (denoted 10 digits).toUInt16)
        (.targetRange digits) (.notTarget digits) := by
  simp only [ofTargetToken, ranged, value?_of_decimal h, not_isIdentifier_of_decimal h,
    Bool.false_eq_true, if_false]
  by_cases hfits : denoted 10 digits < 2 ^ 63
  · by_cases hle : denoted 10 digits ≤ 4095
    · have hrange : ¬ ((denoted 10 digits : Int) < 0 ∨ (denoted 10 digits : Int) > 4095) := by
        omega
      simp only [if_pos hfits, if_pos hle, if_neg hrange, Int.toNat_natCast]
    · have hrange : (denoted 10 digits : Int) < 0 ∨ (denoted 10 digits : Int) > 4095 := by omega
      simp only [if_pos hfits, if_neg hle, if_pos hrange]
  · have hle : ¬ denoted 10 digits ≤ 4095 := by omega
    simp only [if_neg hfits, if_neg hle]

/-- **Digits are classified by the number that they denote**, in each of the places that take a
number and with any zeros in front: an operand up to the bound of the place, out of range above it,
and no literal at all from `2^63` up. -/
theorem ofToken_digits :
    (∀ r : UInt8, r = 114 ∨ r = 82 →
      ofToken .register { text := r :: digits, column } =
        ranged (denoted 10 digits) 15 column (.register (denoted 10 digits).toUInt16)
          (.noRegister (r :: digits)) (.notRegister (r :: digits))) ∧
    ofToken .immediate { text := digits, column } =
      ranged (denoted 10 digits) 255 column (.immediate (denoted 10 digits).toUInt16)
        (.immediateRange digits) (.notImmediate digits) ∧
    ofToken .target { text := digits, column } =
      ranged (denoted 10 digits) 4095 column (.address (denoted 10 digits).toUInt16)
        (.targetRange digits) (.notTarget digits) :=
  ⟨fun _ hr => ofRegisterToken_of_decimal h column hr, ofImmediateToken_of_decimal h column,
    ofTargetToken_of_decimal h column⟩

end

/-- Three hundred with a zero in front is an address, and out of range for the other places. -/
theorem ofToken_digits_three_hundred :
    Decimal (ascii "0300") ∧
    ofToken .register { text := ascii "R0300", column := 5 } =
      .error { error := .noRegister (ascii "R0300"), column := 5 } ∧
    ofToken .immediate { text := ascii "0300", column := 5 } =
      .error { error := .immediateRange (ascii "0300"), column := 5 } ∧
    ofToken .target { text := ascii "0300", column := 5 } = .ok (.address 300) := by
  have hdecimal : Decimal (ascii "0300") := by decide
  obtain ⟨hregister, himmediate, htarget⟩ := ofToken_digits hdecimal 5
  exact ⟨hdecimal, hregister 82 (Or.inr rfl), himmediate, htarget⟩

/-- The register of number `2^63` is refused as a text that is no register, and the other places
refuse this number in the same way. -/
theorem ofToken_two_pow_sixty_three :
    Decimal (ascii "9223372036854775808") ∧ denoted 10 (ascii "9223372036854775808") = 2 ^ 63 ∧
    ofToken .register { text := ascii "r9223372036854775808", column := 1 } =
      .error { error := .notRegister (ascii "r9223372036854775808"), column := 1 } ∧
    ofToken .immediate { text := ascii "9223372036854775808", column := 1 } =
      .error { error := .notImmediate (ascii "9223372036854775808"), column := 1 } ∧
    ofToken .target { text := ascii "9223372036854775808", column := 1 } =
      .error { error := .notTarget (ascii "9223372036854775808"), column := 1 } := by
  decide

end Operand
end RegisterMachine
