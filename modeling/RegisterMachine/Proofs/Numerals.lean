/-
# Numerals are digits

A number written in decimal is a text of decimal digits, at least one. The
induction is on the number with its last digit taken off (`Numeral.decimal_eq`).

Key theorems: `Ascii.isDigit_iff`, `Numeral.decimal_ne_nil`,
`Numeral.isDigit_of_mem_decimal`.
-/
import Mathlib.Algebra.Group.Nat.Defs
import RegisterMachine.Text.Ascii
import RegisterMachine.Text.Numeral

namespace RegisterMachine

namespace Ascii

theorem isDigit_iff (b : UInt8) : isDigit b = true ↔ 48 ≤ b.toNat ∧ b.toNat ≤ 57 := by
  simp [isDigit, UInt8.le_iff_toNat_le]

/-- A byte with a number of its own is not a digit unless that number is. -/
theorem ne_of_isDigit {b c : UInt8} (hb : isDigit b = true) (hc : isDigit c = false) : b ≠ c := by
  rintro rfl
  rw [hb] at hc
  cases hc

end Ascii

namespace Numeral

theorem toNat_digit {d : Nat} (h : d < 10) : (48 + d).toUInt8.toNat = 48 + d := by
  rw [Nat.toUInt8_eq, UInt8.toNat_ofNat']
  omega

theorem decimal_ne_nil (n : Nat) : decimal n ≠ [] := by
  rw [decimal_eq]
  simp

theorem isDigit_of_mem_decimal (n : Nat) : ∀ b ∈ decimal n, Ascii.isDigit b = true := by
  induction n using Nat.strongRecOn with
  | ind n ih =>
    have hlast : Ascii.isDigit (48 + n % 10).toUInt8 = true := by
      rw [Ascii.isDigit_iff, toNat_digit (Nat.mod_lt _ (by omega))]
      omega
    intro b hb
    rw [decimal_eq, List.mem_append, List.mem_singleton] at hb
    rcases hb with hb | rfl
    · split at hb
      · cases hb
      · exact ih (n / 10) (by omega) b hb
    · exact hlast

end Numeral
end RegisterMachine
