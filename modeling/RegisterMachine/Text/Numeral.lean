/-
# Numerals

How numbers are written: decimal without leading zeros, lowercase hexadecimal,
and both padded to a least width.

Key definitions: `decimal`, `padLeft`, `padRight`, `zeroPadded`, `hexadecimal`.
Key lemmas: `decimal_eq`.
-/
import RegisterMachine.Text.Bytes

namespace RegisterMachine
namespace Numeral

/-- The digits of a number in a base up to 16, the most significant first. -/
def digits (base n : Nat) : Bytes := (Nat.toDigits base n).map fun c => c.toNat.toUInt8

/-- A number in decimal. -/
def decimal (n : Nat) : Bytes := digits 10 n

/-- The text with copies of `fill` in front, up to `width` bytes. -/
def padLeft (fill : UInt8) (width : Nat) (text : Bytes) : Bytes :=
  List.replicate (width - text.length) fill ++ text

/-- The text with copies of `fill` behind it, up to `width` bytes. -/
def padRight (fill : UInt8) (width : Nat) (text : Bytes) : Bytes :=
  text ++ List.replicate (width - text.length) fill

/-- A number in decimal with leading zeros, at least `width` digits. -/
def zeroPadded (width n : Nat) : Bytes := padLeft 48 width (decimal n)

/-- A number in hexadecimal with leading zeros, at least `width` digits. -/
def hexadecimal (width n : Nat) : Bytes := padLeft 48 width (digits 16 n)

/-- The last digit comes off the end. -/
theorem decimal_eq (n : Nat) :
    decimal n = (if n < 10 then [] else decimal (n / 10)) ++ [(48 + n % 10).toUInt8] := by
  have digit : ∀ d : Fin 10, (Nat.digitChar d).toNat.toUInt8 = (48 + d.val).toUInt8 := by decide
  unfold decimal digits
  rw [Nat.toDigits_eq_if (by omega)]
  split
  · rename_i h
    simpa [Nat.mod_eq_of_lt h] using digit ⟨n, h⟩
  · simpa using digit ⟨n % 10, Nat.mod_lt _ (by omega)⟩

end Numeral
end RegisterMachine
