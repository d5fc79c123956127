/-
# Fields of words as numbers

A field that `Spans` some bits of a word is read by a division and a remainder,
and setting it exchanges those bits and no other. Said of natural numbers, this
leaves arithmetic only: a word is the sum of its fields, each shifted to its
place.

Key definitions: `Field.Spans`.
Key theorems: `Field.Spans.toNat_get`, `Field.Spans.testBit_set`,
`Field.Spans.toNat_set`, `Word.fits_iff`.
-/
import Mathlib.Algebra.Group.Nat.Defs
import RegisterMachine.Bytecode.Word

namespace RegisterMachine
namespace Field

/-- The field is the `width` bits from number `low` on. -/
structure Spans (f : Field) (low width : Nat) : Prop where
  shift_eq : f.shift.toNat = low
  mask_eq : f.mask.toNat = 2 ^ width - 1
  low_lt : low < 32
  end_le : low + width ≤ 32

theorem opcode_spans : opcode.Spans 0 6 := ⟨rfl, rfl, by decide, by decide⟩
theorem fun2_spans : fun2.Spans 6 2 := ⟨rfl, rfl, by decide, by decide⟩
theorem rd_spans : rd.Spans 8 4 := ⟨rfl, rfl, by decide, by decide⟩
theorem rs1_spans : rs1.Spans 12 4 := ⟨rfl, rfl, by decide, by decide⟩
theorem rs2_spans : rs2.Spans 16 4 := ⟨rfl, rfl, by decide, by decide⟩
theorem high_spans : high.Spans 20 4 := ⟨rfl, rfl, by decide, by decide⟩
theorem imm8_spans : imm8.Spans 16 8 := ⟨rfl, rfl, by decide, by decide⟩
theorem imm12_spans : imm12.Spans 12 12 := ⟨rfl, rfl, by decide, by decide⟩

section

variable {f : Field} {low width : Nat} (hf : f.Spans low width)
include hf

theorem Spans.toNat_get (w : Word) : (f.get w).toNat = w.toNat / 2 ^ low % 2 ^ width := by
  have hlow : low % 32 = low := Nat.mod_eq_of_lt hf.low_lt
  rw [get, UInt32.toNat_and, UInt32.toNat_shiftRight, hf.shift_eq, hf.mask_eq, hlow,
    Nat.and_two_pow_sub_one_eq_mod, Nat.shiftRight_eq_div_pow]

/-- The bits of the value of a field are those of the word from the field's first bit on. -/
theorem Spans.testBit_get (w : Word) (j : Nat) :
    (f.get w).toNat.testBit j = (decide (j < width) && w.toNat.testBit (low + j)) := by
  rw [hf.toNat_get, Nat.testBit_mod_two_pow, Nat.testBit_div_two_pow, Nat.add_comm low]

theorem Spans.testBit_shiftLeft (value : UInt32) (j : Nat) :
    ((value &&& f.mask) <<< f.shift).toNat.testBit j =
      (decide (low ≤ j ∧ j < low + width) && value.toNat.testBit (j - low)) := by
  have hlow : low % 32 = low := Nat.mod_eq_of_lt hf.low_lt
  have hend := hf.end_le
  rw [UInt32.toNat_shiftLeft, UInt32.toNat_and, hf.shift_eq, hf.mask_eq, hlow,
    Nat.and_two_pow_sub_one_eq_mod, Nat.testBit_mod_two_pow, Nat.testBit_shiftLeft,
    Nat.testBit_mod_two_pow]
  by_cases h : low ≤ j ∧ j < low + width
  · have h32 : j < 32 := by omega
    have hw : j - low < width := by omega
    simp [h, h32, hw]
  · by_cases hj : low ≤ j
    · have hw : ¬ j - low < width := by omega
      simp [h, hw]
    · simp [hj]

/-- Setting a field exchanges its bits and no other. -/
theorem Spans.testBit_set (value : UInt32) (w : Word) (j : Nat) :
    (f.set value w).toNat.testBit j =
      if low ≤ j ∧ j < low + width then value.toNat.testBit (j - low) else w.toNat.testBit j := by
  have hmask := hf.testBit_shiftLeft f.mask j
  rw [UInt32.and_self, hf.mask_eq, Nat.testBit_two_pow_sub_one] at hmask
  have hnot : (~~~(f.mask <<< f.shift)).toNat.testBit j =
      (decide (j < 32) && !(f.mask <<< f.shift).toNat.testBit j) := by
    rw [UInt32.toNat_not, Nat.sub_sub, Nat.add_comm 1, show UInt32.size = 2 ^ 32 from rfl,
      Nat.testBit_two_pow_sub_succ (UInt32.toNat_lt _)]
  rw [set, UInt32.toNat_or, Nat.testBit_or, UInt32.toNat_and, Nat.testBit_and, hnot, hmask,
    hf.testBit_shiftLeft]
  by_cases h : low ≤ j ∧ j < low + width
  · have hw : j - low < width := by omega
    simp [h, hw]
  · by_cases h32 : j < 32
    · simp [h, h32]
    · have hw : w.toNat.testBit j = false :=
        Nat.testBit_lt_two_pow (Nat.lt_of_lt_of_le (UInt32.toNat_lt w)
          (Nat.pow_le_pow_right (by omega) (by omega)))
      simp [h, hw]

/-- The number of a word after a field was set: what lies above the field, its new value, and what
lies below it. -/
theorem Spans.toNat_set (value : UInt32) (w : Word) :
    (f.set value w).toNat =
      2 ^ low * (2 ^ width * (w.toNat / 2 ^ (low + width)) + value.toNat % 2 ^ width)
        + w.toNat % 2 ^ low := by
  refine Nat.eq_of_testBit_eq fun j => ?_
  have hbelow : w.toNat % 2 ^ low < 2 ^ low := Nat.mod_lt _ (Nat.two_pow_pos _)
  have hvalue : value.toNat % 2 ^ width < 2 ^ width := Nat.mod_lt _ (Nat.two_pow_pos _)
  rw [hf.testBit_set, Nat.testBit_two_pow_mul_add _ hbelow, Nat.testBit_two_pow_mul_add _ hvalue,
    Nat.testBit_mod_two_pow, Nat.testBit_mod_two_pow, Nat.testBit_div_two_pow]
  by_cases hj : j < low
  · have h : ¬ (low ≤ j ∧ j < low + width) := by omega
    simp [hj, h]
  · by_cases hw : j - low < width
    · have h : low ≤ j ∧ j < low + width := by omega
      simp [hj, hw, h]
    · have h : ¬ (low ≤ j ∧ j < low + width) := by omega
      have hsum : j - low - width + (low + width) = j := by omega
      rw [if_neg h, if_neg hj, if_neg hw, hsum]

end

end Field

namespace Word

/-- A word uses 24 bits if its number is below `2 ^ 24`. -/
theorem fits_iff (w : Word) : w.fits = true ↔ w.toNat < 2 ^ 24 := by
  have hmask (j : Nat) : (~~~mask).toNat.testBit j = (decide (j < 32) && !decide (j < 24)) := by
    rw [UInt32.toNat_not, show UInt32.size - 1 - mask.toNat = 2 ^ 32 - ((2 ^ 24 - 1) + 1) from rfl,
      Nat.testBit_two_pow_sub_succ (by decide), Nat.testBit_two_pow_sub_one]
  rw [fits, beq_iff_eq, ← UInt32.toNat_inj, UInt32.toNat_and]
  constructor
  · intro h
    refine Nat.lt_pow_two_of_testBit _ fun j hj => ?_
    have hbit := congrArg (Nat.testBit · j) h
    simp only [Nat.testBit_and, hmask] at hbit
    by_cases h32 : j < 32
    · have h24 : ¬ j < 24 := by omega
      simpa [h32, h24] using hbit
    · exact Nat.testBit_lt_two_pow (Nat.lt_of_lt_of_le (UInt32.toNat_lt w)
        (Nat.pow_le_pow_right (by omega) (by omega)))
  · intro h
    refine Nat.eq_of_testBit_eq fun j => ?_
    rw [Nat.testBit_and, hmask]
    by_cases h24 : j < 24
    · simp [h24]
    · have hw : w.toNat.testBit j = false :=
        Nat.testBit_lt_two_pow (Nat.lt_of_lt_of_le h (Nat.pow_le_pow_right (by omega) (by omega)))
      simp [hw]

end Word

end RegisterMachine
