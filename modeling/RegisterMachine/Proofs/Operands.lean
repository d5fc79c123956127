/-
# Operands are read as they are written

A place takes an operand if, and only if, reading can produce the operand there:
the text of an operand that a place takes is read back as that operand, and
whatever is read in a place is an operand that it takes. Numbers are written in
decimal, so the first direction is that of digits that are in range
(`Operand.ofRegisterToken_of_decimal` and its like); the second one is the range
check of each kind of operand.

Key theorems: `Operand.ofToken_text`, `Operand.takes_of_ofToken`,
`Operand.ofTokens_text`, `Operand.takes_of_ofTokens`.
-/
import RegisterMachine.Assembly.Reading
import RegisterMachine.Proofs.Ranges
import RegisterMachine.Proofs.WellFormed

namespace RegisterMachine
namespace Operand

open Literal

/-! ### What is written is read back -/

theorem toUInt16_toNat (value : UInt16) : value.toNat.toUInt16 = value := UInt16.ofNat_toNat

theorem ofRegisterToken_text {index : UInt16} (h : index < registerCount) {token : Token}
    (htext : token.text = (register index).text) :
    ofRegisterToken token = .ok (.register index) := by
  have hle : index.toNat ≤ 15 := Nat.le_of_lt_succ (UInt16.lt_iff_toNat_lt.mp h)
  obtain ⟨_, column⟩ := token
  obtain rfl : _ = (register index).text := htext
  have hread := ofRegisterToken_of_decimal (decimal_numeral index.toNat) column (Or.inl rfl)
  rw [denoted_numeral, ranged, if_pos hle, toUInt16_toNat] at hread
  exact hread

theorem ofImmediateToken_text {value : UInt16} (h : value ≤ maxImmediate) {token : Token}
    (htext : token.text = (immediate value).text) :
    ofImmediateToken token = .ok (.immediate value) := by
  have hle : value.toNat ≤ 255 := UInt16.le_iff_toNat_le.mp h
  obtain ⟨_, column⟩ := token
  obtain rfl : _ = (immediate value).text := htext
  have hread := ofImmediateToken_of_decimal (decimal_numeral value.toNat) column
  rw [denoted_numeral, ranged, if_pos hle, toUInt16_toNat] at hread
  exact hread

theorem ofTargetToken_address {value : UInt16} (h : value ≤ maxAddress) {token : Token}
    (htext : token.text = (address value).text) : ofTargetToken token = .ok (.address value) := by
  have hle : value.toNat ≤ 4095 := UInt16.le_iff_toNat_le.mp h
  obtain ⟨_, column⟩ := token
  obtain rfl : _ = (address value).text := htext
  have hread := ofTargetToken_of_decimal (decimal_numeral value.toNat) column
  rw [denoted_numeral, ranged, if_pos hle, toUInt16_toNat] at hread
  exact hread

theorem ofTargetToken_label {name : Bytes} (h : Ascii.isIdentifier name = true) {token : Token}
    (htext : token.text = name) : ofTargetToken token = .ok (.label name) := by
  rw [ofTargetToken, htext, if_pos h]

/-- **The text of an operand that a place takes is read as that operand.** -/
theorem ofToken_text {shape : Shape} {o : Operand} (h : shape.Takes o) {token : Token}
    (htext : token.text = o.text) : ofToken shape token = .ok o := by
  obtain ⟨hkind, hrange⟩ := h
  cases shape with
  | register =>
    cases o with
    | register index => exact ofRegisterToken_text hrange htext
    | immediate _ | address _ | label _ => cases hkind
  | immediate =>
    cases o with
    | immediate value => exact ofImmediateToken_text hrange htext
    | register _ | address _ | label _ => cases hkind
  | target =>
    cases o with
    | address value => exact ofTargetToken_address hrange htext
    | label name => exact ofTargetToken_label hrange htext
    | register _ | immediate _ => cases hkind
  | nothing | unknown => cases o <;> cases hkind

/-- The texts of operands that the places take are read as these operands. -/
theorem ofTokens_text : ∀ {shapes : List Shape} {operands : List Operand} {tokens : List Token},
    List.Forall₂ Shape.Takes shapes operands → tokens.map Token.text = operands.map text →
    ofTokens shapes tokens = .ok operands
  | _, _, _, .nil, _ => by simp [ofTokens]
  | _, _, [], .cons _ _, htexts => by cases htexts
  | shape :: shapes, o :: operands, token :: tokens, .cons ho h, htexts => by
    rw [List.map_cons, List.map_cons, List.cons.injEq] at htexts
    rw [ofTokens, ofToken_text ho htexts.1, ofTokens_text h htexts.2]
    rfl

/-! ### What is read can stand there -/

theorem takes_of_ofRegisterToken {token : Token} {o : Operand} (h : ofRegisterToken token = .ok o) :
    Shape.register.Takes o := by
  unfold ofRegisterToken at h
  simp only at h
  split at h
  · split at h
    · split at h
      · cases h
      · rename_i index _
        simp only [guard_eq_ok_iff] at h
        obtain ⟨-, hindex, h⟩ := h
        cases h
        refine ⟨rfl, ?_⟩
        show index.toNat.toUInt16 < registerCount
        rw [UInt16.lt_iff_toNat_lt, Nat.toUInt16_eq, UInt16.toNat_ofNat']
        show _ < 16
        omega
    · cases h
  · cases h

theorem takes_of_ofImmediateToken {token : Token} {o : Operand}
    (h : ofImmediateToken token = .ok o) : Shape.immediate.Takes o := by
  unfold ofImmediateToken at h
  split at h
  · cases h
  · rename_i value _
    obtain ⟨-, h⟩ := guard_eq_ok_iff.mp h
    cases h
    refine ⟨rfl, ?_⟩
    show (value % 256).toNat.toUInt16 ≤ maxImmediate
    rw [UInt16.le_iff_toNat_le, Nat.toUInt16_eq, UInt16.toNat_ofNat']
    show _ ≤ 255
    omega

theorem takes_of_ofTargetToken {token : Token} {o : Operand} (h : ofTargetToken token = .ok o) :
    Shape.target.Takes o := by
  unfold ofTargetToken at h
  split at h
  · rename_i hname
    cases h
    exact ⟨rfl, hname⟩
  · split at h
    · cases h
    · rename_i value _
      obtain ⟨hrange, h⟩ := guard_eq_ok_iff.mp h
      cases h
      refine ⟨rfl, ?_⟩
      show value.toNat.toUInt16 ≤ maxAddress
      rw [UInt16.le_iff_toNat_le, Nat.toUInt16_eq, UInt16.toNat_ofNat']
      show _ ≤ 4095
      omega

/-- **What is read in a place is an operand that the place takes.** -/
theorem takes_of_ofToken {shape : Shape} {token : Token} {o : Operand}
    (h : ofToken shape token = .ok o) : shape.Takes o := by
  cases shape with
  | register => exact takes_of_ofRegisterToken h
  | immediate => exact takes_of_ofImmediateToken h
  | target => exact takes_of_ofTargetToken h
  | nothing | unknown => cases h

/-- As many tokens as there are places give operands for all of them. -/
theorem takes_of_ofTokens : ∀ {shapes : List Shape} {tokens : List Token} {operands : List Operand},
    tokens.length = shapes.length → ofTokens shapes tokens = .ok operands →
    List.Forall₂ Shape.Takes shapes operands
  | [], [], _, _, h => by
    cases h
    exact .nil
  | shape :: shapes, token :: tokens, operands, hlength, h => by
    rw [ofTokens] at h
    split at h
    · cases h
    · rename_i o ho
      obtain ⟨rest, hrest, rfl⟩ := map_eq_ok_iff.mp h
      have hlength' : tokens.length = shapes.length := Nat.succ.inj hlength
      exact .cons (takes_of_ofToken ho) (takes_of_ofTokens hlength' hrest)

end Operand
end RegisterMachine
