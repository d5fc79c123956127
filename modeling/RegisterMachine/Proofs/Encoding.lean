/-
# Words and instructions are inverse

An instruction that fits a word is read back from its word, up to the shared
encoding of an addition of 0: `Instruction.normal` is `mv` in place of it, or
`nop` on register 0 alone. In the other direction a word that is decoded at all
is the word of what it is decoded to, bit for bit, since all bits outside the
fields of an operation have to be 0.

Both directions go through the number of a word, of which the fields are the
digits: `Field.toNat_get_rd` and its siblings read them off, and
`Instruction.toNat_base` puts them together.

Key definitions: `Instruction.normal`.
Key theorems: `Word.decode_word`, `Word.word_of_decode`,
`Program.encode_of_means`, `Word.decodeFrom_map_word`,
`Word.means_of_decodeFrom`.
-/
import RegisterMachine.Bytecode.Decode
import RegisterMachine.Bytecode.Encode
import RegisterMachine.Proofs.Fields
import RegisterMachine.Proofs.WellFormed

namespace RegisterMachine

/-! ### The fields as digits -/

namespace Field

theorem toNat_get_opcode (w : Word) : (opcode.get w).toNat = w.toNat % 64 := by
  simpa using opcode_spans.toNat_get w

theorem toNat_get_fun2 (w : Word) : (fun2.get w).toNat = w.toNat / 64 % 4 := fun2_spans.toNat_get w

theorem toNat_get_rd (w : Word) : (rd.get w).toNat = w.toNat / 256 % 16 := rd_spans.toNat_get w

theorem toNat_get_rs1 (w : Word) : (rs1.get w).toNat = w.toNat / 4096 % 16 := rs1_spans.toNat_get w

theorem toNat_get_rs2 (w : Word) : (rs2.get w).toNat = w.toNat / 65536 % 16 := rs2_spans.toNat_get w

theorem toNat_get_high (w : Word) : (high.get w).toNat = w.toNat / 1048576 % 16 :=
  high_spans.toNat_get w

theorem toNat_get_imm8 (w : Word) : (imm8.get w).toNat = w.toNat / 65536 % 256 :=
  imm8_spans.toNat_get w

theorem toNat_get_imm12 (w : Word) : (imm12.get w).toNat = w.toNat / 4096 % 4096 :=
  imm12_spans.toNat_get w

theorem get_eq_iff (f : Field) (w : Word) (value : UInt32) :
    f.get w = value ↔ (f.get w).toNat = value.toNat := UInt32.toNat_inj.symm

end Field

/-! ### The number of a word -/

theorem Opcode.toNat_code_lt (op : Opcode) : op.code.toNat < 64 := by cases op <;> decide

theorem Condition.toNat_code_lt (c : Condition) : c.code.toNat < 3 := by cases c <;> decide

namespace Instruction

theorem toNat_registerBits (r : Register) : (registerBits r).toNat = r.val := by
  rw [registerBits, Nat.toUInt32_eq, UInt32.toNat_ofNat']
  omega

theorem toNat_base (op : Opcode) (rd rs : Register) :
    (base op rd rs).toNat = op.code.toNat + 256 * rd.val + 4096 * rs.val := by
  have hop := op.toNat_code_lt
  simp only [base, Field.rs1_spans.toNat_set, Field.rd_spans.toNat_set,
    Field.opcode_spans.toNat_set, toNat_registerBits, UInt32.toNat_zero]
  omega

theorem toNat_word_binary (f : Binary) (rd rs₁ rs₂ : Register) :
    (binary f rd rs₁ rs₂).word.toNat =
      f.opcode.code.toNat + 256 * rd.val + 4096 * rs₁.val + 65536 * rs₂.val := by
  have hop := f.opcode.toNat_code_lt
  simp only [word, Field.rs2_spans.toNat_set, toNat_base, toNat_registerBits]
  omega

theorem toNat_word_withImmediate (f : Immediate) (rd rs : Register) {value : UInt16}
    (h : value ≤ Operand.maxImmediate) :
    (withImmediate f rd rs value).word.toNat =
      f.opcode.code.toNat + 256 * rd.val + 4096 * rs.val + 65536 * value.toNat := by
  have hop := f.opcode.toNat_code_lt
  have hvalue : value.toNat ≤ 255 := UInt16.le_iff_toNat_le.mp h
  simp only [word, Field.imm8_spans.toNat_set, toNat_base, UInt16.toNat_toUInt32]
  omega

theorem toNat_word_branch (c : Condition) {target : UInt16} (h : target ≤ Operand.maxAddress) :
    (branch c target).word.toNat = 11 + 64 * c.code.toNat + 4096 * target.toNat := by
  have hc := c.toNat_code_lt
  have htarget : target.toNat ≤ 4095 := UInt16.le_iff_toNat_le.mp h
  have hcode : Opcode.branch.code.toNat = 11 := rfl
  simp only [word, Field.imm12_spans.toNat_set, Field.fun2_spans.toNat_set,
    Field.opcode_spans.toNat_set, UInt16.toNat_toUInt32, UInt32.toNat_zero, hcode]
  omega

theorem fits_word {i : Instruction} (h : i.Fits) : i.word.fits = true := by
  rw [Word.fits_iff]
  cases i with
  | halt => decide
  | nop => rw [word, toNat_base]; decide
  | move rd rs | complement rd rs =>
    have hop := Opcode.toNat_code_lt
    rw [word, toNat_base]
    have := hop .addi
    have := hop .not
    omega
  | binary f rd rs₁ rs₂ =>
    have hop := f.opcode.toNat_code_lt
    rw [toNat_word_binary]
    omega
  | withImmediate f rd rs value =>
    have hop := f.opcode.toNat_code_lt
    have hvalue : value.toNat ≤ 255 := UInt16.le_iff_toNat_le.mp h
    rw [toNat_word_withImmediate f rd rs h]
    omega
  | branch c target =>
    have hc := c.toNat_code_lt
    have htarget : target.toNat ≤ 4095 := UInt16.le_iff_toNat_le.mp h
    rw [toNat_word_branch c h]
    omega

/-- What an addition of 0 is read as. -/
def copy (rd rs : Register) : Instruction := if rd = 0 ∧ rs = 0 then .nop else .move rd rs

/-- The instruction that the word of an instruction is read as. -/
def normal : Instruction → Instruction
  | move rd rs => copy rd rs
  | withImmediate f rd rs value =>
    if f = .add ∧ value = 0 then copy rd rs else .withImmediate f rd rs value
  | i => i

theorem fits_copy (rd rs : Register) : (copy rd rs).Fits := by
  unfold copy
  split <;> exact trivial

theorem fits_normal {i : Instruction} (h : i.Fits) : i.normal.Fits := by
  cases i with
  | move rd rs => exact fits_copy rd rs
  | withImmediate f rd rs value =>
    simp only [normal]
    split
    · exact fits_copy rd rs
    · exact h
  | _ => exact h

end Instruction

/-! ### Reading the word of an instruction -/

namespace Word

theorem register_eq {f : Field} {w : Word} {r : Register} (h : (f.get w).toNat = r.val) :
    register f w = r := by
  rw [register, h]
  exact Fin.ext (Nat.mod_eq_of_lt r.isLt)

theorem decode_eq_decodeAs {w : Word} {op : Opcode} (hw : w.toNat < 2 ^ 24)
    (hop : w.toNat % 64 = op.code.toNat) : decode w = decodeAs w op := by
  have hfits : w.fits = true := (fits_iff w).mpr hw
  have hget : Field.opcode.get w = op.code :=
    (Field.get_eq_iff _ _ _).mpr ((Field.toNat_get_opcode w).trans hop)
  rw [decode, if_neg (not_not_intro hfits), hget, Opcode.ofCode?_code]

/-- The fields of a word that is put together from an opcode, two registers and an upper byte. -/
theorem fields_of_toNat {w : Word} {op : Opcode} {rd rs : Register} (upper : Nat)
    (hupper : upper < 256)
    (hw : w.toNat = op.code.toNat + 256 * rd.val + 4096 * rs.val + 65536 * upper) :
    decode w = decodeAs w op ∧ Field.fun2.get w = 0 ∧ register .rd w = rd ∧
      register .rs1 w = rs ∧ (Field.imm8.get w).toNat = upper := by
  have hop := op.toNat_code_lt
  have hrd := rd.isLt
  have hrs := rs.isLt
  refine ⟨decode_eq_decodeAs ?_ ?_, (Field.get_eq_iff _ _ _).mpr ?_, register_eq ?_,
    register_eq ?_, ?_⟩
  · omega
  · omega
  · rw [Field.toNat_get_fun2, UInt32.toNat_zero]
    omega
  · rw [Field.toNat_get_rd]
    omega
  · rw [Field.toNat_get_rs1]
    omega
  · rw [Field.toNat_get_imm8]
    omega

theorem decode_base_addi (rd rs : Register) :
    decode (Instruction.base .addi rd rs) = .ok (Instruction.copy rd rs) := by
  obtain ⟨hdecode, hfun2, hrd, hrs, himm⟩ :=
    fields_of_toNat 0 (by omega) (Instruction.toNat_base .addi rd rs)
  have himm0 : Field.imm8.get (Instruction.base .addi rd rs) = 0 :=
    (Field.get_eq_iff _ _ _).mpr himm
  simp [hdecode, decodeAs, hfun2, decodeAddition, himm0, hrd, hrs, Instruction.copy]

theorem decode_word_complement (rd rs : Register) :
    decode (Instruction.complement rd rs).word = .ok (.complement rd rs) := by
  obtain ⟨hdecode, hfun2, hrd, hrs, himm⟩ :=
    fields_of_toNat 0 (by omega) (Instruction.toNat_base .not rd rs)
  have himm0 : Field.imm8.get (Instruction.base .not rd rs) = 0 :=
    (Field.get_eq_iff _ _ _).mpr himm
  simp [Instruction.word, hdecode, decodeAs, hfun2, himm0, hrd, hrs]

theorem decode_word_binary (f : Binary) (rd rs₁ rs₂ : Register) :
    decode (Instruction.binary f rd rs₁ rs₂).word = .ok (.binary f rd rs₁ rs₂) := by
  have hw := Instruction.toNat_word_binary f rd rs₁ rs₂
  obtain ⟨hdecode, hfun2, hrd, hrs, -⟩ := fields_of_toNat _ (by omega) hw
  have hop := f.opcode.toNat_code_lt
  have hrs₂ : register .rs2 (Instruction.binary f rd rs₁ rs₂).word = rs₂ := by
    refine register_eq ?_
    rw [Field.toNat_get_rs2]
    omega
  have hhigh : Field.high.get (Instruction.binary f rd rs₁ rs₂).word = 0 := by
    refine (Field.get_eq_iff _ _ _).mpr ?_
    rw [Field.toNat_get_high, UInt32.toNat_zero]
    omega
  rw [hdecode]
  cases f <;>
    simp [decodeAs, Binary.opcode, decodeBinary, hfun2, hhigh, hrd, hrs, hrs₂]

theorem decode_word_withImmediate (f : Immediate) (rd rs : Register) {value : UInt16}
    (h : value ≤ Operand.maxImmediate) :
    decode (Instruction.withImmediate f rd rs value).word =
      .ok (Instruction.withImmediate f rd rs value).normal := by
  have hvalue : value.toNat ≤ 255 := UInt16.le_iff_toNat_le.mp h
  have hw := Instruction.toNat_word_withImmediate f rd rs h
  obtain ⟨hdecode, hfun2, hrd, hrs, himm⟩ := fields_of_toNat _ (by omega) hw
  have hsame :
      (Field.imm8.get (Instruction.withImmediate f rd rs value).word).toUInt16 = value := by
    rw [← UInt16.toNat_inj, UInt32.toNat_toUInt16, himm]
    omega
  have hzero : Field.imm8.get (Instruction.withImmediate f rd rs value).word = 0 ↔ value = 0 := by
    rw [Field.get_eq_iff, himm, ← UInt16.toNat_inj]
    rfl
  rw [hdecode]
  cases f with
  | add =>
    simp only [decodeAs, Immediate.opcode, hfun2, decodeAddition, decodeImmediate, hzero, hrd, hrs,
      hsame, Instruction.normal, Instruction.copy]
    simp
  | and | or | xor =>
    simp [decodeAs, Immediate.opcode, decodeImmediate, hfun2, hrd, hrs, hsame, Instruction.normal]

theorem decode_word_branch (c : Condition) {target : UInt16} (h : target ≤ Operand.maxAddress) :
    decode (Instruction.branch c target).word = .ok (.branch c target) := by
  have hc := c.toNat_code_lt
  have htarget : target.toNat ≤ 4095 := UInt16.le_iff_toNat_le.mp h
  have hw := Instruction.toNat_word_branch c h
  have hdecode : decode (Instruction.branch c target).word =
      decodeAs (Instruction.branch c target).word .branch :=
    decode_eq_decodeAs (by omega) (by rw [hw]; show _ = 11; omega)
  have hfun2 : Field.fun2.get (Instruction.branch c target).word = c.code := by
    refine (Field.get_eq_iff _ _ _).mpr ?_
    rw [Field.toNat_get_fun2]
    omega
  have hrd : Field.rd.get (Instruction.branch c target).word = 0 := by
    refine (Field.get_eq_iff _ _ _).mpr ?_
    rw [Field.toNat_get_rd, UInt32.toNat_zero]
    omega
  have hsame : (Field.imm12.get (Instruction.branch c target).word).toUInt16 = target := by
    rw [← UInt16.toNat_inj, UInt32.toNat_toUInt16, Field.toNat_get_imm12]
    omega
  rw [hdecode]
  cases c <;> simp [decodeAs, decodeBranch, hrd, hfun2, hsame, Condition.code]

/-- **The word of an instruction is read as its normal form.** -/
theorem decode_word {i : Instruction} (h : i.Fits) : decode i.word = .ok i.normal := by
  cases i with
  | halt => rfl
  | nop => exact decode_base_addi 0 0
  | move rd rs => exact decode_base_addi rd rs
  | complement rd rs => exact decode_word_complement rd rs
  | binary f rd rs₁ rs₂ => exact decode_word_binary f rd rs₁ rs₂
  | withImmediate f rd rs value => exact decode_word_withImmediate f rd rs h
  | branch c target => exact decode_word_branch c h

/-! ### The word that an instruction was read from -/

theorem code_of_ofCode? {code : UInt32} {op : Opcode} (h : Opcode.ofCode? code = some op) :
    op.code = code := by
  have key : ∀ k : Fin 12, (Opcode.all[k]).code.toNat = k.val := by decide
  obtain ⟨hlt, rfl⟩ := List.getElem?_eq_some_iff.mp h
  exact UInt32.toNat_inj.mp (key ⟨code.toNat, hlt⟩)

theorem decode_eq_ok_iff {w : Word} {i : Instruction} : decode w = .ok i ↔
    w.toNat < 2 ^ 24 ∧ ∃ op : Opcode, w.toNat % 64 = op.code.toNat ∧ decodeAs w op = .ok i := by
  constructor
  · intro h
    rw [decode, guard_eq_ok_iff, not_not] at h
    obtain ⟨hfits, h⟩ := h
    split at h
    · cases h
    · rename_i op hop
      refine ⟨(fits_iff w).mp hfits, op, ?_, h⟩
      rw [code_of_ofCode? hop, Field.toNat_get_opcode]
  · rintro ⟨hw, op, hop, h⟩
    rw [decode_eq_decodeAs hw hop, h]

theorem val_register_rd (w : Word) : (register .rd w).val = w.toNat / 256 % 16 := by
  rw [register, Field.toNat_get_rd]
  exact Nat.mod_mod _ 16

theorem val_register_rs1 (w : Word) : (register .rs1 w).val = w.toNat / 4096 % 16 := by
  rw [register, Field.toNat_get_rs1]
  exact Nat.mod_mod _ 16

theorem val_register_rs2 (w : Word) : (register .rs2 w).val = w.toNat / 65536 % 16 := by
  rw [register, Field.toNat_get_rs2]
  exact Nat.mod_mod _ 16

theorem toNat_base_registers {w : Word} {op : Opcode} (hop : w.toNat % 64 = op.code.toNat) :
    (Instruction.base op (register .rd w) (register .rs1 w)).toNat =
      w.toNat % 64 + 256 * (w.toNat / 256 % 16) + 4096 * (w.toNat / 4096 % 16) := by
  rw [Instruction.toNat_base, hop, val_register_rd, val_register_rs1]

section

variable {w : Word} (hw : w.toNat < 2 ^ 24) {op : Opcode} (hop : w.toNat % 64 = op.code.toNat)
include hw hop

/-- A word without condition and upper byte is made of an opcode and two registers. -/
theorem base_of_fields (hfun2 : Field.fun2.get w = 0) (himm : Field.imm8.get w = 0) :
    Instruction.base op (register .rd w) (register .rs1 w) = w := by
  rw [Field.get_eq_iff, Field.toNat_get_fun2, UInt32.toNat_zero] at hfun2
  rw [Field.get_eq_iff, Field.toNat_get_imm8, UInt32.toNat_zero] at himm
  rw [← UInt32.toNat_inj, toNat_base_registers hop]
  omega

theorem word_decodeImmediate {f : Immediate} (hf : f.opcode = op) (hfun2 : Field.fun2.get w = 0) :
    (decodeImmediate w f).word = w ∧ (decodeImmediate w f).Fits := by
  rw [Field.get_eq_iff, Field.toNat_get_fun2, UInt32.toNat_zero] at hfun2
  have hvalue : (Field.imm8.get w).toUInt16.toNat = w.toNat / 65536 % 256 := by
    rw [UInt32.toNat_toUInt16, Field.toNat_get_imm8]
    omega
  have hfits : (Field.imm8.get w).toUInt16 ≤ Operand.maxImmediate := by
    rw [UInt16.le_iff_toNat_le, hvalue]
    show _ ≤ 255
    omega
  refine ⟨?_, hfits⟩
  rw [← UInt32.toNat_inj, decodeImmediate, Instruction.toNat_word_withImmediate _ _ _ hfits, hf,
    ← hop, hvalue, val_register_rd, val_register_rs1]
  omega

theorem word_decodeBinary {f : Binary} (hf : f.opcode = op) (hfun2 : Field.fun2.get w = 0)
    {i : Instruction} (h : decodeBinary w op f = .ok i) : i.word = w ∧ i.Fits := by
  rw [decodeBinary, guard_eq_ok_iff, not_not, Field.get_eq_iff, Field.toNat_get_high,
    UInt32.toNat_zero] at h
  rw [Field.get_eq_iff, Field.toNat_get_fun2, UInt32.toNat_zero] at hfun2
  obtain ⟨hhigh, h⟩ := h
  cases h
  refine ⟨?_, trivial⟩
  rw [← UInt32.toNat_inj, Instruction.toNat_word_binary, hf, ← hop, val_register_rd,
    val_register_rs1, val_register_rs2]
  omega

end

theorem word_decodeAddition {w : Word} (hw : w.toNat < 2 ^ 24)
    (hop : w.toNat % 64 = Opcode.addi.code.toNat) (hfun2 : Field.fun2.get w = 0) :
    (decodeAddition w).word = w ∧ (decodeAddition w).Fits := by
  unfold decodeAddition
  split
  · rename_i himm
    have hbase := base_of_fields hw hop hfun2 himm
    split
    · rename_i hzero
      rw [hzero.1, hzero.2] at hbase
      exact ⟨hbase, trivial⟩
    · exact ⟨hbase, trivial⟩
  · exact word_decodeImmediate hw hop rfl hfun2

theorem word_decodeBranch {w : Word} (hw : w.toNat < 2 ^ 24)
    (hop : w.toNat % 64 = Opcode.branch.code.toNat) {i : Instruction}
    (h : decodeBranch w = .ok i) : i.word = w ∧ i.Fits := by
  have htarget : (Field.imm12.get w).toUInt16.toNat = w.toNat / 4096 % 4096 := by
    rw [UInt32.toNat_toUInt16, Field.toNat_get_imm12]
    omega
  have hfits : (Field.imm12.get w).toUInt16 ≤ Operand.maxAddress := by
    rw [UInt16.le_iff_toNat_le, htarget]
    show _ ≤ 4095
    omega
  have hcode : Opcode.branch.code.toNat = 11 := rfl
  rw [hcode] at hop
  -- The three conditions differ in the value of one field only.
  have hword (c : Condition) (hrd : Field.rd.get w = 0) (hfun2 : Field.fun2.get w = c.code) :
      (Instruction.branch c (Field.imm12.get w).toUInt16).word = w := by
    rw [Field.get_eq_iff, Field.toNat_get_rd, UInt32.toNat_zero] at hrd
    rw [Field.get_eq_iff, Field.toNat_get_fun2] at hfun2
    rw [← UInt32.toNat_inj, Instruction.toNat_word_branch _ hfits, ← hfun2, htarget]
    omega
  simp only [decodeBranch, guard_eq_ok_iff, not_not] at h
  obtain ⟨hrd, h⟩ := h
  split at h
  · rename_i hfun2
    cases h
    exact ⟨hword .always hrd hfun2, hfits⟩
  split at h
  · rename_i hfun2
    cases h
    exact ⟨hword .zero hrd hfun2, hfits⟩
  split at h
  · rename_i hfun2
    cases h
    exact ⟨hword .nonzero hrd hfun2, hfits⟩
  · cases h

/-- **A word that is decoded is the word of the instruction it is decoded to.** -/
theorem word_of_decode {w : Word} {i : Instruction} (h : decode w = .ok i) :
    i.word = w ∧ i.Fits := by
  obtain ⟨hw, op, hop, h⟩ := decode_eq_ok_iff.mp h
  unfold decodeAs at h
  rw [guard_eq_ok_iff] at h
  obtain ⟨hcondition, h⟩ := h
  have hfun2 (hne : op ≠ .branch) : Field.fun2.get w = 0 := by
    by_contra hfun2
    exact hcondition ⟨hne, hfun2⟩
  cases op with
  | halt =>
    obtain ⟨hzero, h⟩ := guard_eq_ok_iff.mp h
    cases h
    exact ⟨(not_not.mp hzero).symm, trivial⟩
  | addi => cases h; exact word_decodeAddition hw hop (hfun2 (by decide))
  | andi => cases h; exact word_decodeImmediate hw hop rfl (hfun2 (by decide))
  | ori => cases h; exact word_decodeImmediate hw hop rfl (hfun2 (by decide))
  | xori => cases h; exact word_decodeImmediate hw hop rfl (hfun2 (by decide))
  | add | sub | and | or | xor =>
    exact word_decodeBinary hw hop rfl (hfun2 (by decide)) h
  | not =>
    obtain ⟨himm, h⟩ := guard_eq_ok_iff.mp h
    cases h
    exact ⟨base_of_fields hw hop (hfun2 (by decide)) (not_not.mp himm), trivial⟩
  | branch => exact word_decodeBranch hw hop h

end Word

/-! ### Programs -/

/-- Nothing in an instruction is too large for its field if the instruction fits a word. -/
theorem Instruction.rangeError?_eq_none_iff {i : Instruction} : i.rangeError? = none ↔ i.Fits := by
  cases i with
  | withImmediate f rd rs value =>
    simp only [rangeError?, Fits, ite_eq_right_iff, reduceCtorEq, imp_false, UInt16.not_lt]
  | branch c target =>
    simp only [rangeError?, Fits, ite_eq_right_iff, reduceCtorEq, imp_false, UInt16.not_lt]
  | halt | nop | move _ _ | complement _ _ | binary _ _ _ _ => exact iff_of_true rfl trivial

theorem Statement.Means.encode_eq {s : Statement} {i : Instruction} (h : s.Means i) :
    s.encode = .ok i.word := by
  rw [encode, h.instruction_eq]
  simp only [Instruction.rangeError?_eq_none_iff.mpr h.2]

theorem Program.encode_of_means : ∀ {program : Program} {instructions : List Instruction},
    program.Means instructions → program.encode = .ok (instructions.map Instruction.word)
  | [], _, .nil => rfl
  | s :: rest, i :: is, .cons hs hrest => by
    rw [encode, hs.encode_eq, encode_of_means hrest]
    rfl

namespace Word

/-- The words of instructions are read as their normal forms, wherever they stand. -/
theorem decodeFrom_map_word : ∀ {instructions : List Instruction} (address : Nat),
    (∀ i ∈ instructions, i.Fits) →
    decodeFrom address (instructions.map Instruction.word) =
      .ok (instructions.map fun i => i.normal.statement)
  | [], _, _ => rfl
  | i :: is, address, h => by
    have ih := decodeFrom_map_word (address + 1) fun j hj => h j (List.mem_cons_of_mem _ hj)
    rw [List.map_cons, decodeFrom, decode_word (h i List.mem_cons_self), ih]
    rfl

/-- Words that are decoded are the words of the program they are decoded to. -/
theorem means_of_decodeFrom : ∀ {words : List Word} {address : Nat} {program : Program},
    decodeFrom address words = .ok program →
    ∃ instructions : List Instruction, program.Means instructions ∧
      instructions.map Instruction.word = words
  | [], _, _, h => by
    cases h
    exact ⟨[], .nil, rfl⟩
  | w :: ws, address, program, h => by
    rw [decodeFrom] at h
    split at h
    · cases h
    · rename_i i hi
      obtain ⟨hword, hfits⟩ := word_of_decode hi
      obtain ⟨rest, hrest, rfl⟩ := map_eq_ok_iff.mp h
      obtain ⟨is, hmeans, hwords⟩ := means_of_decodeFrom hrest
      exact ⟨i :: is, .cons (Statement.means_statement hfits) hmeans, by
        rw [List.map_cons, hword, hwords]⟩

end Word
end RegisterMachine
