/-
# A bit of a word is decided by the last setting that covers it

A word is written one field at a time, and `rs2`, `imm8` and `imm12` lie over
each other, so the order of the settings matters. What a word is after any
number of them is said bit by bit: a setting decides the bits its field covers
and leaves every other bit (`Setting.testBit_apply`), so a bit is that of the
last setting that covers it (`Word.testBit_setAll`). No field reaches beyond bit
23, and so a word that began as 0 is its own 24 bits.

That settings of apart fields commute, and that a field gives back the value it
was set to while nothing overlaps it, are then facts about which setting is the
last, with no mask or shift in them.

Key definitions: `Part`, `Setting`, `Setting.lastAt`, `Word.build`,
`Word.finish`, `Instruction.settings`.
Key theorems: `Setting.testBit_apply`, `Word.testBit_setAll`,
`Word.finish_settings`, `Instruction.finish_settings_eq_word`.
-/
import Mathlib.Data.List.Induction
import RegisterMachine.Bytecode.Encode
import RegisterMachine.Proofs.Fields

namespace RegisterMachine

/-! ### Settings -/

/-- A field that is set in a word: every field but the high bits of `imm8`, which are only
read. -/
inductive Part where
  | opcode
  | fun2
  | rd
  | rs1
  | rs2
  | imm8
  | imm12
deriving DecidableEq, Repr, Inhabited

namespace Part

/-- The mask and shift that it is set with. -/
def field : Part → Field
  | opcode => .opcode
  | fun2 => .fun2
  | rd => .rd
  | rs1 => .rs1
  | rs2 => .rs2
  | imm8 => .imm8
  | imm12 => .imm12

/-- The number of its first bit. -/
def low : Part → Nat
  | opcode => 0
  | fun2 => 6
  | rd => 8
  | rs1 => 12
  | rs2 => 16
  | imm8 => 16
  | imm12 => 12

/-- How many bits it has. -/
def width : Part → Nat
  | opcode => 6
  | fun2 => 2
  | rd => 4
  | rs1 => 4
  | rs2 => 4
  | imm8 => 8
  | imm12 => 12

theorem spans : ∀ p : Part, p.field.Spans p.low p.width
  | opcode => Field.opcode_spans
  | fun2 => Field.fun2_spans
  | rd => Field.rd_spans
  | rs1 => Field.rs1_spans
  | rs2 => Field.rs2_spans
  | imm8 => Field.imm8_spans
  | imm12 => Field.imm12_spans

/-- The bit with a number belongs to it. -/
def Covers (p : Part) (j : Nat) : Prop := p.low ≤ j ∧ j < p.low + p.width

instance (p : Part) (j : Nat) : Decidable (p.Covers j) :=
  inferInstanceAs (Decidable (p.low ≤ j ∧ j < p.low + p.width))

theorem Covers.lt {p : Part} {j : Nat} (h : p.Covers j) : j < 24 :=
  Nat.lt_of_lt_of_le h.2 (by cases p <;> decide)

/-- No bit belongs to both. -/
def Apart (p q : Part) : Prop := ∀ j, p.Covers j → ¬ q.Covers j

theorem apart_iff (p q : Part) :
    p.Apart q ↔ p.low + p.width ≤ q.low ∨ q.low + q.width ≤ p.low := by
  have hp : 0 < p.width := by cases p <;> decide
  have hq : 0 < q.width := by cases q <;> decide
  simp only [Apart, Covers]
  constructor
  · intro h
    -- the later of the two first bits would belong to both
    have := h (max p.low q.low)
    omega
  · intro h j
    omega

instance (p q : Part) : Decidable (p.Apart q) := decidable_of_iff _ (p.apart_iff q).symm

end Part

/-- A value that a field is set to. Only as many of its low bits count as the field has. -/
structure Setting where
  part : Part
  value : UInt32
deriving DecidableEq, Repr, Inhabited

namespace Setting

/-- The word after the setting. -/
def apply (w : Word) (s : Setting) : Word := s.part.field.set s.value w

/-- The bit of the value that stands at a place of the word. -/
def bit (s : Setting) (j : Nat) : Bool := s.value.toNat.testBit (j - s.part.low)

/-- The last setting that covers a bit. -/
def lastAt (settings : List Setting) (j : Nat) : Option Setting :=
  settings.reverse.find? fun s => decide (s.part.Covers j)

/-- A setting decides the bits that its field covers and leaves the others. -/
theorem testBit_apply (s : Setting) (w : Word) (j : Nat) :
    (apply w s).toNat.testBit j = if s.part.Covers j then s.bit j else w.toNat.testBit j :=
  s.part.spans.testBit_set s.value w j

theorem apply_comm {a b : Setting} (h : a.part.Apart b.part) (w : Word) :
    apply (apply w a) b = apply (apply w b) a := by
  refine UInt32.toNat_inj.mp (Nat.eq_of_testBit_eq fun j => ?_)
  simp only [testBit_apply]
  by_cases ha : a.part.Covers j
  · rw [if_pos ha, if_neg (h j ha), if_pos ha]
  · rw [if_neg ha, if_neg ha]

theorem lastAt_concat (settings : List Setting) (s : Setting) (j : Nat) :
    lastAt (settings ++ [s]) j = if s.part.Covers j then some s else lastAt settings j := by
  by_cases h : s.part.Covers j <;> simp [lastAt, h]

theorem lastAt_eq_none {settings : List Setting} {j : Nat}
    (h : ∀ s ∈ settings, ¬ s.part.Covers j) : lastAt settings j = none := by
  simpa [lastAt, List.find?_eq_none] using h

end Setting

/-! ### Words that are built -/

namespace Word

open Setting

/-- The word after settings, the first one first. -/
def setAll (w : Word) (settings : List Setting) : Word := settings.foldl Setting.apply w

/-- The word that settings build. -/
def build (settings : List Setting) : Word := setAll 0 settings

/-- The 24 bits of the word that settings build. -/
def finish (settings : List Setting) : Word := (build settings).truncate

/-- A bit is decided by the last setting that covers it, and is as it was if there is none. -/
theorem testBit_setAll (w : Word) (settings : List Setting) (j : Nat) :
    (setAll w settings).toNat.testBit j =
      match lastAt settings j with
      | some s => s.bit j
      | none => w.toNat.testBit j := by
  induction settings using List.reverseRecOn with
  | nil => rfl
  | append_singleton settings s ih =>
    rw [setAll, List.foldl_append, List.foldl_cons, List.foldl_nil, testBit_apply, lastAt_concat]
    by_cases h : s.part.Covers j
    · rw [if_pos h, if_pos h]
    · rw [if_neg h, if_neg h]
      exact ih

/-- What is set later and covers a bit nowhere leaves it. -/
theorem testBit_setAll_of_not_covers {settings : List Setting} {j : Nat}
    (h : ∀ s ∈ settings, ¬ s.part.Covers j) (w : Word) :
    (setAll w settings).toNat.testBit j = w.toNat.testBit j := by
  rw [testBit_setAll, lastAt_eq_none h]

theorem build_append (settings later : List Setting) :
    build (settings ++ later) = setAll (build settings) later := List.foldl_append

theorem toNat_build_lt (settings : List Setting) : (build settings).toNat < 2 ^ 24 := by
  refine Nat.lt_pow_two_of_testBit _ fun j hj => ?_
  have hnone : ∀ s ∈ settings, ¬ s.part.Covers j := fun s _ hs => by
    have := hs.lt
    omega
  rw [build, testBit_setAll_of_not_covers hnone]
  exact Nat.zero_testBit j

theorem truncate_of_lt {w : Word} (h : w.toNat < 2 ^ 24) : w.truncate = w := by
  rw [truncate, ← UInt32.toNat_inj, UInt32.toNat_and,
    show mask.toNat = 2 ^ 24 - 1 from rfl, Nat.and_two_pow_sub_one_eq_mod, Nat.mod_eq_of_lt h]

theorem finish_eq_build (settings : List Setting) : finish settings = build settings :=
  truncate_of_lt (toNat_build_lt settings)

/-- A field that nothing set later overlaps gives the low bits of its value back. -/
theorem toNat_get_setAll {s : Setting} {later : List Setting}
    (h : ∀ t ∈ later, s.part.Apart t.part) (w : Word) :
    (s.part.field.get (setAll (Setting.apply w s) later)).toNat =
      s.value.toNat % 2 ^ s.part.width := by
  refine Nat.eq_of_testBit_eq fun j => ?_
  rw [s.part.spans.testBit_get, Nat.testBit_mod_two_pow]
  by_cases hj : j < s.part.width
  · have hcovers : s.part.Covers (s.part.low + j) := ⟨by omega, by omega⟩
    rw [testBit_setAll_of_not_covers fun t ht => h t ht _ hcovers, testBit_apply,
      if_pos hcovers, bit, Nat.add_sub_cancel_left]
  · simp [hj]

/-- **A finished word has 24 bits, each of which is that of the last setting that covers it, or 0.**
So a setting leaves the bits outside its field, settings of apart fields commute wherever they
stand, and a field reads as the value it was last set to, cut to its width, if no field that
overlaps it was set afterwards. -/
theorem finish_settings (settings : List Setting) :
    (finish settings).toNat < 2 ^ 24 ∧
    (∀ j, (finish settings).toNat.testBit j =
      match lastAt settings j with
      | some s => s.bit j
      | none => false) ∧
    (∀ (s : Setting) (j : Nat), ¬ s.part.Covers j →
      (finish (settings ++ [s])).toNat.testBit j = (finish settings).toNat.testBit j) ∧
    (∀ (a b : Setting) (later : List Setting), a.part.Apart b.part →
      finish (settings ++ a :: b :: later) = finish (settings ++ b :: a :: later)) ∧
    ∀ (p : Part) (value : UInt32) (later : List Setting), (∀ s ∈ later, p.Apart s.part) →
      (p.field.get (finish (settings ++ ⟨p, value⟩ :: later))).toNat =
        value.toNat % 2 ^ p.width := by
  simp only [finish_eq_build]
  refine ⟨toNat_build_lt settings, fun j => ?_, fun s j h => ?_, fun a b later h => ?_,
    fun p value later h => ?_⟩
  · rw [build, testBit_setAll]
    cases lastAt settings j with
    | some s => rfl
    | none => exact Nat.zero_testBit j
  · rw [build_append]
    exact testBit_setAll_of_not_covers (by simpa using h) _
  · rw [build_append, build_append, setAll, setAll, List.foldl_cons, List.foldl_cons,
      List.foldl_cons, List.foldl_cons, apply_comm h]
  · rw [build_append]
    exact toNat_get_setAll h (build settings)

/-- A target lies over `rs2`, of which nothing stays, and is cut to 12 bits; a register that is
written may be set before or after it. -/
theorem finish_settings_of_overlap :
    finish [⟨.rs2, 0x3⟩, ⟨.imm12, 0xFABC⟩, ⟨.rd, 0x2⟩] = 0xABC200 ∧
    finish [⟨.rs2, 0x3⟩, ⟨.rd, 0x2⟩, ⟨.imm12, 0xFABC⟩] =
      finish [⟨.rs2, 0x3⟩, ⟨.imm12, 0xFABC⟩, ⟨.rd, 0x2⟩] ∧
    (Field.imm12.get (finish [⟨.rs2, 0x3⟩, ⟨.imm12, 0xFABC⟩, ⟨.rd, 0x2⟩])).toNat = 0xABC := by
  obtain ⟨-, -, -, hcomm, hget⟩ := finish_settings [⟨.rs2, 0x3⟩]
  exact ⟨by decide, hcomm ⟨.rd, 0x2⟩ ⟨.imm12, 0xFABC⟩ [] (by decide),
    hget .imm12 0xFABC [⟨.rd, 0x2⟩] (by decide)⟩

end Word

/-! ### Instructions -/

namespace Instruction

/-- The settings that an instruction is encoded by. -/
def settings : Instruction → List Setting
  | halt => [⟨.opcode, Opcode.halt.code⟩]
  | nop => [⟨.opcode, Opcode.addi.code⟩, ⟨.rd, 0⟩, ⟨.rs1, 0⟩, ⟨.imm8, 0⟩]
  | move rd rs => [⟨.opcode, Opcode.addi.code⟩, ⟨.rd, registerBits rd⟩, ⟨.rs1, registerBits rs⟩]
  | complement rd rs =>
    [⟨.opcode, Opcode.not.code⟩, ⟨.rd, registerBits rd⟩, ⟨.rs1, registerBits rs⟩]
  | binary f rd rs₁ rs₂ =>
    [⟨.opcode, f.opcode.code⟩, ⟨.rd, registerBits rd⟩, ⟨.rs1, registerBits rs₁⟩,
      ⟨.rs2, registerBits rs₂⟩]
  | withImmediate f rd rs value =>
    [⟨.opcode, f.opcode.code⟩, ⟨.rd, registerBits rd⟩, ⟨.rs1, registerBits rs⟩,
      ⟨.imm8, value.toUInt32⟩]
  | branch c target =>
    [⟨.opcode, Opcode.branch.code⟩, ⟨.fun2, c.code⟩, ⟨.imm12, target.toUInt32⟩]

/-- The word of an instruction is what its settings build, so all that holds of built words holds
of it. -/
theorem finish_settings_eq_word (i : Instruction) : Word.finish i.settings = i.word := by
  rw [Word.finish_eq_build]
  cases i <;> rfl

end Instruction
end RegisterMachine
