/-
# The case of letters

Mnemonics, the `r` of a register, the `x` of a hexadecimal literal and its
digits may be written in either case; the names of labels are compared byte by
byte. Each place of the reader has its own way not to see the case, so each
stage is shown to give the same for a text and for the text in small letters:
the classes of bytes, the values of literals (`Literal.value?_map_lower`), the
operation of a mnemonic and the operands. Two texts are `Ascii.Recased` if they
agree in small letters, so what is the same for the text in small letters is the
same for both of them (`Ascii.Recased.congr`).

A line in another case is the same form with other letters in its mnemonic and
in its operands (`LineForm.Recased`). All that the grammar asks of the parts is
kept, and so are their lengths, by which the places of the tokens are given. An
identifier behind the mnemonic of a branch is the name of a label and is not
changed. In a program, each definition is found under its own name, however it
is spelled elsewhere.

Key definitions: `Ascii.Recased`, `Token.Recased`, `Slot.Recased`,
`InstructionForm.isLabelName`, `InstructionForm.Recased`, `LineForm.Recased`.
Key theorems: `Literal.value?_map_lower`, `Operand.ofToken_of_recased`,
`InstructionForm.Recased.ofMnemonic`, `LineForm.Recased.ofLine`,
`Program.folds_case_but_in_labels`.
-/
import RegisterMachine.Proofs.Assembling

namespace RegisterMachine

/-! ### Small letters -/

namespace Ascii

open Literal

theorem toNat_lower (b : UInt8) :
    (lower b).toNat = if 65 ≤ b.toNat ∧ b.toNat ≤ 90 then b.toNat + 32 else b.toNat := by
  simp only [lower, Bool.and_eq_true, decide_eq_true_eq, UInt8.le_iff_toNat_le]
  show (if 65 ≤ b.toNat ∧ b.toNat ≤ 90 then b + 32 else b).toNat = _
  split
  · rw [UInt8.toNat_add]
    show (b.toNat + 32) % 256 = _
    omega
  · rfl

@[simp] theorem lower_lower (b : UInt8) : lower (lower b) = lower b := by
  rw [← UInt8.toNat_inj, toNat_lower (lower b)]
  refine if_neg ?_
  rw [toNat_lower]
  split <;> omega

@[simp] theorem isLetter_lower (b : UInt8) : isLetter (lower b) = isLetter b := by
  rw [Bool.eq_iff_iff, isLetter_iff, isLetter_iff, toNat_lower]
  split <;> omega

@[simp] theorem isDigit_lower (b : UInt8) : isDigit (lower b) = isDigit b := by
  rw [Bool.eq_iff_iff, isDigit_iff, isDigit_iff, toNat_lower]
  split <;> omega

@[simp] theorem isBlank_lower (b : UInt8) : isBlank (lower b) = isBlank b := by
  rw [Bool.eq_iff_iff, isBlank_iff, isBlank_iff, toNat_lower]
  split <;> omega

/-- A byte that is no letter is found at the same places. -/
theorem lower_eq_iff {c : UInt8} (hc : isLetter c = false) (b : UInt8) :
    lower b = c ↔ b = c := by
  rw [Bool.eq_false_iff, ne_eq, isLetter_iff] at hc
  rw [← UInt8.toNat_inj, ← UInt8.toNat_inj, toNat_lower]
  split <;> omega

/-- A letter is found at the same places if both its cases are looked for. -/
theorem lower_eq_or_iff {small capital : UInt8} (hcapital : 65 ≤ capital ∧ capital ≤ 90)
    (hsmall : lower capital = small) (b : UInt8) :
    lower b = small ∨ lower b = capital ↔ b = small ∨ b = capital := by
  have hrange : 65 ≤ capital.toNat ∧ capital.toNat ≤ 90 := hcapital
  rw [← hsmall]
  simp only [← UInt8.toNat_inj, toNat_lower, if_pos hrange]
  split <;> omega

theorem lower_beq_score (b : UInt8) : (lower b == 95) = (b == 95) := by
  rw [Bool.eq_iff_iff, beq_iff_eq, beq_iff_eq]
  exact lower_eq_iff (by decide) b

@[simp] theorem isWordByte_lower (b : UInt8) : isWordByte (lower b) = isWordByte b := by
  rw [isWordByte, isLetter_lower, isDigit_lower, lower_beq_score, isWordByte]

theorem lower_of_not_isLetter {b : UInt8} (h : isLetter b = false) : lower b = b :=
  (lower_eq_iff h b).mpr rfl

theorem isIdentifier_map_lower (text : Bytes) :
    isIdentifier (text.map lower) = isIdentifier text := by
  cases text with
  | nil => rfl
  | cons first rest => simp [isIdentifier, lower_beq_score, Function.comp_def]

end Ascii

/-! ### Literals -/

namespace Literal

open Ascii

theorem digit?_lower (base : Nat) (b : UInt8) : digit? base (lower b) = digit? base b := by
  rw [digit?, isDigit_lower, isLetter_lower, lower_lower, digit?]
  by_cases hdigit : isDigit b = true
  · have hletter : isLetter b = false := by
      rw [isDigit_iff] at hdigit
      rw [Bool.eq_false_iff, ne_eq, isLetter_iff]
      omega
    rw [lower_of_not_isLetter hletter]
  · simp [hdigit]

theorem magnitude?_map_lower (base : Nat) (digits : Bytes) :
    magnitude? base (digits.map lower) = magnitude? base digits := by
  simp only [magnitude?, magnitudeFrom?, List.foldlM_map, digit?_lower, List.map_eq_nil_iff]

theorem lower_eq_minus_iff (b : UInt8) : lower b = minus ↔ b = minus :=
  lower_eq_iff (by decide) b

theorem body?_map_lower (base : Nat) (text : Bytes) :
    body? base (text.map lower) = body? base text := by
  cases text with
  | nil => rfl
  | cons first rest =>
    have hall := magnitude?_map_lower base (first :: rest)
    rw [List.map_cons] at hall
    simp only [body?, List.map_cons, lower_eq_minus_iff, magnitude?_map_lower, hall]

theorem hexadecimal?_map_lower (text : Bytes) :
    hexadecimal? (text.map lower) = (hexadecimal? text).map (List.map lower) := by
  match text with
  | [] | [_] | [_, _] => rfl
  | zero :: x :: first :: rest =>
    have hzero : lower zero = 48 ↔ zero = 48 := lower_eq_iff (by decide) zero
    have hx : lower x = 120 ∨ lower x = 88 ↔ x = 120 ∨ x = 88 :=
      lower_eq_or_iff (by decide) (by decide) x
    simp only [List.map_cons, hexadecimal?, hzero, hx]
    split <;> rfl

/-- **A literal has the same value in either case.** -/
theorem value?_map_lower (text : Bytes) : value? (text.map lower) = value? text := by
  cases text with
  | nil => rfl
  | cons first rest =>
    have hhead : (rest.map lower).head? = some minus ↔ rest.head? = some minus := by
      cases rest with
      | nil => simp
      | cons b rest => simp [lower_eq_minus_iff]
    have hhex := hexadecimal?_map_lower (first :: rest)
    have hbody := body?_map_lower 10 (first :: rest)
    rw [List.map_cons] at hhex hbody
    simp only [value?, List.map_cons, lower_eq_minus_iff, hhead, hexadecimal?_map_lower, hhex,
      Option.isSome_map, body?_map_lower, hbody]
    cases hexadecimal? (first :: rest) with
    | none => rfl
    | some digits => simp only [Option.map_some, body?_map_lower]

end Literal

/-! ### Mnemonics and operands -/

theorem Operation.ofMnemonic?_map_lower (text : Bytes) :
    ofMnemonic? (text.map Ascii.lower) = ofMnemonic? text := by
  simp [ofMnemonic?, Function.comp_def]

namespace Operand

open Ascii Literal

/-- A register is read in the same way in either case; only what an error shows is different. -/
theorem toOption_ofRegisterToken_map_lower (text : Bytes) (column : UInt32) :
    (ofRegisterToken { text := text.map lower, column }).toOption =
      (ofRegisterToken { text, column }).toOption := by
  match text with
  | [] | [_] => rfl
  | r :: digit :: rest =>
    have hr : lower r = 114 ∨ lower r = 82 ↔ r = 114 ∨ r = 82 :=
      lower_eq_or_iff (by decide) (by decide) r
    have hvalue := value?_map_lower (digit :: rest)
    have hplain : ∀ b, (lower b == 120 || lower b == 88 || lower b == minus) =
        (b == 120 || b == 88 || b == minus) := by
      intro b
      have hx : lower b = 120 ∨ lower b = 88 ↔ b = 120 ∨ b = 88 :=
        lower_eq_or_iff (by decide) (by decide) b
      rw [Bool.eq_iff_iff]
      simp only [Bool.or_eq_true, beq_iff_eq, hx, lower_eq_minus_iff]
    rw [List.map_cons] at hvalue
    simp only [ofRegisterToken, List.map_cons, hr, isDigit_lower, hvalue, List.any_cons,
      List.any_map, Function.comp_def, hplain]
    split
    · cases value? (digit :: rest) with
      | none => rfl
      | some index =>
        simp only
        split
        · rfl
        · split <;> rfl
    · rfl

theorem toOption_ofImmediateToken_map_lower (text : Bytes) (column : UInt32) :
    (ofImmediateToken { text := text.map lower, column }).toOption =
      (ofImmediateToken { text, column }).toOption := by
  simp only [ofImmediateToken, value?_map_lower]
  cases value? text with
  | none => rfl
  | some value =>
    simp only
    split <;> rfl

theorem toOption_ofTargetToken_map_lower {text : Bytes} (h : isIdentifier text = false)
    (column : UInt32) :
    (ofTargetToken { text := text.map lower, column }).toOption =
      (ofTargetToken { text, column }).toOption := by
  simp only [ofTargetToken, isIdentifier_map_lower, h, value?_map_lower, Bool.false_eq_true,
    if_false]
  cases value? text with
  | none => rfl
  | some value =>
    simp only
    split <;> rfl

/-- An operand is read in the same way in either case, but for the name of a label. -/
theorem toOption_ofToken_map_lower {shape : Shape} {text : Bytes}
    (h : shape = .target → isIdentifier text = false) (column : UInt32) :
    (ofToken shape { text := text.map lower, column }).toOption =
      (ofToken shape { text, column }).toOption := by
  cases shape with
  | register => exact toOption_ofRegisterToken_map_lower text column
  | immediate => exact toOption_ofImmediateToken_map_lower text column
  | target => exact toOption_ofTargetToken_map_lower (h rfl) column
  | nothing | unknown => rfl

end Operand

/-! ### Texts in another case -/

namespace Ascii

/-- The texts are the same but for the case of letters. -/
def Recased (text other : Bytes) : Prop := text.map lower = other.map lower

instance : DecidableRel Recased := fun text other =>
  inferInstanceAs (Decidable (text.map lower = other.map lower))

namespace Recased

variable {text other : Bytes}

theorem refl (text : Bytes) : Recased text text := rfl

theorem append {more others : Bytes} (h : Recased text other) (hmore : Recased more others) :
    Recased (text ++ more) (other ++ others) := by
  rw [Recased, List.map_append, List.map_append, h, hmore]

theorem length_eq (h : Recased text other) : other.length = text.length := by
  rw [← List.length_map lower, ← h, List.length_map]

/-- What is the same for the text in small letters is the same in any case. -/
theorem congr {α : Type} {f : Bytes → α} (hf : ∀ text, f (text.map lower) = f text)
    (h : Recased text other) : f other = f text := by
  rw [← hf other, ← h, hf text]

theorem isIdentifier_eq (h : Recased text other) : isIdentifier other = isIdentifier text :=
  h.congr isIdentifier_map_lower

theorem forall_mem_iff {p : UInt8 → Prop} (hp : ∀ b, p (lower b) ↔ p b) (h : Recased text other) :
    (∀ b ∈ other, p b) ↔ ∀ b ∈ text, p b := by
  have hlower (text : Bytes) : (∀ b ∈ text.map lower, p b) = ∀ b ∈ text, p b := by
    simp only [List.forall_mem_map, hp]
  exact iff_of_eq (h.congr (f := fun text => ∀ b ∈ text, p b) hlower)

theorem not_mem_iff {c : UInt8} (hc : isLetter c = false) (h : Recased text other) :
    c ∉ other ↔ c ∉ text := by
  have hne (text : Bytes) : c ∉ text ↔ ∀ b ∈ text, b ≠ c := by
    rw [List.forall_mem_ne']
  rw [hne, hne]
  exact h.forall_mem_iff fun b => not_congr (lower_eq_iff hc b)

theorem ne_nil (h : Recased text other) (hne : text ≠ []) : other ≠ [] := by
  rw [← List.length_pos_iff] at hne ⊢
  rwa [h.length_eq]

theorem trimmed (h : Recased text other) (htrimmed : Trimmed text) : Trimmed other := by
  have hlower (text : Bytes) : Trimmed (text.map lower) = Trimmed text := by
    simp [Trimmed, List.head?_map, List.getLast?_map]
  rwa [h.congr hlower]

end Recased
end Ascii

namespace Operand

open Ascii

/-- Only the name of a label is not read in the same way in another case. -/
theorem ofToken_of_recased {shape : Shape} {text other : Bytes} (h : Recased text other)
    (hlabel : shape = .target → isIdentifier text = true → other = text) {column : UInt32}
    {o : Operand} (hread : ofToken shape { text, column } = .ok o) :
    ofToken shape { text := other, column } = .ok o := by
  by_cases hname : shape = .target ∧ isIdentifier text = true
  · rwa [hlabel hname.1 hname.2]
  · have htext : shape = .target → isIdentifier text = false := fun hshape =>
      Bool.eq_false_iff.mpr fun hidentifier => hname ⟨hshape, hidentifier⟩
    have hother : shape = .target → isIdentifier other = false := fun hshape => by
      rw [h.isIdentifier_eq, htext hshape]
    have heq := toOption_ofToken_map_lower hother column
    rw [← h, toOption_ofToken_map_lower htext, hread] at heq
    cases hresult : ofToken shape { text := other, column } with
    | ok result =>
      rw [hresult] at heq
      rw [Option.some.inj heq]
    | error fault =>
      rw [hresult] at heq
      cases heq

end Operand

/-- The tokens stand at the same place and differ in the case of letters at most; what is a name
does not differ. -/
structure Token.Recased (isName : Bytes → Bool) (t u : Token) : Prop where
  column : u.column = t.column
  text : Ascii.Recased t.text u.text
  name : isName t.text = true → u.text = t.text

theorem Operand.ofTokens_of_recased {isName : Bytes → Bool} : ∀ {shapes : List Shape}
    {tokens others : List Token} {os : List Operand},
    (∀ text, .target ∈ shapes → Ascii.isIdentifier text = true → isName text = true) →
    List.Forall₂ (Token.Recased isName) tokens others → ofTokens shapes tokens = .ok os →
    ofTokens shapes others = .ok os
  | [], _, _, _, _, .nil, hread => hread
  | [], _, _, _, _, .cons _ _, hread => hread
  | _ :: _, _, _, _, _, .nil, hread => hread
  | shape :: shapes, t :: tokens, u :: others, os, hname, .cons htoken hrest, hread => by
    obtain ⟨text, column⟩ := t
    obtain ⟨other, _⟩ := u
    obtain ⟨rfl, htext, hkept⟩ := htoken
    rw [ofTokens] at hread
    split at hread
    · cases hread
    · rename_i o ho
      obtain ⟨rest, hlater, rfl⟩ := map_eq_ok_iff.mp hread
      have hlabel (hshape : shape = .target) (hidentifier : Ascii.isIdentifier text = true) :
          other = text := hkept (hname text (hshape ▸ List.mem_cons_self) hidentifier)
      have hothers := ofTokens_of_recased
        (fun name hmem => hname name (List.mem_cons_of_mem _ hmem)) hrest hlater
      rw [ofTokens, ofToken_of_recased htext hlabel ho, hothers]
      rfl

/-! ### Lines in another case -/

open Ascii LineTokens

theorem LineTokens.withoutComment_append_iff {text behind : Bytes} :
    withoutComment (text ++ behind) = text ↔
      semicolon ∉ text ∧ ∀ b ∈ behind.head?, b = semicolon := by
  constructor
  · intro h
    obtain ⟨comment, hcut, hcomment⟩ := exists_append_withoutComment (text ++ behind)
    rw [h] at hcut
    refine ⟨fun hmem => ?_, List.append_cancel_left hcut ▸ hcomment⟩
    rw [← h] at hmem
    have hne := List.mem_takeWhile_imp hmem
    simp at hne
  · rintro ⟨htext, hbehind⟩
    cases behind with
    | nil => rw [List.append_nil, withoutComment_of_not_mem htext]
    | cons b comment =>
      obtain rfl := hbehind b rfl
      rw [withoutComment, List.takeWhile_append_of_pos (ne_semicolon_of_not_mem htext),
        List.takeWhile_cons_of_neg (by simp), List.append_nil]

/-- What is read from a line, by the parts of its form. -/
theorem Statement.ofLine_of_form (location : Location) {line : Bytes} {f : LineForm}
    (hf : f.WellFormed) (hline : f.bytes = withoutComment line) :
    ofLine location line =
      let labels := (f.label.map fun l =>
        define l.name (location.atColumn (Token.atOffset f.lead.length l.name).column)).toList
      f.instruction.elim (.ok labels) fun i =>
        (ofMnemonic location (.atOffset f.front.length i.mnemonic)
          (Slot.tokens (f.front.length + i.mnemonic.length) i.operands)).map (labels ++ [·]) := by
  rw [ofLine, LineTokens.ofLine_of_form hf hline]
  obtain ⟨lead, label, instruction, trail⟩ := f
  cases label <;> cases instruction <;> rfl

/-- The operand is in another case, unless it is a name, and the blanks around it are the same. -/
structure Slot.Recased (isName : Bytes → Bool) (s t : Slot) : Prop where
  before : t.before = s.before
  text : Ascii.Recased s.text t.text
  after : t.after = s.after
  name : isName s.text = true → t.text = s.text

namespace Slot

variable {isName : Bytes → Bool}

theorem Recased.bytes {s t : Slot} (h : s.Recased isName t) : Ascii.Recased s.bytes t.bytes := by
  rw [Slot.bytes, Slot.bytes, h.before, h.after]
  exact ((Ascii.Recased.refl _).append h.text).append (Ascii.Recased.refl _)

theorem Recased.wellFormed {s t : Slot} (h : s.Recased isName t) (hs : s.WellFormed) :
    t.WellFormed where
  before := h.before ▸ hs.before
  after := h.after ▸ hs.after
  text_ne_nil := h.text.ne_nil hs.text_ne_nil
  trimmed := h.text.trimmed hs.trimmed
  comma_not_mem := (h.text.not_mem_iff (by decide)).mpr hs.comma_not_mem

theorem recased_joined : ∀ {slots others : List Slot}, List.Forall₂ (Recased isName) slots others →
    Ascii.Recased (joined slots) (joined others)
  | _, _, .nil => Ascii.Recased.refl _
  | [s], [t], .cons h .nil => by
    rw [joined_singleton, joined_singleton]
    exact h.bytes
  | s :: s' :: slots, t :: t' :: others, .cons h hrest => by
    rw [joined_cons (List.cons_ne_nil _ _), joined_cons (List.cons_ne_nil _ _)]
    exact h.bytes.append ((Ascii.Recased.refl [comma]).append (recased_joined hrest))

theorem recased_tokens {slots others : List Slot}
    (h : List.Forall₂ (Recased isName) slots others) (offset : Nat) :
    List.Forall₂ (Token.Recased isName) (tokens offset slots) (tokens offset others) := by
  induction h generalizing offset with
  | nil => exact .nil
  | cons h _ ih =>
    rw [tokens, tokens, h.bytes.length_eq, h.before]
    exact .cons ⟨rfl, h.text, h.name⟩ (ih _)

theorem gap_of_recased {slots others : List Slot}
    (h : List.Forall₂ (Recased isName) slots others) (hgap : ∀ s ∈ slots.head?, s.before ≠ []) :
    ∀ t ∈ others.head?, t.before ≠ [] := by
  cases h with
  | nil => exact hgap
  | cons h _ =>
    rintro _ ⟨⟩
    rw [h.before]
    exact hgap _ rfl

end Slot

/-- As an operand of the instruction, the text is the name of a label: an identifier behind the
mnemonic of a branch. -/
def InstructionForm.isLabelName (i : InstructionForm) (text : Bytes) : Bool :=
  isIdentifier text && (Operation.ofMnemonic? i.mnemonic).any Operation.isBranch

/-- The mnemonic and the operands are in another case, except the name of a label. -/
structure InstructionForm.Recased (i j : InstructionForm) : Prop where
  mnemonic : Ascii.Recased i.mnemonic j.mnemonic
  operands : List.Forall₂ (Slot.Recased i.isLabelName) i.operands j.operands

namespace InstructionForm.Recased

variable {i j : InstructionForm} (h : i.Recased j)
include h

theorem bytes : Ascii.Recased i.bytes j.bytes :=
  h.mnemonic.append (Slot.recased_joined h.operands)

theorem wellFormed (hi : i.WellFormed) : j.WellFormed where
  mnemonic_ne_nil := h.mnemonic.ne_nil hi.mnemonic_ne_nil
  mnemonic := by
    refine (h.mnemonic.forall_mem_iff fun b => ?_).mpr hi.mnemonic
    rw [isBlank_lower, ne_eq, lower_eq_iff (by decide)]
  operands := fun t ht => by
    obtain ⟨s, hs, hst⟩ := exists_left_of_forall₂ h.operands t ht
    exact hst.wellFormed (hi.operands s hs)
  gap := Slot.gap_of_recased h.operands hi.gap

theorem ofMnemonic {location : Location} {offset : Nat} {s : Statement}
    (hread : Statement.ofMnemonic location (.atOffset offset i.mnemonic)
      (Slot.tokens (offset + i.mnemonic.length) i.operands) = .ok s) :
    Statement.ofMnemonic location (.atOffset offset j.mnemonic)
      (Slot.tokens (offset + j.mnemonic.length) j.operands) = .ok s := by
  have htokens := Slot.recased_tokens h.operands (offset + i.mnemonic.length)
  have hoperation := h.mnemonic.congr Operation.ofMnemonic?_map_lower
  unfold Statement.ofMnemonic at hread
  split at hread
  · cases hread
  · rename_i operation hsome
    obtain ⟨hlength, hread⟩ := guard_eq_ok_iff.mp hread
    obtain ⟨os, hos, rfl⟩ := map_eq_ok_iff.mp hread
    have hsome : Operation.ofMnemonic? i.mnemonic = some operation := hsome
    have hname (text : Bytes) (htarget : .target ∈ operation.shapes)
        (hidentifier : isIdentifier text = true) : i.isLabelName text = true := by
      rw [isLabelName, hidentifier, hsome]
      exact List.contains_iff_mem.mpr htarget
    have hothers := Operand.ofTokens_of_recased hname htokens hos
    unfold Statement.ofMnemonic
    rw [h.mnemonic.length_eq]
    simp only [Token.atOffset] at hoperation ⊢
    rw [hoperation, hsome]
    simp only
    rw [if_neg (by rwa [← htokens.length_eq]), hothers]
    rfl

end InstructionForm.Recased

/-- The instruction of the line is in another case, and nothing else is. -/
structure LineForm.Recased (f g : LineForm) : Prop where
  lead : g.lead = f.lead
  label : g.label = f.label
  instruction : Option.Rel InstructionForm.Recased f.instruction g.instruction
  trail : g.trail = f.trail

namespace LineForm.Recased

variable {f g : LineForm} (h : f.Recased g)
include h

theorem front_eq : g.front = f.front := by
  rw [front, h.lead, h.label, front]

theorem exists_instruction {j : InstructionForm} (hj : j ∈ g.instruction) :
    ∃ i ∈ f.instruction, i.Recased j := by
  have hrel := h.instruction
  rw [Option.mem_def.mp hj] at hrel
  cases hi : f.instruction with
  | none =>
    rw [hi] at hrel
    cases hrel
  | some i =>
    rw [hi] at hrel
    cases hrel with
    | some hij => exact ⟨i, rfl, hij⟩

theorem bytes : Ascii.Recased f.bytes g.bytes := by
  have hrel := h.instruction
  rw [LineForm.bytes, LineForm.bytes, h.front_eq, h.trail]
  generalize f.instruction = instruction, g.instruction = other at hrel ⊢
  refine ((Ascii.Recased.refl _).append ?_).append (Ascii.Recased.refl _)
  cases hrel with
  | some hij => exact hij.bytes
  | none => exact Ascii.Recased.refl _

theorem wellFormed (hf : f.WellFormed) : g.WellFormed where
  lead := h.lead ▸ hf.lead
  label := h.label ▸ hf.label
  trail := h.trail ▸ hf.trail
  instruction := fun j hj => by
    obtain ⟨i, hi, hij⟩ := h.exists_instruction hj
    exact hij.wellFormed (hf.instruction i hi)
  colon_not_mem := fun hnone j hj => by
    obtain ⟨i, hi, hij⟩ := h.exists_instruction hj
    exact (hij.mnemonic.not_mem_iff (by decide)).mpr (hf.colon_not_mem (h.label ▸ hnone) i hi)

/-- **A line is read in the same way in another case.** -/
theorem ofLine {location : Location} {behind : Bytes} {statements : List Statement}
    (hf : f.WellFormed) (hbytes : withoutComment (f.bytes ++ behind) = f.bytes)
    (hread : Statement.ofLine location (f.bytes ++ behind) = .ok statements) :
    Statement.ofLine location (g.bytes ++ behind) = .ok statements := by
  obtain ⟨hsemicolon, hbehind⟩ := withoutComment_append_iff.mp hbytes
  have hother : withoutComment (g.bytes ++ behind) = g.bytes :=
    withoutComment_append_iff.mpr ⟨(h.bytes.not_mem_iff (by decide)).mpr hsemicolon, hbehind⟩
  have hrel := h.instruction
  rw [Statement.ofLine_of_form location hf hbytes.symm] at hread
  rw [Statement.ofLine_of_form location (h.wellFormed hf) hother.symm, h.label, h.lead, h.front_eq]
  generalize f.instruction = instruction, g.instruction = other at hrel hread ⊢
  cases hrel with
  | none => exact hread
  | some hij =>
    obtain ⟨s, hs, rfl⟩ := map_eq_ok_iff.mp hread
    exact map_eq_ok_iff.mpr ⟨s, hij.ofMnemonic hs, rfl⟩

end LineForm.Recased

/-! ### Labels are told apart by every byte -/

namespace Program

/-- A label is a duplicate if two statements define exactly this name. -/
theorem exists_definitions_of_duplicate {program : Program} {name : Bytes} {location : Location}
    (h : program.strip = .error { error := .duplicate name, location }) :
    ∃ before s between t after, program = before ++ s :: (between ++ t :: after) ∧
      s.defines name = true ∧ t.defines name = true ∧ t.location = location := by
  obtain ⟨front, t, after, rfl, -, herror, hlocation⟩ := strip_eq_error_iff.mp h
  simp only [stripError?] at herror
  split at herror
  · split at herror <;> cases herror
  · rename_i hdefinition
    obtain ⟨hmem, herror⟩ := Option.ite_none_right_eq_some.mp herror
    cases herror
    obtain ⟨s, hs, hdefines⟩ := mem_definedNames_iff.mp hmem
    obtain ⟨before, between, rfl⟩ := List.append_of_mem hs
    refine ⟨before, s, between, t, after, by simp, hdefines, ?_, hlocation.symm⟩
    exact Statement.defines_iff.mpr ⟨Bool.eq_false_iff.mpr hdefinition, rfl⟩

section

variable {program : Program} (h : program.Strippable)
include h

/-- A label is undefined if no statement defines exactly this name. -/
theorem not_defines_of_undefined {name : Bytes} {location : Location}
    (herror : program.instructions.resolve program.symbols =
      .error { error := .undefined name, location }) :
    ∀ s ∈ program, s.defines name = false := by
  obtain ⟨_, _, _, _, other, _, -, -, -, -, hname, -⟩ := (resolve_symbols_eq_error_iff h).mp herror
  intro s hs
  rw [referenceError?] at hname
  split at hname
  · rename_i hmem
    cases hname
    exact Bool.eq_false_iff.mpr fun hdefines => hmem (mem_definedNames_iff.mpr ⟨s, hs, hdefines⟩)
  · split at hname <;> cases hname

/-- A label is replaced by the address of a definition of exactly its name. -/
theorem exists_definition_of_resolve {linked : Program}
    (hlinked : program.instructions.resolve program.symbols = .ok linked) {k i : Nat}
    {s t : Statement} (hs : program.instructions[k]? = some s) (ht : linked[k]? = some t)
    {name : Bytes} (hname : s.operands[i]? = some (.label name)) :
    ∃ (before : Program) (d : Statement) (after : Program) (address : UInt16),
      program = before ++ d :: after ∧ d.defines name = true ∧
      t.operands[i]? = some (.address address) ∧ address.toNat = before.instructions.length := by
  obtain ⟨hgood, rfl⟩ := (resolve_symbols_eq_ok_iff h).mp hlinked
  rw [List.getElem?_map, hs] at ht
  cases ht
  have hrefers : program.Refers name := ⟨s, List.mem_of_getElem? hs, List.mem_of_getElem? hname⟩
  obtain ⟨hmem, -⟩ := referenceError?_eq_none_iff.mp (hgood name hrefers)
  obtain ⟨d, hd, hdefines⟩ := mem_definedNames_iff.mp hmem
  obtain ⟨before, after, rfl⟩ := List.append_of_mem hd
  obtain ⟨address, -, haddress⟩ := h.exists_address hdefines
  refine ⟨before, d, after, address, rfl, hdefines, ?_, haddress⟩
  rw [Statement.linked, List.getElem?_map, hname, Option.map_some, Operand.linked,
    h.addressOf_eq hdefines, ← haddress]
  exact congrArg (some ∘ Operand.address) UInt16.ofNat_toNat

end

/-- **The case of letters counts in the names of labels and nowhere else.** A line that is read is
read to the same statements, at the same places, in any other case of its mnemonic and of the
operands that name no label. A label is a duplicate only of one with exactly its name, and undefined
only if no label has exactly its name; what is put in its place is the address of the label with
exactly its name. -/
theorem folds_case_but_in_labels :
    (∀ (location : Location) (line : Bytes) (statements : List Statement),
      Statement.ofLine location line = .ok statements →
        (∃ f : LineForm, f.WellFormed ∧ f.bytes = withoutComment line) ∧
        ∀ (f g : LineForm) (behind : Bytes), f.WellFormed → f.bytes = withoutComment line →
          line = f.bytes ++ behind → f.Recased g →
          Statement.ofLine location (g.bytes ++ behind) = .ok statements) ∧
    ∀ program : Program,
      (∀ name location, program.strip = .error { error := .duplicate name, location } →
        ∃ before s between t after, program = before ++ s :: (between ++ t :: after) ∧
          s.defines name = true ∧ t.defines name = true ∧ t.location = location) ∧
      ∀ stripped, program.strip = .ok stripped →
        (∀ (before : Program) (s : Statement) (after : Program) (name : Bytes),
          program = before ++ s :: after → s.defines name = true →
            ∃ address, stripped.symbols.address? name = some address ∧
              address.toNat = before.instructions.length) ∧
        (∀ name location, stripped.program.resolve stripped.symbols =
            .error { error := .undefined name, location } →
          ∀ s ∈ program, s.defines name = false) ∧
        ∀ linked, stripped.program.resolve stripped.symbols = .ok linked →
          ∀ (k i : Nat) (s t : Statement) (name : Bytes), stripped.program[k]? = some s →
            linked[k]? = some t → s.operands[i]? = some (.label name) →
            ∃ (before : Program) (d : Statement) (after : Program) (address : UInt16),
              program = before ++ d :: after ∧ d.defines name = true ∧
              t.operands[i]? = some (.address address) ∧
              address.toNat = before.instructions.length := by
  refine ⟨fun location line statements hread => ⟨?_, ?_⟩, fun program => ⟨?_, ?_⟩⟩
  · obtain ⟨tokens, htokens, -⟩ := Statement.exists_of_ofLine hread
    obtain ⟨f, hf, hbytes, -⟩ := exists_form_of_ofLine htokens
    exact ⟨f, hf, hbytes⟩
  · intro f g behind hf hbytes hline hrecased
    subst hline
    exact hrecased.ofLine hf hbytes.symm hread
  · exact fun name location => exists_definitions_of_duplicate
  · intro stripped hstrip
    obtain ⟨hstrippable, rfl⟩ := strip_eq_ok_iff.mp hstrip
    refine ⟨?_, fun name location => not_defines_of_undefined hstrippable, ?_⟩
    · rintro before s after name rfl hs
      exact hstrippable.exists_address hs
    · intro linked hlinked k i s t name hs ht hname
      exact exists_definition_of_resolve hstrippable hlinked hs ht hname

/-- A line in two cases, and labels that differ in the case of a letter: both are defined, defined
twice, and one of them is missing. -/
theorem folds_case_but_in_labels_of_loops :
    let line := ascii "Loop:\tADDI R1, r2, 0XfF ; Loop"
    let other := ascii "Loop:\taddi r1, R2, 0xFf ; Loop"
    let small := ascii "loop"
    let capital := ascii "Loop"
    let jump (name : Bytes) : Statement := { operation := .jmp, operands := [.label name] }
    let both : Program := [.define small, jump capital, .define capital, jump small]
    let stripped : Stripped :=
      { program := [jump capital, jump small], symbols := [(small, 0), (capital, 1)] }
    let linked : Program :=
      [{ operation := .jmp, operands := [.address 1] },
        { operation := .jmp, operands := [.address 0] }]
    let twice : Program := [.define small, .define capital, .define small]
    let missing : Program := [.define small, jump capital]
    (∃ statements, Statement.ofLine {} line = .ok statements ∧
      Statement.ofLine {} other = .ok statements) ∧
    (both.strip = .ok stripped ∧ stripped.program.resolve stripped.symbols = .ok linked ∧
      ∃ (before : Program) (d : Statement) (after : Program) (address : UInt16),
        both = before ++ d :: after ∧ d.defines capital = true ∧
        some (Operand.address 1) = some (.address address) ∧
        address.toNat = before.instructions.length) ∧
    (twice.strip = .error { error := .duplicate small, location := {} } ∧
      ∃ before s between t after, twice = before ++ s :: (between ++ t :: after) ∧
        s.defines small = true ∧ t.defines small = true ∧ t.location = ({} : Location)) ∧
    ∀ s ∈ missing, s.defines capital = false := by
  intro line other small capital jump both stripped linked twice missing
  let form (mnemonic r s immediate : String) : LineForm :=
    { label := some { name := capital, gap := ascii "\t" }
      instruction := some
        { mnemonic := ascii mnemonic
          operands := [{ before := ascii " ", text := ascii r },
            { before := ascii " ", text := ascii s },
            { before := ascii " ", text := ascii immediate, after := ascii " " }] } }
  let f := form "ADDI" "R1" "r2" "0XfF"
  let g := form "addi" "r1" "R2" "0xFf"
  let read : List Statement :=
    [.define capital { column := 1 },
      { operation := .addi, operands := [.register 1, .register 2, .immediate 255],
        location := { column := 7 } }]
  have hrecased : f.Recased g :=
    ⟨rfl, rfl, .some ⟨by decide, .cons ⟨rfl, by decide, rfl, by decide⟩
      (.cons ⟨rfl, by decide, rfl, by decide⟩
        (.cons ⟨rfl, by decide, rfl, by decide⟩ .nil))⟩, rfl⟩
  have hread : Statement.ofLine {} line = .ok read := by decide
  have hboth : both.strip = .ok stripped := by decide
  have hlinked : stripped.program.resolve stripped.symbols = .ok linked := by decide
  have htwice : twice.strip = .error { error := .duplicate small, location := {} } := by decide
  have hmissing : missing.strip = .ok { program := [jump capital], symbols := [(small, 0)] } := by
    decide
  obtain ⟨hlines, hprograms⟩ := folds_case_but_in_labels
  refine ⟨⟨read, hread, (hlines {} line read hread).2 f g (ascii "; Loop") (by decide) (by decide)
    (by decide) hrecased⟩, ⟨hboth, hlinked, ?_⟩, ⟨htwice, (hprograms twice).1 _ _ htwice⟩, ?_⟩
  · obtain ⟨-, -, hresolve⟩ := (hprograms both).2 stripped hboth
    exact hresolve linked hlinked 0 0 (jump capital) _ capital rfl rfl rfl
  · obtain ⟨-, hundefined, -⟩ := (hprograms missing).2 _ hmissing
    exact hundefined capital {} (by decide)

end Program
end RegisterMachine
