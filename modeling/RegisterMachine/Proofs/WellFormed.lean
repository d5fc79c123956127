/-
# Well-formed statements

A statement is well formed if it defines an identifier, or if its operands fill
the places of its operation: as many of them as there are shapes, each of the
kind that its place takes and in the range of that kind. Reading produces
nothing else, and everything that is well formed can be written and read back.

A well-formed statement that names no label means an `Instruction` of which the
immediate fits into 8 bits and the target into 12 (`Instruction.Fits`), and
every such instruction is meant by a well-formed statement. A program that
`Means` a list of such instructions is one that can be encoded and run: this is
what both ways of loading a program establish.

Key definitions: `Operand.InRange`, `Shape.Takes`, `Statement.WellFormed`,
`Instruction.Fits`, `Statement.Means`, `Program.Means`.
Key theorems: `Instruction.wellFormed_statement`,
`Statement.WellFormed.exists_means`, `Program.exists_means`.
-/
import RegisterMachine.Assembly.Instruction
import RegisterMachine.Proofs.Pointwise

namespace RegisterMachine

/-- The operand is in the range of its kind; of a label it is asked to be an identifier. -/
def Operand.InRange : Operand → Prop
  | register index => index < registerCount
  | immediate value => value ≤ maxImmediate
  | address value => value ≤ maxAddress
  | label name => Ascii.isIdentifier name = true

instance : DecidablePred Operand.InRange
  | .register _ => inferInstanceAs (Decidable (_ < _))
  | .immediate _ => inferInstanceAs (Decidable (_ ≤ _))
  | .address _ => inferInstanceAs (Decidable (_ ≤ _))
  | .label _ => inferInstanceAs (Decidable (_ = _))

/-- The operand can fill a place of this shape. -/
def Shape.Takes (shape : Shape) (o : Operand) : Prop := shape.admits o = true ∧ o.InRange

instance (shape : Shape) (o : Operand) : Decidable (shape.Takes o) :=
  inferInstanceAs (Decidable (_ ∧ _))

/-- What reading produces: the definition of an identifier, or an operation with operands that fill
its places. -/
inductive Statement.WellFormed : Statement → Prop
  | definition {name : Bytes} (location : Location) (hname : Ascii.isIdentifier name = true) :
    WellFormed (.define name location)
  | instruction {operation : Operation} {operands : List Operand} (location : Location)
    (hop : operation ≠ .label) (hoperands : List.Forall₂ Shape.Takes operation.shapes operands) :
    WellFormed { operation, operands, location }

/-- Well-formed statements, told by their parts. -/
theorem Statement.wellFormed_iff (s : Statement) : s.WellFormed ↔
    (s.operation = .label ∧ s.operands = [] ∧ Ascii.isIdentifier s.label = true) ∨
      (s.operation ≠ .label ∧ s.label = [] ∧
        List.Forall₂ Shape.Takes s.operation.shapes s.operands) := by
  constructor
  · rintro (⟨location, hname⟩ | ⟨location, hop, hoperands⟩)
    · exact Or.inl ⟨rfl, rfl, hname⟩
    · exact Or.inr ⟨hop, rfl, hoperands⟩
  · obtain ⟨operation, operands, label, location⟩ := s
    rintro (⟨rfl, rfl, hname⟩ | ⟨hop, rfl, hoperands⟩)
    · exact .definition location hname
    · exact .instruction location hop hoperands

instance : DecidablePred Statement.WellFormed := fun s => decidable_of_iff' _ s.wellFormed_iff

/-- The immediate fits into 8 bits and the target into 12. -/
def Instruction.Fits : Instruction → Prop
  | withImmediate _ _ _ value => value ≤ Operand.maxImmediate
  | branch _ target => target ≤ Operand.maxAddress
  | _ => True

instance : DecidablePred Instruction.Fits
  | .withImmediate _ _ _ _ | .branch _ _ => inferInstanceAs (Decidable (_ ≤ _))
  | .halt | .nop | .move _ _ | .complement _ _ | .binary _ _ _ _ => inferInstanceAs (Decidable True)

/-- The statement is this instruction, wherever it was read, and the instruction fits a word. -/
def Statement.Means (s : Statement) (i : Instruction) : Prop :=
  s.agrees i.statement = true ∧ i.Fits

/-- The statements of the program are these instructions. -/
abbrev Program.Means (program : Program) (instructions : List Instruction) : Prop :=
  List.Forall₂ Statement.Means program instructions

/-! ### The operands of a shape -/

namespace Shape

theorem takes_ofRegister (r : Register) : Takes .register (.ofRegister r) := by
  refine ⟨rfl, ?_⟩
  show r.val.toUInt16 < Operand.registerCount
  rw [UInt16.lt_iff_toNat_lt, r.toNat_toUInt16]
  exact r.isLt

theorem takes_immediate {value : UInt16} (h : value ≤ Operand.maxImmediate) :
    Takes .immediate (.immediate value) := ⟨rfl, h⟩

theorem takes_address {value : UInt16} (h : value ≤ Operand.maxAddress) :
    Takes .target (.address value) := ⟨rfl, h⟩

/-- The place of a register is filled by one of the sixteen. -/
theorem Takes.exists_register {o : Operand} (h : Takes .register o) :
    ∃ r : Register, o = .ofRegister r := by
  obtain ⟨hkind, hrange⟩ := h
  cases o with
  | register index =>
    have hlt : index.toNat < 16 := UInt16.lt_iff_toNat_lt.mp hrange
    refine ⟨⟨index.toNat, hlt⟩, ?_⟩
    simp [Operand.ofRegister]
  | immediate _ | address _ | label _ => cases hkind

theorem Takes.exists_immediate {o : Operand} (h : Takes .immediate o) :
    ∃ value ≤ Operand.maxImmediate, o = .immediate value := by
  obtain ⟨hkind, hrange⟩ := h
  cases o with
  | immediate value => exact ⟨value, hrange, rfl⟩
  | register _ | address _ | label _ => cases hkind

/-- The place of a target is filled by an address or by the name of a label. -/
theorem Takes.target_cases {o : Operand} (h : Takes .target o) :
    (∃ value ≤ Operand.maxAddress, o = .address value) ∨
      ∃ name, Ascii.isIdentifier name = true ∧ o = .label name := by
  obtain ⟨hkind, hrange⟩ := h
  cases o with
  | address value => exact Or.inl ⟨value, hrange, rfl⟩
  | label name => exact Or.inr ⟨name, hrange, rfl⟩
  | register _ | immediate _ => cases hkind

end Shape

/-! ### Statements that say the same -/

namespace Statement

theorem agrees_iff (a b : Statement) :
    a.agrees b = true ↔
      a.operation = b.operation ∧ a.operands = b.operands ∧ a.label = b.label := by
  simp [agrees, and_assoc]

@[simp] theorem agrees_refl (s : Statement) : s.agrees s = true := by simp [agrees]

theorem agrees_trans {a b c : Statement} (hab : a.agrees b = true) (hbc : b.agrees c = true) :
    a.agrees c = true := by
  rw [agrees_iff] at *
  exact ⟨hab.1.trans hbc.1, hab.2.1.trans hbc.2.1, hab.2.2.trans hbc.2.2⟩

/-- Which instruction a statement says does not depend on its place. -/
theorem instruction_eq_of_agrees {a b : Statement} (h : a.agrees b = true) :
    a.instruction = b.instruction := by
  obtain ⟨hop, hoperands, hlabel⟩ := (agrees_iff a b).mp h
  simp only [instruction, hop, hoperands, hlabel]

end Statement

/-! ### Well-formed statements and instructions -/

namespace Instruction

open Operand Shape

/-- The statement of an instruction is well formed if the instruction fits a word. -/
theorem wellFormed_statement {i : Instruction} (h : i.Fits) : i.statement.WellFormed := by
  cases i with
  | halt | nop => exact .instruction _ (by decide) .nil
  | move rd rs | complement rd rs =>
    exact .instruction _ (by decide)
      (.cons (takes_ofRegister rd) (.cons (takes_ofRegister rs) .nil))
  | binary f rd rs₁ rs₂ =>
    have hshapes : f.operation.shapes = [.register, .register, .register] := by cases f <;> rfl
    refine .instruction _ (by cases f <;> decide) ?_
    rw [hshapes]
    exact .cons (takes_ofRegister rd)
      (.cons (takes_ofRegister rs₁) (.cons (takes_ofRegister rs₂) .nil))
  | withImmediate f rd rs value =>
    have hshapes : f.operation.shapes = [.register, .register, .immediate] := by cases f <;> rfl
    refine .instruction _ (by cases f <;> decide) ?_
    rw [hshapes]
    exact .cons (takes_ofRegister rd) (.cons (takes_ofRegister rs) (.cons (takes_immediate h) .nil))
  | branch c target =>
    have hshapes : c.operation.shapes = [.target] := by cases c <;> rfl
    refine .instruction _ (by cases c <;> decide) ?_
    rw [hshapes]
    exact .cons (takes_address h) .nil

end Instruction

namespace Statement

open Operand Shape

theorem exists_operands_two {operands : List Operand}
    (h : List.Forall₂ Takes [.register, .register] operands) :
    ∃ rd rs : Register, operands = [.ofRegister rd, .ofRegister rs] := by
  obtain - | ⟨ha, h⟩ := h
  obtain - | ⟨hb, h⟩ := h
  cases h
  obtain ⟨rd, rfl⟩ := ha.exists_register
  obtain ⟨rs, rfl⟩ := hb.exists_register
  exact ⟨rd, rs, rfl⟩

theorem exists_operands_three {operands : List Operand}
    (h : List.Forall₂ Takes [.register, .register, .register] operands) :
    ∃ rd rs₁ rs₂ : Register, operands = [.ofRegister rd, .ofRegister rs₁, .ofRegister rs₂] := by
  obtain - | ⟨ha, h⟩ := h
  obtain ⟨rs₁, rs₂, rfl⟩ := exists_operands_two h
  obtain ⟨rd, rfl⟩ := ha.exists_register
  exact ⟨rd, rs₁, rs₂, rfl⟩

theorem exists_operands_immediate {operands : List Operand}
    (h : List.Forall₂ Takes [.register, .register, .immediate] operands) :
    ∃ (rd rs : Register) (value : UInt16), value ≤ maxImmediate ∧
      operands = [.ofRegister rd, .ofRegister rs, .immediate value] := by
  obtain - | ⟨ha, h⟩ := h
  obtain - | ⟨hb, h⟩ := h
  obtain - | ⟨hc, h⟩ := h
  cases h
  obtain ⟨rd, rfl⟩ := ha.exists_register
  obtain ⟨rs, rfl⟩ := hb.exists_register
  obtain ⟨value, hvalue, rfl⟩ := hc.exists_immediate
  exact ⟨rd, rs, value, hvalue, rfl⟩

theorem exists_operands_target {operands : List Operand} (h : List.Forall₂ Takes [.target] operands)
    (hlabel : ∀ name, .label name ∉ operands) :
    ∃ value ≤ maxAddress, operands = [.address value] := by
  obtain - | ⟨ha, h⟩ := h
  cases h
  rcases ha.target_cases with ⟨value, hvalue, rfl⟩ | ⟨name, -, rfl⟩
  · exact ⟨value, hvalue, rfl⟩
  · exact absurd List.mem_cons_self (hlabel name)

section

variable {operands : List Operand} (location : Location)

theorem exists_means_binary (f : Binary)
    (h : List.Forall₂ Takes [.register, .register, .register] operands) :
    ∃ i, Means { operation := f.operation, operands, location } i := by
  obtain ⟨rd, rs₁, rs₂, rfl⟩ := exists_operands_three h
  exact ⟨.binary f rd rs₁ rs₂, (agrees_iff _ _).mpr ⟨rfl, rfl, rfl⟩, trivial⟩

theorem exists_means_immediate (f : Immediate)
    (h : List.Forall₂ Takes [.register, .register, .immediate] operands) :
    ∃ i, Means { operation := f.operation, operands, location } i := by
  obtain ⟨rd, rs, value, hvalue, rfl⟩ := exists_operands_immediate h
  exact ⟨.withImmediate f rd rs value, (agrees_iff _ _).mpr ⟨rfl, rfl, rfl⟩, hvalue⟩

theorem exists_means_branch (c : Condition) (h : List.Forall₂ Takes [.target] operands)
    (hlabel : ∀ name, .label name ∉ operands) :
    ∃ i, Means { operation := c.operation, operands, location } i := by
  obtain ⟨target, htarget, rfl⟩ := exists_operands_target h hlabel
  exact ⟨.branch c target, (agrees_iff _ _).mpr ⟨rfl, rfl, rfl⟩, htarget⟩

end

/-- **A well-formed statement that names no label is an instruction that fits a word.** -/
theorem WellFormed.exists_means {s : Statement} (h : s.WellFormed) (hs : s.isInstruction = true)
    (hlabel : ∀ name, .label name ∉ s.operands) : ∃ i, s.Means i := by
  cases h with
  | definition => cases hs
  | @instruction operation operands location hop h =>
    cases operation with
    | label => exact absurd rfl hop
    | halt => cases h; exact ⟨.halt, rfl, trivial⟩
    | nop => cases h; exact ⟨.nop, rfl, trivial⟩
    | mv =>
      obtain ⟨rd, rs, rfl⟩ := exists_operands_two h
      exact ⟨.move rd rs, (agrees_iff _ _).mpr ⟨rfl, rfl, rfl⟩, trivial⟩
    | not =>
      obtain ⟨rd, rs, rfl⟩ := exists_operands_two h
      exact ⟨.complement rd rs, (agrees_iff _ _).mpr ⟨rfl, rfl, rfl⟩, trivial⟩
    | add => exact exists_means_binary location .add h
    | sub => exact exists_means_binary location .sub h
    | and => exact exists_means_binary location .and h
    | or => exact exists_means_binary location .or h
    | xor => exact exists_means_binary location .xor h
    | addi => exact exists_means_immediate location .add h
    | andi => exact exists_means_immediate location .and h
    | ori => exact exists_means_immediate location .or h
    | xori => exact exists_means_immediate location .xor h
    | jmp => exact exists_means_branch location .always h hlabel
    | bz => exact exists_means_branch location .zero h hlabel
    | bnz => exact exists_means_branch location .nonzero h hlabel

theorem Means.instruction_eq {s : Statement} {i : Instruction} (h : s.Means i) :
    s.instruction = .ok i := by
  rw [instruction_eq_of_agrees h.1, Instruction.instruction_statement]

theorem means_statement {i : Instruction} (h : i.Fits) : i.statement.Means i :=
  ⟨agrees_refl _, h⟩

end Statement

/-- A program of statements that are instructions is a list of instructions. -/
theorem Program.exists_means {program : Program} (h : ∀ s ∈ program, ∃ i, s.Means i) :
    ∃ instructions, program.Means instructions := exists_forall₂ h

theorem Program.Means.exists_of_mem {program : Program} {instructions : List Instruction}
    (h : program.Means instructions) : ∀ s ∈ program, ∃ i, s.Means i := fun s hs => by
  obtain ⟨i, -, hi⟩ := exists_right_of_forall₂ h s hs
  exact ⟨i, hi⟩

theorem Program.Means.fits {program : Program} {instructions : List Instruction}
    (h : program.Means instructions) : ∀ i ∈ instructions, i.Fits := fun i hi => by
  obtain ⟨s, -, hs⟩ := exists_left_of_forall₂ h i hi
  exact hs.2

end RegisterMachine
