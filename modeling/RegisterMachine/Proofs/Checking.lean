/-
# What the machine refuses and what the encoder refuses

A statement is checked twice: by the machine before it is carried out, and by
the encoder. Both checks go along the places that the table of operations gives
to the operation and stop at the first fault. The machine asks of an operand
that it is no label, that it is of the kind that its place takes, and that
there is a register of its number (`Shape.fault?`). The encoder asks the same,
and besides that the number fits its field (`Shape.encodeFault?`).

The machine carries out what has no fault of the first kind, in every state,
and the encoder gives a word to what has none of the second. Since a number can
stand in the last place only, the encoder never finds one that is too large
before it has come past all that the machine would refuse
(`firstFault_encodeFault?`): it refuses what the machine refuses, for the same
reason, and beyond that the numbers that are too large.

Key definitions: `Statement.Executable`, `Shape.fault?`, `Shape.encodeFault?`,
`Statement.checkBy`.
Key theorems: `Statement.instruction_eq_error_iff`, `Statement.executable_iff`,
`Statement.trap_iff`, `Statement.encode_eq_error_iff`,
`Statement.encode_iff_execute`.
-/
import RegisterMachine.Proofs.Aliases

namespace RegisterMachine

/-! ### The table of operations as a requirement -/

/-- The operand is a number or a register there is, and no label. -/
def Operand.IsValue : Operand → Prop
  | register index => index < registerCount
  | immediate _ | address _ => True
  | label _ => False

instance : DecidablePred Operand.IsValue
  | .register _ => inferInstanceAs (Decidable (_ < _))
  | .immediate _ | .address _ => inferInstanceAs (Decidable True)
  | .label _ => inferInstanceAs (Decidable False)

/-- The statement is no label definition, and it has an operand for each place of its operation and
no more: a value of the kind that the place takes. -/
structure Statement.Executable (s : Statement) : Prop where
  operation : s.operation ≠ .label
  operands : List.Forall₂ (fun shape o => shape.admits o = true ∧ o.IsValue)
    s.operation.shapes s.operands

instance : DecidablePred Statement.Executable := fun s =>
  decidable_of_iff (s.operation ≠ .label ∧
      List.Forall₂ (fun shape o => shape.admits o = true ∧ o.IsValue)
        s.operation.shapes s.operands)
    ⟨fun h => ⟨h.1, h.2⟩, fun h => ⟨h.1, h.2⟩⟩

/-! ### Going along the places -/

/-- What keeps an operand from being used in a place of this shape. -/
def Shape.fault? (shape : Shape) (o : Operand) : Option Malformed :=
  match o with
  | .label name => some (.unresolved name)
  | .register index =>
    if shape.admits o = false then some (.mismatch o shape)
    else if index < Operand.registerCount then none
    else some (.noRegister index)
  | .immediate _ | .address _ => if shape.admits o = false then some (.mismatch o shape) else none

theorem Shape.fault?_eq_none_iff (shape : Shape) (o : Operand) :
    shape.fault? o = none ↔ shape.admits o = true ∧ o.IsValue := by
  cases o with
  | label name => simp [Shape.fault?, Operand.IsValue]
  | immediate _ | address _ => simp [Shape.fault?, Operand.IsValue]
  | register index =>
    unfold Shape.fault? Operand.IsValue
    cases shape.admits (.register index) <;> simp

/-- What makes an operand too large for its field. -/
def Operand.rangeFault? : Operand → Option EncodeError
  | immediate value => if value > maxImmediate then some (.immediateRange value) else none
  | address value => if value > maxAddress then some (.addressRange value) else none
  | register _ | label _ => none

/-- What keeps an operand from being encoded in a place of this shape. -/
def Shape.encodeFault? (shape : Shape) (o : Operand) : Option EncodeError :=
  ((shape.fault? o).map .malformed).or o.rangeFault?

namespace Statement

/-- The first fault that a check finds on its way along the places. -/
def firstFault {ε : Type} (check : Shape → Operand → Option ε) :
    List Shape → List Operand → Option ε
  | shape :: shapes, o :: operands => (check shape o).or (firstFault check shapes operands)
  | _, _ => none

/-- What a check finds wrong with operands for some places: their number, or the first fault. -/
def operandFault {ε : Type} (wrap : Malformed → ε) (check : Shape → Operand → Option ε)
    (shapes : List Shape) (operands : List Operand) : Option ε :=
  if operands.length ≠ shapes.length then some (wrap (.operandCount operands.length))
  else firstFault check shapes operands

/-- What a check by the table finds wrong with a statement. -/
def checkBy {ε : Type} (wrap : Malformed → ε) (check : Shape → Operand → Option ε)
    (s : Statement) : Option ε :=
  if s.operation = .label then some (wrap (.label s.label))
  else operandFault wrap check s.operation.shapes s.operands

/-- What the machine finds wrong with a statement. -/
def fault? (s : Statement) : Option Malformed := s.checkBy id Shape.fault?

/-- What the encoder finds wrong with a statement. -/
def encodeFault? (s : Statement) : Option EncodeError := s.checkBy .malformed Shape.encodeFault?

theorem firstFault_eq_none_iff {ε : Type} {check : Shape → Operand → Option ε} :
    ∀ {shapes : List Shape} {operands : List Operand}, operands.length = shapes.length →
      (firstFault check shapes operands = none ↔
        List.Forall₂ (fun shape o => check shape o = none) shapes operands)
  | [], [], _ => by simp [firstFault]
  | shape :: shapes, o :: operands, h => by
    rw [firstFault, Option.or_eq_none_iff, List.forall₂_cons,
      firstFault_eq_none_iff (Nat.succ.inj h)]

theorem checkBy_eq_none_iff {ε : Type} {wrap : Malformed → ε} {check : Shape → Operand → Option ε}
    {s : Statement} : s.checkBy wrap check = none ↔
      s.operation ≠ .label ∧
        List.Forall₂ (fun shape o => check shape o = none) s.operation.shapes s.operands := by
  unfold checkBy operandFault
  by_cases hlabel : s.operation = .label
  · simp [hlabel]
  · by_cases hlength : s.operands.length = s.operation.shapes.length
    · simp [hlabel, hlength, firstFault_eq_none_iff]
    · have hnone : ¬ List.Forall₂ (fun shape o => check shape o = none)
          s.operation.shapes s.operands := fun h => hlength h.length_eq.symm
      simp [hlabel, hlength, hnone]

end Statement

/-! ### The check of the machine -/

/-- Of two parts that can both be at fault, the first one decides. -/
theorem bind_eq_error_iff {ε α β : Type} {x : Except ε α} {f : α → Except ε β}
    {first second : Option ε} (hx : ∀ fault, x = .error fault ↔ first = some fault)
    (hf : ∀ a fault, f a = .error fault ↔ second = some fault) (fault : ε) :
    x >>= f = .error fault ↔ first.or second = some fault := by
  cases x with
  | error cause =>
    have hfirst : first = some cause := (hx cause).mp rfl
    simp [hfirst, bind, Except.bind]
  | ok a =>
    have hfirst : first = none := Option.eq_none_iff_forall_ne_some.mpr fun cause hcause => by
      simpa using (hx cause).mpr hcause
    rw [hfirst, Option.none_or]
    exact hf a fault

theorem ok_eq_error_iff {ε α : Type} (a : α) (fault : ε) :
    (pure a : Except ε α) = .error fault ↔ (none : Option ε) = some fault := by
  simp [pure, Except.pure]

namespace Operand

variable {o : Operand} (fault : Malformed)

theorem register?_eq_error_iff :
    o.register? = .error fault ↔ Shape.register.fault? o = some fault := by
  cases o with
  | register index =>
    have hlt : index < registerCount ↔ index.toNat < 16 := UInt16.lt_iff_toNat_lt
    by_cases h : index.toNat < 16
    · simp [register?, Shape.fault?, Shape.admits, hlt, h]
    · simp [register?, Shape.fault?, Shape.admits, hlt, h]
  | immediate _ | address _ | label _ => simp [register?, Shape.fault?, Shape.admits]

theorem immediate?_eq_error_iff :
    o.immediate? = .error fault ↔ Shape.immediate.fault? o = some fault := by
  cases o <;> simp [immediate?, Shape.fault?, Shape.admits]

theorem address?_eq_error_iff :
    o.address? = .error fault ↔ Shape.target.fault? o = some fault := by
  cases o <;> simp [address?, Shape.fault?, Shape.admits]

end Operand

namespace Instruction

open Operand
open Statement (operandFault firstFault)

variable {operands : List Operand} {fault : Malformed}

theorem ofNone_eq_error_iff {i : Instruction} : ofNone i operands = .error fault ↔
    operandFault id Shape.fault? [] operands = some fault := by
  match operands with
  | [] => simp [ofNone, operandFault, firstFault]
  | _ :: _ => simp [ofNone, operandFault]

theorem ofTwo_eq_error_iff {build : Register → Register → Instruction} :
    ofTwo build operands = .error fault ↔
      operandFault id Shape.fault? [.register, .register] operands = some fault := by
  match operands with
  | [] | [_] | _ :: _ :: _ :: _ => simp [ofTwo, operandFault]
  | [_, _] =>
    exact bind_eq_error_iff register?_eq_error_iff (fun _ =>
      bind_eq_error_iff register?_eq_error_iff fun _ => ok_eq_error_iff _) fault

theorem ofThree_eq_error_iff {f : Binary} : ofThree f operands = .error fault ↔
    operandFault id Shape.fault? [.register, .register, .register] operands = some fault := by
  match operands with
  | [] | [_] | [_, _] | _ :: _ :: _ :: _ :: _ => simp [ofThree, operandFault]
  | [_, _, _] =>
    exact bind_eq_error_iff register?_eq_error_iff (fun _ =>
      bind_eq_error_iff register?_eq_error_iff fun _ =>
        bind_eq_error_iff register?_eq_error_iff fun _ => ok_eq_error_iff _) fault

theorem ofImmediate_eq_error_iff {f : Immediate} : ofImmediate f operands = .error fault ↔
    operandFault id Shape.fault? [.register, .register, .immediate] operands = some fault := by
  match operands with
  | [] | [_] | [_, _] | _ :: _ :: _ :: _ :: _ => simp [ofImmediate, operandFault]
  | [_, _, _] =>
    exact bind_eq_error_iff register?_eq_error_iff (fun _ =>
      bind_eq_error_iff register?_eq_error_iff fun _ =>
        bind_eq_error_iff immediate?_eq_error_iff fun _ => ok_eq_error_iff _) fault

theorem ofTarget_eq_error_iff {c : Condition} : ofTarget c operands = .error fault ↔
    operandFault id Shape.fault? [.target] operands = some fault := by
  match operands with
  | [] | _ :: _ :: _ => simp [ofTarget, operandFault]
  | [_] => exact bind_eq_error_iff address?_eq_error_iff (fun _ => ok_eq_error_iff _) fault

end Instruction

namespace Statement

variable {s : Statement}

/-- **A statement is no instruction because of the first fault that the machine finds in it.** -/
theorem instruction_eq_error_iff {fault : Malformed} :
    s.instruction = .error fault ↔ s.fault? = some fault := by
  obtain ⟨operation, operands, label, location⟩ := s
  cases operation with
  | label => simp [instruction, fault?, checkBy]
  | halt | nop => exact Instruction.ofNone_eq_error_iff
  | mv | not => exact Instruction.ofTwo_eq_error_iff
  | add | sub | and | or | xor => exact Instruction.ofThree_eq_error_iff
  | addi | andi | ori | xori => exact Instruction.ofImmediate_eq_error_iff
  | jmp | bz | bnz => exact Instruction.ofTarget_eq_error_iff

theorem executable_iff : s.Executable ↔ s.fault? = none := by
  unfold fault?
  rw [checkBy_eq_none_iff]
  simp only [Shape.fault?_eq_none_iff]
  exact ⟨fun h => ⟨h.operation, h.operands⟩, fun h => ⟨h.1, h.2⟩⟩

theorem executable_iff_exists : s.Executable ↔ ∃ i, s.instruction = .ok i := by
  rw [executable_iff, Option.eq_none_iff_forall_ne_some]
  simp only [ne_eq, ← instruction_eq_error_iff]
  cases s.instruction <;> simp

/-- A statement traps because of the first fault that the machine finds in it, in every state. -/
theorem trap_iff {state : State} {cause : TrapCause} :
    (s.execute state).verdict = .trap cause ↔
      ∃ fault, s.fault? = some fault ∧ .malformed s fault = cause := by
  simp only [← instruction_eq_error_iff]
  unfold execute
  cases s.instruction with
  | ok i => simpa using i.execute_ne_trap state cause
  | error fault => simp

theorem executable_iff_not_trap (state : State) :
    s.Executable ↔ ∀ cause, (s.execute state).verdict ≠ .trap cause := by
  rw [executable_iff, Option.eq_none_iff_forall_ne_some]
  simp [trap_iff]

/-! ### The check of the encoder -/

/-- Numbers stand in the last place only. -/
theorem shapes_dropLast (operation : Operation) :
    ∀ shape ∈ operation.shapes.dropLast, shape = .register := by
  cases operation <;> decide

/-- What the machine refuses, the encoder refuses for the same reason: in the places before the
last one it finds nothing that the machine does not find. -/
theorem firstFault_encodeFault? {fault : Malformed} : ∀ {shapes : List Shape}
    {operands : List Operand}, (∀ shape ∈ shapes.dropLast, shape = .register) →
      firstFault Shape.fault? shapes operands = some fault →
      firstFault Shape.encodeFault? shapes operands = some (.malformed fault)
  | [], _, _, h => by simp [firstFault] at h
  | _ :: _, [], _, h => by simp [firstFault] at h
  | shape :: shapes, o :: operands, hshapes, h => by
    rw [firstFault, Option.or_eq_some_iff] at h
    rw [firstFault, Option.or_eq_some_iff]
    rcases h with hfirst | ⟨hnone, hrest⟩
    · exact Or.inl (by simp [Shape.encodeFault?, hfirst])
    · cases shapes with
      | nil => simp [firstFault] at hrest
      | cons next shapes =>
        -- This place is not the last one, so what stands in it is no number.
        obtain rfl : shape = .register := hshapes shape (by simp)
        have hadmits := ((Shape.fault?_eq_none_iff _ _).mp hnone).1
        have hrange : o.rangeFault? = none := by
          cases o with
          | register _ => rfl
          | immediate _ | address _ | label _ => cases hadmits
        refine Or.inr ⟨by simp [Shape.encodeFault?, hnone, hrange], ?_⟩
        exact firstFault_encodeFault? (fun shape h => hshapes shape (by simp [h])) hrest

/-- A register that there is can be encoded, so the walk goes on behind it. -/
theorem firstFault_ofRegister (r : Register) (shapes : List Shape) (operands : List Operand) :
    firstFault Shape.encodeFault? (.register :: shapes) (.ofRegister r :: operands) =
      firstFault Shape.encodeFault? shapes operands := by
  have hfault : Shape.register.fault? (.ofRegister r) = none :=
    (Shape.fault?_eq_none_iff _ _).mpr (Shape.takes_ofRegister r)
  have hencode : Shape.register.encodeFault? (.ofRegister r) = none := by
    rw [Shape.encodeFault?, hfault]
    rfl
  rw [firstFault, hencode, Option.none_or]

/-- In an instruction, the encoder finds nothing wrong but a number that is too large. -/
theorem encodeFault?_of_instruction {i : Instruction} (h : s.instruction = .ok i) :
    s.encodeFault? = i.rangeError? := by
  obtain ⟨hoperation, hoperands⟩ := parts_of_instruction h
  have hnumber (shape : Shape) (o : Operand) :
      firstFault Shape.encodeFault? [shape] [o] = shape.encodeFault? o := Option.or_none
  unfold encodeFault? checkBy
  rw [hoperation, hoperands]
  cases i with
  | halt | nop => rfl
  | move rd rs | complement rd rs =>
    exact (firstFault_ofRegister rd _ _).trans (firstFault_ofRegister rs _ _)
  | binary f rd rs₁ rs₂ =>
    have hregisters := (firstFault_ofRegister rd _ _).trans <|
      (firstFault_ofRegister rs₁ _ _).trans (firstFault_ofRegister rs₂ [] [])
    cases f <;> exact hregisters
  | withImmediate f rd rs value =>
    have hregisters := (firstFault_ofRegister rd _ _).trans <|
      (firstFault_ofRegister rs _ _).trans (hnumber .immediate (.immediate value))
    cases f <;> exact hregisters
  | branch c target =>
    cases c <;> exact hnumber .target (.address target)

theorem encodeFault?_of_fault? {fault : Malformed} (h : s.fault? = some fault) :
    s.encodeFault? = some (.malformed fault) := by
  unfold fault? checkBy operandFault at h
  unfold encodeFault? checkBy operandFault
  split at h
  · rename_i hlabel
    rw [if_pos hlabel]
    cases h
    rfl
  · rename_i hlabel
    rw [if_neg hlabel]
    split at h
    · rename_i hlength
      rw [if_pos hlength]
      cases h
      rfl
    · rename_i hlength
      rw [if_neg hlength]
      exact firstFault_encodeFault? (shapes_dropLast s.operation) h

/-- **A statement has no word because of the first fault that the encoder finds in it.** -/
theorem encode_eq_error_iff {error : EncodeError} :
    s.encode = .error error ↔ s.encodeFault? = some error := by
  unfold encode
  cases h : s.instruction with
  | error fault =>
    rw [encodeFault?_of_fault? (instruction_eq_error_iff.mp h)]
    simp
  | ok i =>
    rw [encodeFault?_of_instruction h]
    cases hrange : i.rangeError? <;> simp [hrange]

theorem exists_encode_iff : (∃ w, s.encode = .ok w) ↔
    s.Executable ∧ (∀ value, .immediate value ∈ s.operands → value ≤ Operand.maxImmediate) ∧
      ∀ value, .address value ∈ s.operands → value ≤ Operand.maxAddress := by
  have hnone : (∃ w, s.encode = .ok w) ↔ s.encodeFault? = none := by
    rw [Option.eq_none_iff_forall_ne_some]
    simp only [ne_eq, ← encode_eq_error_iff]
    cases s.encode <;> simp
  have hplace (shape : Shape) (o : Operand) : shape.encodeFault? o = none ↔
      o.rangeFault? = none ∧ shape.admits o = true ∧ o.IsValue := by
    rw [Shape.encodeFault?, Option.or_eq_none_iff, Option.map_eq_none_iff, Shape.fault?_eq_none_iff,
      and_comm]
  have hrange : (∀ o ∈ s.operands, o.rangeFault? = none) ↔
      (∀ value, .immediate value ∈ s.operands → value ≤ Operand.maxImmediate) ∧
        ∀ value, .address value ∈ s.operands → value ≤ Operand.maxAddress := by
    constructor
    · intro h
      exact ⟨fun value hvalue => by simpa [Operand.rangeFault?] using h _ hvalue,
        fun value hvalue => by simpa [Operand.rangeFault?] using h _ hvalue⟩
    · rintro ⟨himmediate, haddress⟩ o ho
      cases o with
      | register _ | label _ => rfl
      | immediate value => simpa [Operand.rangeFault?] using himmediate value ho
      | address value => simpa [Operand.rangeFault?] using haddress value ho
  rw [hnone, encodeFault?, checkBy_eq_none_iff, ← hrange]
  simp only [hplace, forall₂_and_right]
  exact ⟨fun ⟨hlabel, hfits, h⟩ => ⟨⟨hlabel, h⟩, hfits⟩, fun ⟨h, hfits⟩ => ⟨h.1, hfits, h.2⟩⟩

/-- **The encoder and the machine refuse the same statements, but for numbers that are too large.**
The machine traps at a statement because of the first fault that it finds, and the encoder gives no
word because of the first fault that it finds; both are found in the statement alone, so in all
states it traps or in none. A statement has a word if it does not trap, its immediates have 8 bits
and its addresses have 12. -/
theorem encode_iff_execute (s : Statement) :
    (∀ state cause, (s.execute state).verdict = .trap cause ↔
        ∃ fault, s.fault? = some fault ∧ .malformed s fault = cause) ∧
      (∀ error, s.encode = .error error ↔ s.encodeFault? = some error) ∧
      (∀ state other, (∃ cause, (s.execute state).verdict = .trap cause) ↔
        ∃ cause, (s.execute other).verdict = .trap cause) ∧
      ∀ state, (∃ w, s.encode = .ok w) ↔
        (∀ cause, (s.execute state).verdict ≠ .trap cause) ∧
          (∀ value, .immediate value ∈ s.operands → value.toNat ≤ 255) ∧
          ∀ value, .address value ∈ s.operands → value.toNat ≤ 4095 := by
  refine ⟨fun state cause => trap_iff, fun error => encode_eq_error_iff, fun state other => ?_,
    fun state => ?_⟩
  · simp only [trap_iff]
  · rw [exists_encode_iff, executable_iff_not_trap state]
    rfl

/-- An addition of 256 is carried out in every state and has no word; if it is to go to register 16,
machine and encoder refuse it because of the register. -/
theorem encode_iff_execute_of_wide :
    let wide : Statement :=
      { operation := .addi, operands := [.register 1, .register 1, .immediate 256] }
    let worse : Statement :=
      { operation := .addi, operands := [.register 16, .register 1, .immediate 256] }
    (∀ state cause, (wide.execute state).verdict ≠ .trap cause) ∧ (¬ ∃ w, wide.encode = .ok w) ∧
      (∀ state, (worse.execute state).verdict = .trap (.malformed worse (.noRegister 16))) ∧
      worse.encode = .error (.malformed (.noRegister 16)) := by
  intro wide worse
  obtain ⟨htrap, -, -, hagree⟩ := encode_iff_execute wide
  obtain ⟨htrap', herror', -, -⟩ := encode_iff_execute worse
  have hfine : wide.fault? = none := by decide
  refine ⟨fun state cause h => ?_, fun h => ?_, fun state => ?_, (herror' _).mpr (by decide)⟩
  · obtain ⟨fault, hfault, -⟩ := (htrap state cause).mp h
    simp [hfine] at hfault
  · exact absurd (((hagree {}).mp h).2.1 256 (by decide)) (by decide)
  · exact (htrap' state _).mpr ⟨_, by decide, rfl⟩

end Statement
end RegisterMachine
