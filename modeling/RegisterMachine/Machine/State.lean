/-
# The state of the machine

The machine has a program counter, sixteen registers of 8 bits and two flags.
Register 0 always holds 0 and what is written to it is lost, so only the other
fifteen are stored. After a reset the counter and all registers are 0, the zero
flag is set and the overflow flag is not. `State.text` shows a state, one line
for each part.

Key definitions: `Registers`, `Flags`, `State`, `State.text`.
Key lemmas: `Registers.get_zero`, `Registers.get_set`.
-/
import RegisterMachine.Assembly.Instruction

namespace RegisterMachine

/-- The register with this number, if there is one. -/
def Register.ofIndex? (index : UInt8) : Option Register :=
  if h : index.toNat < 16 then some ⟨index.toNat, h⟩ else none

/-- The registers; the value of register `i + 1` is at index `i`. -/
structure Registers where
  values : Vector UInt8 15 := Vector.replicate 15 0
deriving DecidableEq, Repr, Inhabited

namespace Registers

/-- The value of a register. -/
def get (registers : Registers) (r : Register) : UInt8 :=
  if h : r = 0 then 0
  else
    have : r.val ≠ 0 := fun hr => h (Fin.ext hr)
    registers.values[r.val - 1]

/-- The registers after a write; one to register 0 has no effect. -/
def set (registers : Registers) (r : Register) (value : UInt8) : Registers :=
  if h : r = 0 then registers
  else
    have : r.val ≠ 0 := fun hr => h (Fin.ext hr)
    { values := registers.values.set (r.val - 1) value }

/-- The value of the register with this number, if there is one. -/
def read? (registers : Registers) (index : UInt8) : Option UInt8 :=
  (Register.ofIndex? index).map registers.get

/-- The registers after a write to the one with this number, if there is one. -/
def write? (registers : Registers) (index value : UInt8) : Option Registers :=
  (Register.ofIndex? index).map (registers.set · value)

/-- The values of all registers in their order. -/
def toList (registers : Registers) : List UInt8 := 0 :: registers.values.toList

@[simp] theorem get_zero (registers : Registers) : registers.get 0 = 0 := by simp [get]

@[simp] theorem set_zero (registers : Registers) (value : UInt8) :
    registers.set 0 value = registers := by simp [set]

/-- A write changes the register it names, unless that is register 0, and no other. -/
theorem get_set (registers : Registers) (r q : Register) (value : UInt8) :
    (registers.set r value).get q = if q = r ∧ r ≠ 0 then value else registers.get q := by
  by_cases hr : r = 0
  · subst hr; simp
  by_cases hq : q = 0
  · subst hq; simp [Ne.symm hr]
  have hr' : r.val ≠ 0 := fun h => hr (Fin.ext h)
  have hq' : q.val ≠ 0 := fun h => hq (Fin.ext h)
  simp only [get, set, hr, hq, dite_false, ne_eq, not_false_eq_true, and_true]
  rw [Vector.getElem_set]
  by_cases h : q = r
  · subst h; simp
  · have hne : r.val - 1 ≠ q.val - 1 := by
      intro he
      exact h (Fin.ext (by omega))
    simp [h, hne]

end Registers

/-- What the last operation left behind. -/
structure Flags where
  /-- The result was 0. -/
  zero : Bool := true
  /-- The sum did not fit into 8 bits, or the difference was below 0. -/
  overflow : Bool := false
deriving DecidableEq, Repr, Inhabited

/-- The state of the machine. -/
structure State where
  /-- The address of the instruction that is next. -/
  pc : UInt16 := 0
  registers : Registers := {}
  flags : Flags := {}
deriving DecidableEq, Repr, Inhabited

namespace State

/-- A line that shows a number under a name. -/
def field (name : Bytes) (value : Nat) : Bytes :=
  name ++ ascii " = " ++ Numeral.decimal value ++ [Bytes.newline]

/-- A state as text: the counter, the flags and the registers, a line each. -/
def text (s : State) : Bytes :=
  field (ascii "pc") s.pc.toNat
    ++ field (ascii "zero") s.flags.zero.toNat
    ++ field (ascii "overflow") s.flags.overflow.toNat
    ++ s.registers.toList.zipIdx.flatMap fun (value, index) =>
        field (Operand.registerName index) value.toNat

end State
end RegisterMachine
