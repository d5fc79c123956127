/-
# Carrying out an instruction

`Statement.execute` carries out one statement. Its verdict is that the machine
goes on at an address, halts, or traps; the program counter itself is left as
it is. Sums and differences are taken in 8 bits, and the overflow flag says
whether that changed them; every other operation on registers clears it. The
zero flag follows the result, also when it is lost because register 0 is to
hold it. `halt`, `nop` and `jmp` reset the flags, the two other branches keep
them. A statement that is no instruction traps and changes nothing.

Key definitions: `Binary.apply`, `Verdict`, `Execution`, `Instruction.execute`,
`Statement.execute`.
Key lemmas: `Instruction.execute_pc`, `Statement.execute_eq_self_of_trap`.
-/
import RegisterMachine.Machine.State
import RegisterMachine.Machine.Trap

namespace RegisterMachine

/-- The result of a function of two registers, and whether it overflows. -/
def Binary.apply : Binary → UInt8 → UInt8 → UInt8 × Bool
  | add, a, b => (a + b, a.toNat + b.toNat > 255)
  | sub, a, b => (a - b, a < b)
  | and, a, b => (a &&& b, false)
  | or, a, b => (a ||| b, false)
  | xor, a, b => (a ^^^ b, false)

/-- The function of two values that a function with an immediate is. -/
def Immediate.toBinary : Immediate → Binary
  | add => .add
  | and => .and
  | or => .or
  | xor => .xor

/-- A branch with this condition is taken. -/
def Condition.holds : Condition → Flags → Bool
  | always, _ => true
  | zero, flags => flags.zero
  | nonzero, flags => !flags.zero

/-- What follows an execution. -/
inductive Verdict where
  /-- The machine goes on at this address. -/
  | next (pc : UInt16)
  /-- The machine has halted. -/
  | halt
  /-- The statement was not carried out. -/
  | trap (cause : TrapCause)
deriving DecidableEq, Repr, Inhabited

/-- A state after an execution, and what follows. -/
structure Execution where
  state : State
  verdict : Verdict
deriving DecidableEq, Repr, Inhabited

namespace State

/-- The state with a result in a register and in the flags. -/
def commit (s : State) (rd : Register) (result : UInt8 × Bool) : State :=
  { s with
    registers := s.registers.set rd result.1
    flags := { zero := result.1 == 0, overflow := result.2 } }

/-- The state with its flags as they are after a reset. -/
def resetFlags (s : State) : State := { s with flags := {} }

end State

/-- Carries out an instruction. Of an immediate the low 8 bits count. -/
def Instruction.execute (i : Instruction) (s : State) : Execution :=
  let behind : Verdict := .next (s.pc + 1)
  match i with
  | halt => { state := s.resetFlags, verdict := .halt }
  | nop => { state := s.resetFlags, verdict := behind }
  | move rd rs => { state := s.commit rd (s.registers.get rs, false), verdict := behind }
  | complement rd rs =>
    { state := s.commit rd (~~~ s.registers.get rs, false), verdict := behind }
  | binary f rd rs₁ rs₂ =>
    { state := s.commit rd (f.apply (s.registers.get rs₁) (s.registers.get rs₂))
      verdict := behind }
  | withImmediate f rd rs value =>
    { state := s.commit rd (f.toBinary.apply (s.registers.get rs) value.toUInt8)
      verdict := behind }
  | branch .always target => { state := s.resetFlags, verdict := .next target }
  | branch c target =>
    { state := s, verdict := if c.holds s.flags then .next target else behind }

/-- Carries out a statement, or traps if it is no instruction. -/
def Statement.execute (s : Statement) (state : State) : Execution :=
  match s.instruction with
  | .ok instruction => instruction.execute state
  | .error fault => { state, verdict := .trap (.malformed s fault) }

/-- The program counter is left to the one who runs the machine. -/
@[simp] theorem Instruction.execute_pc (i : Instruction) (s : State) :
    (i.execute s).state.pc = s.pc := by
  cases i with
  | branch c target => cases c <;> rfl
  | _ => rfl

/-- An instruction never traps. -/
theorem Instruction.execute_ne_trap (i : Instruction) (s : State) (cause : TrapCause) :
    (i.execute s).verdict ≠ .trap cause := by
  cases i with
  | branch c target =>
    cases c with
    | always => simp [execute]
    | zero | nonzero => simp only [execute]; split <;> simp
  | _ => simp [execute]

/-- A trap changes nothing. -/
theorem Statement.execute_eq_self_of_trap {s : Statement} {state : State} {cause : TrapCause}
    (h : (s.execute state).verdict = .trap cause) : (s.execute state).state = state := by
  unfold execute at *
  split at h
  · exact absurd h (Instruction.execute_ne_trap _ _ _)
  · rfl

end RegisterMachine
