/-
# A run ends if the machine ever stops

`Machine.after` is the course of a machine: where it is after so many steps,
with no end set to them. `Machine.run` follows this course for
`Machine.enough` steps and has no result if the machine is still going then.
These steps are enough: a run has a result if and only if the machine stops at
some point of its course, and the result is that point
(`Machine.run_eq_some_iff`).

With a limit on the steps this is a count (`Machine.run_isSome_of_limit`).
Without one it is the pigeonhole principle. What a machine does next is
determined by its program and its state, so two machines that agree in these
stay so (`Machine.Follows.after`). A machine that has made more steps than there
are states has been in one of them twice; it follows its own earlier course, and
goes round in it for ever.

Key definitions: `Machine.after`, `Machine.Follows`.
Key theorems: `Machine.runFor_eq_some_iff`, `Machine.Follows.after`,
`Machine.isStopped_after_enough`, `Machine.run_eq_some_iff`.
-/
import Mathlib.Data.Fintype.BigOperators
import Mathlib.Data.Fintype.Pigeonhole
import RegisterMachine.Proofs.Stepping

namespace RegisterMachine

namespace Machine

/-! ### The course of a machine -/

/-- The machine after so many steps. -/
def after (read : Reader) (m : Machine) (steps : Nat) : Machine := (Machine.step read)^[steps] m

section

variable (read : Reader) (m : Machine)

@[simp] theorem after_zero : m.after read 0 = m := rfl

theorem after_succ (k : Nat) : m.after read (k + 1) = (m.after read k).step read :=
  Function.iterate_succ_apply' _ k m

theorem after_add (k l : Nat) : m.after read (k + l) = (m.after read k).after read l := by
  rw [Nat.add_comm]
  exact Function.iterate_add_apply _ l k m

end

section

variable {read : Reader} {m : Machine}

theorem after_of_stopped (h : m.status.isStopped = true) (k : Nat) : m.after read k = m := by
  induction k with
  | zero => rfl
  | succ k ih => rw [after_succ, ih, step_of_stopped read h]

theorem after_of_le {k l : Nat} (h : (m.after read k).status.isStopped = true) (hkl : k ≤ l) :
    m.after read l = m.after read k := by
  obtain ⟨d, rfl⟩ := Nat.exists_eq_add_of_le hkl
  rw [after_add, after_of_stopped h]

theorem after_eq_of_stopped {k l : Nat} (hk : (m.after read k).status.isStopped = true)
    (hl : (m.after read l).status.isStopped = true) : m.after read k = m.after read l := by
  rcases Nat.le_total k l with h | h
  · exact (after_of_le hk h).symm
  · exact after_of_le hl h

theorem not_stopped_of_le {k l : Nat} (hkl : k ≤ l)
    (h : (m.after read l).status.isStopped = false) :
    (m.after read k).status.isStopped = false := by
  by_contra hk
  have hk : (m.after read k).status.isStopped = true := by simpa using hk
  rw [after_of_le hk hkl, hk] at h
  cases h

end

/-- A run is the course of the machine as far as it is followed. -/
theorem runFor_eq_some_iff {read : Reader} {fuel : Nat} {m m' : Machine} :
    m.runFor read fuel = some m' ↔ m.after read fuel = m' ∧ m'.status.isStopped = true := by
  induction fuel generalizing m with
  | zero =>
    rw [runFor, after_zero]
    split
    · rename_i h
      rw [Option.some.injEq]
      exact ⟨fun heq => ⟨heq, heq ▸ h⟩, fun heq => heq.1⟩
    · rename_i h
      refine ⟨fun hnone => (Option.some_ne_none _ hnone.symm).elim, ?_⟩
      rintro ⟨rfl, hstopped⟩
      exact absurd hstopped h
  | succ fuel ih =>
    rw [runFor]
    split
    · rename_i h
      rw [after_of_stopped h, Option.some.injEq]
      exact ⟨fun heq => ⟨heq, heq ▸ h⟩, fun heq => heq.1⟩
    · rw [ih, Nat.add_comm, after_add]
      rfl

/-! ### What a step leaves alone -/

@[simp] theorem carryOut_settings (m : Machine) (s : Statement) :
    (m.carryOut s).settings = m.settings := by
  unfold carryOut
  simp only
  split <;> rfl

/-- Settings and program are those the machine was loaded with. -/
theorem step_fixed (read : Reader) (m : Machine) :
    (m.step read).settings = m.settings ∧ (m.step read).program = m.program := by
  rcases m.step_cases read with ⟨-, hstep⟩ | ⟨-, cause, -, hstep⟩ | ⟨-, s, -, hstep⟩
  · rw [hstep]
    exact ⟨rfl, rfl⟩
  · rw [hstep]
    exact ⟨rfl, rfl⟩
  · rw [hstep, carryOut_settings, carryOut_program]
    exact ⟨rfl, rfl⟩

theorem after_fixed (read : Reader) (m : Machine) (k : Nat) :
    (m.after read k).settings = m.settings ∧ (m.after read k).program = m.program := by
  induction k with
  | zero => exact ⟨rfl, rfl⟩
  | succ k ih =>
    obtain ⟨hsettings, hprogram⟩ := step_fixed read (m.after read k)
    rw [after_succ, hsettings, hprogram]
    exact ih

@[simp] theorem after_settings (read : Reader) (m : Machine) (k : Nat) :
    (m.after read k).settings = m.settings := (after_fixed read m k).1

@[simp] theorem after_program (read : Reader) (m : Machine) (k : Nat) :
    (m.after read k).program = m.program := (after_fixed read m k).2

/-! ### Machines that follow each other -/

/-- Without a limit on their steps, the machines are at the same point of the same program. They
may have come there by different numbers of steps. -/
structure Follows (m n : Machine) : Prop where
  program : m.program = n.program
  unlimited : m.settings.stepLimit = 0
  unlimited' : n.settings.stepLimit = 0
  state : m.state = n.state
  stopped : m.status.isStopped = n.status.isStopped

namespace Follows

theorem fetch {m n : Machine} (h : m.Follows n) : m.fetch = n.fetch := by
  simp [Machine.fetch, h.program, h.state, h.unlimited, h.unlimited']

theorem carryOut {m n : Machine} (h : m.Follows n) (s : Statement) :
    (m.carryOut s).Follows (n.carryOut s) := by
  unfold Machine.carryOut
  simp only [h.state]
  cases (s.execute n.state).verdict with
  | trap cause => exact ⟨h.program, h.unlimited, h.unlimited', h.state, rfl⟩
  | halt => exact ⟨h.program, h.unlimited, h.unlimited', rfl, rfl⟩
  | next pc => exact ⟨h.program, h.unlimited, h.unlimited', rfl, rfl⟩

theorem step {m n : Machine} (h : m.Follows n) (read : Reader) :
    (m.step read).Follows (n.step read) := by
  unfold Machine.step
  rw [← h.stopped]
  split
  · exact h
  · rw [h.fetch]
    cases n.fetch with
    | error cause => exact ⟨h.program, h.unlimited, h.unlimited', h.state, rfl⟩
    | ok s =>
      have htraced : (m.traced read s).Follows (n.traced read s) :=
        ⟨h.program, h.unlimited, h.unlimited', h.state, h.stopped⟩
      exact htraced.carryOut s

theorem after {m n : Machine} (h : m.Follows n) (read : Reader) (k : Nat) :
    (m.after read k).Follows (n.after read k) := by
  induction k with
  | zero => exact h
  | succ k ih =>
    rw [after_succ, after_succ]
    exact ih.step read

end Follows

/-! ### Running in circles -/

/-- The values that a state is made of. -/
abbrev Parts : Type := Fin UInt16.size × Bool × Bool × (Fin 15 → Fin UInt8.size)

/-- The parts of a state. -/
def parts (s : State) : Parts :=
  (s.pc.toFin, s.flags.zero, s.flags.overflow, fun i => s.registers.values[i].toFin)

theorem parts_injective : Function.Injective parts := by
  rintro ⟨pc, ⟨values⟩, ⟨zero, overflow⟩⟩ ⟨pc', ⟨values'⟩, ⟨zero', overflow'⟩⟩ h
  simp only [parts, Prod.mk.injEq] at h
  obtain ⟨hpc, rfl, rfl, hvalues⟩ := h
  have hregisters : values = values' := by
    refine Vector.ext fun i hi => ?_
    exact UInt8.toFin_inj.mp (congrFun hvalues ⟨i, hi⟩)
  rw [UInt16.toFin_inj.mp hpc, hregisters]

theorem card_parts : Fintype.card Parts = stateCount := by
  have hpc : UInt16.size = 2 ^ 16 := rfl
  have hvalue : UInt8.size = 2 ^ 8 := rfl
  rw [Fintype.card_prod, Fintype.card_prod, Fintype.card_prod, Fintype.card_fun, Fintype.card_fin,
    Fintype.card_fin, Fintype.card_fin, Fintype.card_bool, hpc, hvalue, ← Nat.pow_mul]
  simp [stateCount]

/-- A sequence in a finite type comes back to a value within as many places as the type has
elements. -/
theorem exists_repeat {α : Type} [Fintype α] (f : Nat → α) :
    ∃ i d, i + (d + 1) ≤ Fintype.card α ∧ f (i + (d + 1)) = f i := by
  have hcard : Fintype.card α < Fintype.card (Fin (Fintype.card α + 1)) := by
    rw [Fintype.card_fin]
    exact Nat.lt_succ_self _
  obtain ⟨i, j, hne, heq⟩ :=
    Fintype.exists_ne_map_eq_of_card_lt (fun i : Fin (Fintype.card α + 1) => f i) hcard
  have hi := i.isLt
  have hj := j.isLt
  rcases Nat.lt_or_gt_of_ne (Fin.val_ne_of_ne hne) with h | h
  · obtain ⟨d, hd⟩ := Nat.exists_eq_add_of_lt h
    refine ⟨i, d, by omega, ?_⟩
    rw [← Nat.add_assoc, ← hd]
    exact heq.symm
  · obtain ⟨d, hd⟩ := Nat.exists_eq_add_of_lt h
    refine ⟨j, d, by omega, ?_⟩
    rw [← Nat.add_assoc, ← hd]
    exact heq

section

variable {read : Reader} {m : Machine}

/-- A machine that comes to a point again while it is going never stops. -/
theorem not_stopped_of_follows {i d : Nat}
    (h : (m.after read (i + (d + 1))).Follows (m.after read i))
    (hgoing : (m.after read (i + (d + 1))).status.isStopped = false) (k : Nat) :
    (m.after read k).status.isStopped = false := by
  induction k using Nat.strongRecOn with
  | ind k ih =>
    by_cases hk : k ≤ i + (d + 1)
    · exact not_stopped_of_le hk hgoing
    · -- One round earlier the machine was at the same point.
      obtain ⟨l, rfl⟩ := Nat.exists_eq_add_of_le (Nat.le_of_not_le hk)
      have hround := (h.after read l).stopped
      rw [← after_add, ← after_add] at hround
      rw [hround]
      exact ih (i + l) (by omega)

/-- Without a limit, a machine that is still going after as many steps as there are states never
stops. -/
theorem not_stopped_of_stateCount (hm : m.settings.stepLimit = 0)
    (hgoing : (m.after read stateCount).status.isStopped = false) (k : Nat) :
    (m.after read k).status.isStopped = false := by
  obtain ⟨i, d, hle, heq⟩ := exists_repeat fun i => parts (m.after read i).state
  rw [card_parts] at hle
  have hgoing' := not_stopped_of_le hle hgoing
  refine not_stopped_of_follows ⟨?_, ?_, ?_, parts_injective heq, ?_⟩ hgoing' k
  · rw [after_program, after_program]
  · rw [after_settings, hm]
  · rw [after_settings, hm]
  · rw [hgoing', not_stopped_of_le (Nat.le_add_right i _) hgoing']

/-- **The steps of a run are enough**: a machine that ever stops has stopped by then. -/
theorem isStopped_after_enough {k : Nat} (h : (m.after read k).status.isStopped = true) :
    (m.after read m.enough).status.isStopped = true := by
  by_cases hlimit : m.settings.stepLimit = 0
  · by_contra hgoing
    have hgoing : (m.after read m.enough).status.isStopped = false := by simpa using hgoing
    rw [enough, if_pos hlimit] at hgoing
    rw [not_stopped_of_stateCount hlimit (not_stopped_of_le (Nat.le_succ _) hgoing)] at h
    cases h
  · obtain ⟨m', hm'⟩ := Option.isSome_iff_exists.mp (run_isSome_of_limit read hlimit)
    obtain ⟨rfl, hstopped⟩ := runFor_eq_some_iff.mp hm'
    exact hstopped

/-- **A run has a result if and only if the machine stops at some point of its course**, and that
point is the result. -/
theorem run_eq_some_iff {m' : Machine} :
    m.run read = some m' ↔ ∃ k, m.after read k = m' ∧ m'.status.isStopped = true := by
  rw [run, runFor_eq_some_iff]
  constructor
  · exact fun h => ⟨_, h⟩
  · rintro ⟨k, rfl, hstopped⟩
    exact ⟨after_eq_of_stopped (isStopped_after_enough hstopped) hstopped, hstopped⟩

end

end Machine

theorem interpret_eq_some_iff {settings : Settings} {read : Reader} {program : Program}
    {initial : State} {r : RunResult} : interpret settings read program initial = some r ↔
      ∃ k, let m := (({ settings } : Machine).load program initial).after read k
        m.status.isStopped = true ∧ m.result = r := by
  rw [interpret, Option.map_eq_some_iff]
  constructor
  · rintro ⟨m, hm, rfl⟩
    obtain ⟨k, rfl, hstopped⟩ := Machine.run_eq_some_iff.mp hm
    exact ⟨k, hstopped, rfl⟩
  · rintro ⟨k, hstopped, rfl⟩
    exact ⟨_, Machine.run_eq_some_iff.mpr ⟨k, rfl, hstopped⟩, rfl⟩

end RegisterMachine
