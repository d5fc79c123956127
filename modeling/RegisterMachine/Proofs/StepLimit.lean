/-
# A limit cuts a run and does not change it

The limit on the number of steps is looked at in one place, when a statement is
fetched, and nothing is kept of it but the trap. So for `n` steps a machine with
the limit `n` takes the course of the one without (`Machine.after_withLimit`).
Then three things can be (`Machine.run_withLimit_cases`). The machine has
stopped within these steps. Or its counter has left the program: that is found
before the limit is looked at, and is a trap of both machines. Or there is a
statement to carry out, and the limit is reached.

`Status.EndsWithin` says which ends of an unlimited run fall under the first
two, and `Machine.StopsWithin` that a course has come to one of them. A halt
counts as an instruction and a statement that is no instruction does not, so as
the last of `n` instructions a halt is in time, and a statement that traps
behind `n` instructions is not.

Key definitions: `Status.EndsWithin`, `Machine.withLimit`,
`Machine.StopsWithin`.
Key theorems: `Machine.step_withLimit`, `Machine.after_withLimit`,
`Machine.going_or_stopsWithin`, `Machine.run_withLimit_cases`,
`interpret_of_stepLimit`.
-/
import RegisterMachine.Proofs.Attempts

namespace RegisterMachine

/-- The run has ended like this with so many instructions carried out, and a limit of `n` steps would
not have kept it from that. -/
def Status.EndsWithin (status : Status) (executed n : Nat) : Prop :=
  match status with
  | .ready | .running => False
  | .halted | .trapped (.outOfBounds _) => executed ≤ n
  | .trapped (.malformed _ _) => executed < n
  | .trapped (.stepLimit _) => False

namespace Status.EndsWithin

variable {status : Status} {executed k n : Nat}

instance : Decidable (status.EndsWithin executed n) :=
  match status with
  | .ready | .running | .trapped (.stepLimit _) => inferInstanceAs (Decidable False)
  | .halted | .trapped (.outOfBounds _) => inferInstanceAs (Decidable (executed ≤ n))
  | .trapped (.malformed _ _) => inferInstanceAs (Decidable (executed < n))

theorem isStopped (h : status.EndsWithin executed n) : status.isStopped = true := by
  unfold EndsWithin at h
  split at h
  · exact h.elim
  · exact h.elim
  all_goals rfl

theorem le (h : status.EndsWithin executed n) : executed ≤ n := by
  unfold EndsWithin at h
  split at h
  · exact h.elim
  · exact h.elim
  · exact h
  · exact h
  · exact Nat.le_of_lt h
  · exact h.elim

theorem mono (h : status.EndsWithin executed k) (hkn : k ≤ n) : status.EndsWithin executed n := by
  unfold EndsWithin at *
  split at h
  · exact h.elim
  · exact h.elim
  · exact Nat.le_trans h hkn
  · exact Nat.le_trans h hkn
  · exact Nat.lt_of_lt_of_le h hkn
  · exact h.elim

end Status.EndsWithin

namespace Machine

/-- The machine with a limit on its steps. -/
def withLimit (m : Machine) (limit : UInt64) : Machine :=
  { m with settings := { m.settings with stepLimit := limit } }

/-- After `k` steps the machine has stopped, and a limit of `n` steps would not have kept it from
getting there. -/
def StopsWithin (read : Reader) (m : Machine) (k n : Nat) : Prop :=
  (m.after read k).status.EndsWithin (m.executed read k) n

instance (read : Reader) (m : Machine) (k n : Nat) : Decidable (m.StopsWithin read k n) :=
  inferInstanceAs (Decidable (Status.EndsWithin _ _ _))

namespace StopsWithin

variable {read : Reader} {m : Machine} {k l n : Nat}

theorem isStopped (h : m.StopsWithin read k n) : (m.after read k).status.isStopped = true :=
  Status.EndsWithin.isStopped h

theorem le (h : m.StopsWithin read k n) : m.executed read k ≤ n := Status.EndsWithin.le h

theorem mono (h : m.StopsWithin read k l) (hln : l ≤ n) : m.StopsWithin read k n :=
  Status.EndsWithin.mono h hln

theorem later (h : m.StopsWithin read k n) (hkl : k ≤ l) : m.StopsWithin read l n := by
  rw [StopsWithin, after_of_le h.isStopped hkl, executed_of_le h.isStopped hkl]
  exact h

end StopsWithin

/-! ### The limit is not felt before it is reached -/

theorem carryOut_withLimit (m : Machine) (n : UInt64) (s : Statement) :
    (m.withLimit n).carryOut s = (m.carryOut s).withLimit n := by
  have hexecute : s.execute (m.withLimit n).state = s.execute m.state := rfl
  cases h : (s.execute m.state).verdict with
  | trap cause =>
    rw [carryOut_of_trap h, carryOut_of_trap (hexecute ▸ h)]
    rfl
  | halt =>
    rw [carryOut_of_halt h, carryOut_of_halt (hexecute ▸ h)]
    rfl
  | next pc =>
    rw [carryOut_of_next h, carryOut_of_next (hexecute ▸ h)]
    rfl

/-- Where as many instructions are carried out as the limit allows, no statement is fetched. -/
theorem fetch_withLimit_of_ok {m : Machine} {s : Statement} (h : m.fetch = .ok s) {n : UInt64}
    (hn : n ≠ 0) (hcount : n ≤ m.count) : (m.withLimit n).fetch = .error (.stepLimit n) := by
  have hlookup : (m.withLimit n).program[(m.withLimit n).state.pc.toNat]? = some s :=
    (fetch_eq_ok h).1
  rw [fetch, hlookup]
  exact if_pos ⟨hn, hcount⟩

section

variable {m : Machine} (hm : m.settings.stepLimit = 0)
include hm

theorem fetch_unlimited : m.fetch =
    match m.program[m.state.pc.toNat]? with
    | none => .error (.outOfBounds m.state.pc)
    | some s => .ok s := by
  have hnone : ¬ (m.settings.stepLimit ≠ 0 ∧ m.count ≥ m.settings.stepLimit) :=
    fun hn => hn.1 hm
  rw [fetch]
  cases m.program[m.state.pc.toNat]? with
  | none => rfl
  | some s => exact if_neg hnone

theorem fetch_withLimit {n : UInt64} (h : m.count < n) : (m.withLimit n).fetch = m.fetch := by
  have hlimit : ¬ (n ≠ 0 ∧ m.count ≥ n) := fun hn => UInt64.not_le.mpr h hn.2
  rw [fetch_unlimited hm, fetch]
  show (match m.program[m.state.pc.toNat]? with | none => _ | some s => _) = _
  cases m.program[m.state.pc.toNat]? with
  | none => rfl
  | some s => exact if_neg hlimit

/-- Behind the end of the program the limit is not looked at. -/
theorem fetch_withLimit_of_error {cause : TrapCause} (h : m.fetch = .error cause) (n : UInt64) :
    cause = .outOfBounds m.state.pc ∧ (m.withLimit n).fetch = .error cause := by
  rw [fetch_unlimited hm] at h
  cases hlookup : m.program[m.state.pc.toNat]? with
  | some s =>
    rw [hlookup] at h
    cases h
  | none =>
    have hlookup' : (m.withLimit n).program[(m.withLimit n).state.pc.toNat]? = none := hlookup
    rw [hlookup] at h
    cases h
    refine ⟨rfl, ?_⟩
    rw [fetch, hlookup']
    rfl

theorem step_withLimit (read : Reader) {n : UInt64} (h : m.count < n) :
    (m.withLimit n).step read = (m.step read).withLimit n := by
  cases hstopped : m.status.isStopped with
  | true =>
    have hstopped' : (m.withLimit n).status.isStopped = true := hstopped
    rw [step_of_stopped read hstopped, step_of_stopped read hstopped']
  | false =>
    have hgoing : ¬ m.status.isStopped = true := by simp [hstopped]
    have hgoing' : ¬ (m.withLimit n).status.isStopped = true := hgoing
    rw [step, step, if_neg hgoing, if_neg hgoing', fetch_withLimit hm h]
    cases m.fetch with
    | error cause => rfl
    | ok s => exact carryOut_withLimit (m.traced read s) n s

/-! ### How a course without a limit ends -/

/-- A step of a machine without a limit finds no statement, or one that is no instruction, and the
machine traps; or it carries out an instruction, and the machine halts or goes on. -/
theorem step_unlimited_cases (read : Reader) (hgoing : m.status.isStopped = false) :
    (∃ pc, m.fetch = .error (.outOfBounds pc) ∧ m.attempt? = none ∧
        m.step read = m.stop (.outOfBounds pc)) ∨
      ∃ a, m.fetch = .ok a.statement ∧ m.attempt? = some a ∧
        ((∃ fault, (m.step read).status = .trapped (.malformed a.statement fault)) ∧
            a.isCarriedOut = false ∨
          (m.step read).status = .halted ∧ a.isCarriedOut = true ∨
          (m.step read).status = .running ∧ a.isCarriedOut = true) := by
  rcases m.step_attempt_cases read with
    ⟨-, hstopped, -⟩ | ⟨hnone, -, cause, hfetch, hstep⟩ | ⟨s, hsome, -, hfetch, hstep⟩
  · rw [hgoing] at hstopped
    cases hstopped
  · obtain ⟨rfl, -⟩ := fetch_withLimit_of_error hm hfetch 0
    exact Or.inl ⟨_, hfetch, hnone, hstep⟩
  · let a : Attempt := { state := m.state, statement := s }
    have hstate : (m.traced read s).state = a.state := rfl
    refine Or.inr ⟨a, hfetch, hsome, ?_⟩
    rw [hstep]
    rcases carryOut_cases hstate with
      ⟨fault, -, ha, hcarryOut⟩ | ⟨ha, ⟨-, hcarryOut⟩ | ⟨pc, -, hcarryOut⟩⟩
    · exact Or.inl ⟨⟨fault, congrArg status hcarryOut⟩, ha⟩
    · exact Or.inr (Or.inl ⟨congrArg status hcarryOut, ha⟩)
    · exact Or.inr (Or.inr ⟨congrArg status hcarryOut, ha⟩)

/-- After `k` steps a machine is going and has carried out `k` instructions, or it has stopped and
a limit of `k` steps would not have kept it from that. -/
theorem going_or_stopsWithin (hgoing : m.status.isStopped = false) (read : Reader) (k : Nat) :
    ((m.after read k).status.isStopped = false ∧ m.executed read k = k) ∨
      m.StopsWithin read k k := by
  induction k with
  | zero => exact Or.inl ⟨hgoing, rfl⟩
  | succ k ih =>
    rcases ih with ⟨hk, hexecuted⟩ | hk
    · have hunlimited : (m.after read k).settings.stepLimit = 0 := by rw [after_settings, hm]
      rcases step_unlimited_cases hunlimited read hk with
        ⟨pc, -, hnone, hstep⟩ | ⟨a, -, hsome, ⟨⟨fault, hstatus⟩, ha⟩ | ⟨hstatus, ha⟩ | ⟨hstatus, ha⟩⟩
      · refine Or.inr ?_
        rw [StopsWithin, after_succ, hstep, executed_of_none hnone]
        show m.executed read k ≤ k + 1
        omega
      · refine Or.inr ?_
        rw [StopsWithin, after_succ, hstatus, executed_of_some hsome, ha]
        show m.executed read k + 0 < k + 1
        omega
      · refine Or.inr ?_
        rw [StopsWithin, after_succ, hstatus, executed_of_some hsome, ha]
        show m.executed read k + 1 ≤ k + 1
        omega
      · rw [after_succ, hstatus, executed_of_some hsome, ha, hexecuted]
        exact Or.inl ⟨rfl, rfl⟩
    · exact Or.inr ((hk.later (Nat.le_succ k)).mono (Nat.le_succ k))

/-- A machine that has a statement to carry out after `n` instructions stops within no limit of `n`
steps. -/
theorem not_stopsWithin_of_fetch (hgoing : m.status.isStopped = false) (read : Reader) {n : Nat}
    (hn : (m.after read n).status.isStopped = false) {s : Statement}
    (hfetch : (m.after read n).fetch = .ok s) (k : Nat) : ¬ m.StopsWithin read k n := by
  intro h
  have hunlimited : (m.after read n).settings.stepLimit = 0 := by rw [after_settings, hm]
  have hexecuted : m.executed read n = n := by
    rcases going_or_stopsWithin hm hgoing read n with ⟨-, hexecuted⟩ | hstops
    · exact hexecuted
    · rw [hstops.isStopped] at hn
      cases hn
  -- The machine stops after `n` steps, so it has made step `n + 1`.
  have hlt : n + 1 ≤ k := by
    by_contra hle
    have hk := not_stopped_of_le (by omega : k ≤ n) hn
    rw [h.isStopped] at hk
    cases hk
  have hmono := executed_mono read m hlt
  have hle := h.le
  rcases step_unlimited_cases hunlimited read hn with
    ⟨pc, herror, -, -⟩ | ⟨a, -, hsome, ⟨⟨fault, hstatus⟩, ha⟩ | ⟨-, ha⟩ | ⟨-, ha⟩⟩
  · rw [hfetch] at herror
    cases herror
  · rw [← after_succ] at hstatus
    have hstopped : (m.after read (n + 1)).status.isStopped = true := by rw [hstatus]; rfl
    rw [StopsWithin, after_of_le hstopped hlt, hstatus] at h
    have hlt' : m.executed read k < n := h
    rw [executed_of_some hsome] at hmono
    omega
  · rw [executed_of_some hsome, ha, if_pos rfl] at hmono
    omega
  · rw [executed_of_some hsome, ha, if_pos rfl] at hmono
    omega

section

variable (hready : m.status = .ready) (hcount : m.count = 0)
include hready hcount

theorem after_withLimit (read : Reader) {n : UInt64} {k : Nat} (h : k ≤ n.toNat) :
    (m.withLimit n).after read k = (m.after read k).withLimit n := by
  induction k with
  | zero => rfl
  | succ k ih =>
    have hexecuted : m.executed read k < n.toNat := (m.executed_le read k).trans_lt h
    have hlt : (m.after read k).count < n := by
      rwa [UInt64.lt_iff_toNat_lt, toNat_count_after hready hcount read hexecuted.le]
    rw [after_succ, after_succ, ih (Nat.le_of_succ_le h)]
    exact step_withLimit (by rw [after_settings, hm]) read hlt

/-- **With a limit, a run ends where the course without it does if that is soon enough, and
otherwise after as many instructions as are allowed.** -/
theorem run_withLimit_cases (read : Reader) {n : UInt64} (hn : n ≠ 0) :
    (∃ k, m.StopsWithin read k n.toNat ∧
        (m.withLimit n).run read = some ((m.after read k).withLimit n)) ∨
      ((∀ k, ¬ m.StopsWithin read k n.toNat) ∧ m.executed read n.toNat = n.toNat ∧
        (m.after read n.toNat).count = n ∧ (m.after read n.toNat).status.isStopped = false ∧
        (m.withLimit n).run read =
          some (((m.after read n.toNat).withLimit n).stop (.stepLimit n))) := by
  have hgoing : m.status.isStopped = false := by rw [hready]; rfl
  have hafter := after_withLimit hm hready hcount read (Nat.le_refl n.toNat)
  have hunlimited : (m.after read n.toNat).settings.stepLimit = 0 := by rw [after_settings, hm]
  rcases going_or_stopsWithin hm hgoing read n.toNat with ⟨hgoingn, hexecuted⟩ | hstops
  · have hgoing' : ¬ (m.after read n.toNat).status.isStopped = true := by simp [hgoingn]
    have hgoing'' : ¬ ((m.after read n.toNat).withLimit n).status.isStopped = true := hgoing'
    cases hfetch : (m.after read n.toNat).fetch with
    | error cause =>
      obtain ⟨rfl, hfetch'⟩ := fetch_withLimit_of_error hunlimited hfetch n
      have hnone : (m.after read n.toNat).attempt? = none := by
        rw [attempt?, if_neg hgoing', hfetch]
      have hstep : m.after read (n.toNat + 1) =
          (m.after read n.toNat).stop (.outOfBounds (m.after read n.toNat).state.pc) := by
        rw [after_succ, step, if_neg hgoing', hfetch]
      have hstep' : (m.withLimit n).after read (n.toNat + 1) =
          (m.after read (n.toNat + 1)).withLimit n := by
        rw [after_succ, hafter, hstep, step, if_neg hgoing'', hfetch']
        rfl
      refine Or.inl ⟨n.toNat + 1, ?_, run_eq_some_iff.mpr ⟨n.toNat + 1, hstep', ?_⟩⟩
      · rw [StopsWithin, hstep, executed_of_none hnone]
        exact Nat.le_of_eq hexecuted
      · rw [hstep]
        rfl
    | ok s =>
      have hcountn : (m.after read n.toNat).count = n := by
        rw [← UInt64.toNat_inj, toNat_count_after hready hcount read hexecuted.le, hexecuted]
      refine Or.inr ⟨not_stopsWithin_of_fetch hm hgoing read hgoingn hfetch, hexecuted, hcountn,
        hgoingn, run_eq_some_iff.mpr ⟨n.toNat + 1, ?_, rfl⟩⟩
      rw [after_succ, hafter, step, if_neg hgoing'',
        fetch_withLimit_of_ok hfetch hn (UInt64.le_of_eq hcountn.symm)]
  · exact Or.inl ⟨n.toNat, hstops, run_eq_some_iff.mpr ⟨n.toNat, hafter, hstops.isStopped⟩⟩

end

end

end Machine

/-- **A limit cuts an execution and does not change it otherwise.** With a limit of `n` steps a run
ends, after at most `n` instructions. If the execution without a limit halts or leaves the program
after at most `n` instructions, or traps at a statement after fewer, the result is the one without a
limit. Otherwise, also if it goes on for ever, the run ends with the trap of the limit, in the
state that the execution without one has after `n` instructions. -/
theorem interpret_of_stepLimit (settings : Settings) (read : Reader) (program : Program)
    (initial : State) {n : UInt64} (hn : 1 ≤ n) :
    let unlimited : Settings := { settings with stepLimit := 0 }
    let limited : Settings := { settings with stepLimit := n }
    let start := ({ settings := unlimited } : Machine).load program initial
    let start' := ({ settings := limited } : Machine).load program initial
    ∃ r, interpret limited read program initial = some r ∧ r.steps ≤ n ∧
      (∀ k, start'.executed read k ≤ n.toNat ∧
        (start'.after read k).count.toNat = start'.executed read k) ∧
      (∀ k, start.StopsWithin read k n.toNat →
        r = (start.after read k).result ∧ interpret unlimited read program initial = some r) ∧
      ((∀ k, ¬ start.StopsWithin read k n.toNat) →
        start.executed read n.toNat = n.toNat ∧
          (start.after read n.toNat).status.isStopped = false ∧
          r = {
            state := (start.after read n.toNat).state
            steps := n
            trap := some {
              kind := .stepLimitExceeded
              pc := (start.after read n.toNat).state.pc
              message := ascii "step limit of " ++ Numeral.decimal n.toNat ++ ascii " reached" }
            trace := (start.after read n.toNat).traceText }) := by
  intro unlimited limited start start'
  have hne : n ≠ 0 := by
    rintro rfl
    exact absurd hn (by decide)
  have hcounts (k : Nat) : start'.executed read k ≤ n.toNat ∧
      (start'.after read k).count.toNat = start'.executed read k := by
    have hattempted : (start'.after read k).Attempted initial (start'.attempts read k) :=
      Machine.attempted_after rfl rfl read k
    have hsettings : (start'.after read k).settings.stepLimit = n := by
      rw [start'.after_settings read k]
      rfl
    have hlimited := hattempted.limited
    rw [hsettings] at hlimited
    exact ⟨hlimited hne, hattempted.toNat_count (Or.inl (by rwa [hsettings]))⟩
  have hinterpret : interpret limited read program initial =
      ((start.withLimit n).run read).map (·.result) := rfl
  rw [hinterpret]
  rcases Machine.run_withLimit_cases (m := start) rfl rfl rfl read hne with
    ⟨k, hstops, hrun⟩ | ⟨hnever, hexecuted, hcount, hgoing, hrun⟩
  · refine ⟨(start.after read k).result, by rw [hrun]; rfl, ?_, hcounts, fun l hl => ?_,
      fun h => absurd hstops (h k)⟩
    · have hcount : (start.after read k).count.toNat = start.executed read k :=
        Machine.toNat_count_after rfl rfl read hstops.le
      rw [UInt64.le_iff_toNat_le]
      exact hcount.trans_le hstops.le
    · rw [Machine.after_eq_of_stopped hl.isStopped hstops.isStopped]
      exact ⟨rfl, interpret_eq_some_iff.mpr ⟨k, hstops.isStopped, rfl⟩⟩
  · refine ⟨_, by rw [hrun]; rfl, UInt64.le_of_eq hcount, hcounts, fun k hk => absurd hk (hnever k),
      fun _ => ⟨hexecuted, hgoing, ?_⟩⟩
    show RunResult.mk (start.after read n.toNat).state (start.after read n.toNat).count _ _ = _
    rw [hcount]
    rfl

/-- With a limit of two steps a halt as the second instruction is in time, and a statement behind
two instructions that is none is too late. -/
theorem interpret_of_stepLimit_of_two :
    let halting : Program := [{ operation := .nop }, { operation := .halt }]
    let broken : Program := [{ operation := .nop }, { operation := .nop }, { operation := .add }]
    let read : Reader := fun _ => none
    let limit : UInt64 := 2
    1 ≤ limit ∧ (({} : Machine).load halting).StopsWithin read 2 2 ∧
      (∃ r, interpret { stepLimit := 2 } read halting = some r ∧ r.trap = none ∧ r.steps = 2 ∧
        interpret {} read halting = some r) ∧
      (∀ k, ¬ (({} : Machine).load broken).StopsWithin read k 2) ∧
      ∃ r, interpret { stepLimit := 2 } read broken = some r ∧ r.steps = 2 ∧
        r.trap = some {
          kind := .stepLimitExceeded
          pc := 2
          message := ascii "step limit of 2 reached" } := by
  intro halting broken read limit
  have hlimit : 1 ≤ limit := by decide
  have hhalts : (({} : Machine).load halting).StopsWithin read 2 2 := by decide
  have hnever : ∀ k, ¬ (({} : Machine).load broken).StopsWithin read k 2 := by
    intro k hk
    by_cases hle : 3 ≤ k
    · have hstopped : ((({} : Machine).load broken).after read 3).status.isStopped = true := by
        decide
      rw [Machine.StopsWithin, Machine.after_of_le hstopped hle,
        Machine.executed_of_le hstopped hle] at hk
      revert hk
      decide
    · obtain rfl | rfl | rfl : k = 0 ∨ k = 1 ∨ k = 2 := by omega
      all_goals
        revert hk
        decide
  obtain ⟨r, hr, -, -, hsame, -⟩ := interpret_of_stepLimit {} read halting {} hlimit
  obtain ⟨hresult, hunlimited⟩ := hsame 2 hhalts
  obtain ⟨q, hq, -, -, -, hlate⟩ := interpret_of_stepLimit {} read broken {} hlimit
  obtain ⟨-, -, hcut⟩ := hlate hnever
  refine ⟨hlimit, hhalts, ⟨r, hr, ?_, ?_, hunlimited⟩, hnever, q, hq, ?_, ?_⟩
  · rw [hresult]
    decide
  · rw [hresult]
    decide
  · rw [hcut]
  · rw [hcut]
    decide

end RegisterMachine
