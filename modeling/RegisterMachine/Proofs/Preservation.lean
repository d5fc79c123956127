/-
# Bytecode keeps the meaning of a program

A program that is assembled, written to a file, and read back from it may
differ from what was assembled: an addition of 0 comes back as `mv` or as `nop`
(`Instruction.normal`), and no statement knows where it was read. It is carried
out in the same way, though: an addition of 0 has the overflow flag clear and
the zero flag of what it copies, as `mv` has, and on register 0 alone it does
no more than `nop`, which resets the flags.

So two machines with these programs that are in the same state stay so
(`Machine.Alike.step`), and their runs end after the same number of steps, in
the same state and with the same trap (`Machine.Alike.runFor`). Their traces
differ, since a trace shows statements; `RunResult.ending` is the rest of a
result.

Key definitions: `RunResult.ending`, `Statement.ActsAs`, `Machine.Alike`.
Key theorems: `Instruction.execute_normal`, `Machine.Alike.step`,
`Machine.Alike.runFor`, `interpret_of_actsAs`.
-/
import RegisterMachine.Proofs.Loading
import RegisterMachine.Proofs.Stepping

namespace RegisterMachine

/-- How a run ends, whatever it has traced: the state, the steps made, and the trap. -/
def RunResult.ending (r : RunResult) : State × UInt64 × Option Trap := (r.state, r.steps, r.trap)

/-! ### Normal forms act alike -/

/-- The two statements do the same in every state. -/
def Statement.ActsAs (s t : Statement) : Prop := ∀ state, s.execute state = t.execute state

namespace Instruction

/-- A copy of register 0 to itself is lost, and resets the flags. -/
theorem execute_copy (rd rs : Register) (s : State) :
    (copy rd rs).execute s = (move rd rs).execute s := by
  unfold copy
  split
  · rename_i hzero
    obtain ⟨rfl, rfl⟩ := hzero
    simp [execute, State.commit, State.resetFlags]
  · rfl

theorem execute_normal (i : Instruction) (s : State) : i.normal.execute s = i.execute s := by
  cases i with
  | move rd rs => exact execute_copy rd rs s
  | withImmediate f rd rs value =>
    rw [normal]
    split
    · rename_i hzero
      obtain ⟨rfl, rfl⟩ := hzero
      have hno : ¬ (s.registers.get rs).toNat > 255 := by
        have := (s.registers.get rs).toNat_lt
        omega
      rw [execute_copy]
      simp [execute, Immediate.toBinary, Binary.apply, hno]
    · rfl
  | _ => rfl

end Instruction

theorem Program.Means.actsAs_normal : ∀ {p : Program} {is : List Instruction}, p.Means is →
    List.Forall₂ Statement.ActsAs p (is.map fun i => i.normal.statement)
  | _, _, .nil => .nil
  | _, _, .cons hs h => by
    have hi := Instruction.fits_normal hs.2
    refine .cons (fun state => ?_) (actsAs_normal h)
    rw [hs.execute_eq, (Statement.means_statement hi).execute_eq, Instruction.execute_normal]

/-! ### Machines in lock step -/

namespace Machine

/-- The machines are in the same state, and their programs act alike. They may have traced
different things. -/
structure Alike (m n : Machine) : Prop where
  program : List.Forall₂ Statement.ActsAs m.program.toList n.program.toList
  settings : m.settings = n.settings
  state : m.state = n.state
  status : m.status = n.status
  count : m.count = n.count

namespace Alike

/-- Machines that are alike trap for the same cause, or fetch statements that act alike. -/
theorem fetch {m n : Machine} (h : m.Alike n) :
    (∃ cause, m.fetch = .error cause ∧ n.fetch = .error cause) ∨
      ∃ s t, m.fetch = .ok s ∧ n.fetch = .ok t ∧ s.ActsAs t := by
  rcases getElem?_of_forall₂ h.program m.state.pc.toNat with ⟨hs, ht⟩ | ⟨s, t, hs, ht, hst⟩
  · rw [Array.getElem?_toList] at hs ht
    refine Or.inl ⟨.outOfBounds m.state.pc, ?_, ?_⟩
    · rw [Machine.fetch, hs]
    · rw [Machine.fetch, ← h.state, ht]
  · rw [Array.getElem?_toList] at hs ht
    rw [Machine.fetch, Machine.fetch, hs, ← h.state, ht, ← h.settings, ← h.count]
    by_cases hlimit : m.settings.stepLimit ≠ 0 ∧ m.count ≥ m.settings.stepLimit
    · exact Or.inl ⟨.stepLimit m.settings.stepLimit, if_pos hlimit, if_pos hlimit⟩
    · exact Or.inr ⟨s, t, if_neg hlimit, if_neg hlimit, hst⟩

theorem stop {m n : Machine} (h : m.Alike n) (cause : TrapCause) :
    (m.stop cause).Alike (n.stop cause) :=
  ⟨h.program, h.settings, h.state, rfl, h.count⟩

theorem carryOut {m n : Machine} (h : m.Alike n) {s t : Statement} (hst : s.ActsAs t) :
    (m.carryOut s).Alike (n.carryOut t) := by
  have hexecute : t.execute n.state = s.execute m.state := by rw [← h.state, hst]
  unfold Machine.carryOut
  simp only [hexecute]
  cases (s.execute m.state).verdict with
  | trap cause => exact h.stop cause
  | halt => exact ⟨h.program, h.settings, rfl, rfl, congrArg (· + 1) h.count⟩
  | next pc => exact ⟨h.program, h.settings, rfl, rfl, congrArg (· + 1) h.count⟩

/-- **Machines that are alike stay so.** -/
theorem step {m n : Machine} (h : m.Alike n) (read : Reader) :
    (m.step read).Alike (n.step read) := by
  unfold Machine.step
  rw [← h.status]
  split
  · exact h
  · rcases h.fetch with ⟨cause, hm, hn⟩ | ⟨s, t, hm, hn, hst⟩
    · rw [hm, hn]
      exact h.stop cause
    · rw [hm, hn]
      have htraced : (m.traced read s).Alike (n.traced read t) :=
        ⟨h.program, h.settings, h.state, h.status, h.count⟩
      exact htraced.carryOut hst

theorem ending_eq {m n : Machine} (h : m.Alike n) : m.result.ending = n.result.ending := by
  simp only [result, RunResult.ending, trap?, h.state, h.status, h.count]

theorem runFor {m n : Machine} (h : m.Alike n) (read : Reader) (fuel : Nat) :
    (m.runFor read fuel).map (·.result.ending) = (n.runFor read fuel).map (·.result.ending) := by
  induction fuel generalizing m n with
  | zero =>
    rw [Machine.runFor, Machine.runFor, ← h.status]
    split
    · simp only [Option.map_some, h.ending_eq]
    · rfl
  | succ fuel ih =>
    rw [Machine.runFor, Machine.runFor, ← h.status]
    split
    · simp only [Option.map_some, h.ending_eq]
    · exact ih (h.step read)

end Alike

theorem alike_load {p q : Program} (h : List.Forall₂ Statement.ActsAs p q) (m : Machine)
    (initial : State) : (m.load p initial).Alike (m.load q initial) :=
  ⟨h, rfl, rfl, rfl, rfl⟩

end Machine

theorem interpret_of_actsAs {p q : Program} (h : List.Forall₂ Statement.ActsAs p q)
    (settings : Settings) (read : Reader) (initial : State) :
    (interpret settings read p initial).map RunResult.ending =
      (interpret settings read q initial).map RunResult.ending := by
  have halike := Machine.alike_load h { settings } initial
  have henough : (({ settings } : Machine).load q initial).enough =
      (({ settings } : Machine).load p initial).enough := rfl
  have hrun := halike.runFor read (({ settings } : Machine).load p initial).enough
  rw [interpret, interpret, Option.map_map, Option.map_map, Machine.run, Machine.run, henough]
  exact hrun

/-! ### Programs and their bytecode -/

namespace Program

/-- **An assembled program is written to bytecode and read back as a program of the same length
that has the same runs**: every run of the one ends if and when the run of the other does, in the
same state, after as many steps and with the same trap. With a limit on its steps it does end. -/
theorem interpret_of_bytecode {file : UInt32} {source : Bytes} {p : Program}
    (h : assemble file source = .ok p) :
    ∃ words bytes q, p.encode = .ok words ∧ Image.toBytes { code := words } = .ok bytes ∧
      Image.ofBytes bytes = .ok { code := words } ∧ Word.decodeAll words = .ok q ∧
      q.length = p.length ∧
      ∀ (settings : Settings) (read : Reader) (initial : State),
        (∀ fuel,
          ((({ settings } : Machine).load q initial).runFor read fuel).map (·.result.ending) =
            ((({ settings } : Machine).load p initial).runFor read fuel).map (·.result.ending)) ∧
        (interpret settings read q initial).map RunResult.ending =
          (interpret settings read p initial).map RunResult.ending ∧
        (settings.stepLimit ≠ 0 → (interpret settings read p initial).isSome = true) := by
  obtain ⟨⟨is, hmeans⟩, hlength⟩ := means_of_assemble h
  have hwritable := Means.writable hmeans hlength
  have hactsAs := Means.actsAs_normal hmeans
  have hdecode : Word.decodeAll (is.map Instruction.word) =
      .ok (is.map fun i => i.normal.statement) := Word.decodeFrom_map_word 0 (Means.fits hmeans)
  refine ⟨_, _, _, encode_of_means hmeans, Image.toBytes_of_writable hwritable,
    Image.ofBytes_layout hwritable, hdecode, hactsAs.length_eq.symm, ?_⟩
  intro settings read initial
  have hinterpret := interpret_of_actsAs hactsAs settings read initial
  refine ⟨fun fuel => ?_, hinterpret.symm, fun hlimit => ?_⟩
  · exact ((Machine.alike_load hactsAs { settings } initial).runFor read fuel).symm
  · rw [interpret, Option.isSome_map]
    exact Machine.run_isSome_of_limit read hlimit

/-- A loop with two additions of 0, which come back as `mv` and as `nop`. -/
theorem interpret_of_bytecode_of_copies :
    let source := ascii "loop: addi r1, r1, 51\n addi r2, r1, 0\n addi r0, r0, 0\n bz loop\n halt\n"
    let p : Program :=
      [{ operation := .addi, operands := [.register 1, .register 1, .immediate 51]
         location := { file := 1, line := 1, column := 7 } },
        { operation := .addi, operands := [.register 2, .register 1, .immediate 0]
          location := { file := 1, line := 2, column := 2 } },
        { operation := .addi, operands := [.register 0, .register 0, .immediate 0]
          location := { file := 1, line := 3, column := 2 } },
        { operation := .bz, operands := [.address 0]
          location := { file := 1, line := 4, column := 2 } },
        { operation := .halt, location := { file := 1, line := 5, column := 2 } }]
    let settings : Settings := { stepLimit := 1000 }
    assemble 1 source = .ok p ∧ settings.stepLimit ≠ 0 ∧
      ∃ words bytes q, p.encode = .ok words ∧ Image.toBytes { code := words } = .ok bytes ∧
        Image.ofBytes bytes = .ok { code := words } ∧ Word.decodeAll words = .ok q ∧
        q.length = p.length ∧
        (interpret settings (fun _ => none) q).map RunResult.ending =
          (interpret settings (fun _ => none) p).map RunResult.ending ∧
        (interpret settings (fun _ => none) p).isSome = true := by
  intro source p settings
  have hassemble : assemble 1 source = .ok p := by decide
  have hlimit : settings.stepLimit ≠ 0 := by decide
  obtain ⟨words, bytes, q, hwords, hbytes, himage, hq, hlength, hruns⟩ :=
    interpret_of_bytecode hassemble
  obtain ⟨-, hending, hends⟩ := hruns settings (fun _ => none) {}
  exact ⟨hassemble, hlimit, words, bytes, q, hwords, hbytes, himage, hq, hlength, hending,
    hends hlimit⟩

end Program
end RegisterMachine
