/-
# Loaded programs are safe to run

`Machine.Sound` is what a run of a loaded program keeps: the program counter is
at an instruction or just behind the last one, or at one of the 4096 addresses
that a branch can name, and the machine has not been stopped by a statement
that is no instruction. A step keeps it (`Machine.Sound.step`): the counter
goes on from an instruction, so it is below the length of the program before it
is increased, and a branch has a target of 12 bits. Hence the counter never
wraps, and the only traps are at the end of the program and at the limit.

Key definitions: `Machine.Sound`.
Key theorems: `Machine.sound_load`, `Machine.Sound.step`,
`Machine.sound_of_reaches`.
-/
import RegisterMachine.Proofs.Loading
import RegisterMachine.Proofs.Stepping

namespace RegisterMachine

namespace Machine

/-- What a run of a loaded program keeps. -/
structure Sound (m : Machine) : Prop where
  instructions : ∀ s ∈ m.program, ∃ i, s.Means i
  size_le : m.program.size ≤ maxProgramLength
  pc_le : m.state.pc.toNat ≤ maxProgramLength
  trapped : ∀ cause, m.status = .trapped cause →
    cause.kind = .pcOutOfBounds ∨ cause.kind = .stepLimitExceeded

theorem sound_load {p : Program} {is : List Instruction} (hp : p.Means is)
    (hlength : p.length ≤ maxProgramLength) (m : Machine) {initial : State}
    (hpc : initial.pc = 0) : (m.load p initial).Sound where
  instructions := fun s hs => by
    have hs : s ∈ p := by simpa [load] using hs
    exact Program.Means.exists_of_mem hp s hs
  size_le := by simpa [load] using hlength
  pc_le := by simp [load, hpc]
  trapped := fun cause h => by cases h

namespace Sound

theorem stop {m : Machine} (h : m.Sound) {cause : TrapCause} (hfetch : m.fetch = .error cause) :
    (m.stop cause).Sound where
  instructions := h.instructions
  size_le := h.size_le
  pc_le := h.pc_le
  trapped := fun other hother => by
    cases hother
    rcases fetch_eq_error hfetch with rfl | rfl
    · exact Or.inl rfl
    · exact Or.inr rfl

/-- An instruction leaves the counter behind itself or at an address of 12 bits. -/
theorem carryOut {m : Machine} (h : m.Sound) {s : Statement}
    (hs : m.program[m.state.pc.toNat]? = some s) : (m.carryOut s).Sound := by
  obtain ⟨hbelow, hmem⟩ := Array.getElem?_eq_some_iff.mp hs
  obtain ⟨i, hi⟩ := h.instructions s (hmem ▸ Array.getElem_mem hbelow)
  have hsize := h.size_le
  have hmax : maxProgramLength = 4096 := rfl
  have hinstructions : ∀ t ∈ (m.carryOut s).program, ∃ i, t.Means i := by
    rw [carryOut_program]
    exact h.instructions
  have hsize' : (m.carryOut s).program.size ≤ maxProgramLength := by
    rw [carryOut_program]
    exact hsize
  rcases carryOut_of_means (m := m) hi with ⟨hstatus, hstate⟩ | ⟨hstatus, pc, hverdict, hstate⟩
  · refine ⟨hinstructions, hsize', ?_, fun cause hcause => ?_⟩
    · rw [hstate, Instruction.execute_pc]
      exact h.pc_le
    · rw [hstatus] at hcause
      cases hcause
  · refine ⟨hinstructions, hsize', ?_, fun cause hcause => ?_⟩
    · rw [hstate]
      show pc.toNat ≤ maxProgramLength
      rcases Instruction.next_cases hi.2 hverdict with rfl | hpc
      · rw [UInt16.toNat_add]
        show (_ + 1) % _ ≤ _
        omega
      · have hpc : pc.toNat ≤ 4095 := UInt16.le_iff_toNat_le.mp hpc
        omega
    · rw [hstatus] at hcause
      cases hcause

/-- **A step keeps a machine sound.** -/
theorem step (read : Reader) (m : Machine) (h : m.Sound) : (m.step read).Sound := by
  rcases m.step_cases read with ⟨-, hstep⟩ | ⟨-, cause, hfetch, hstep⟩ | ⟨-, s, hfetch, hstep⟩
  · rw [hstep]
    exact h
  · rw [hstep]
    exact h.stop hfetch
  · have htraced : (m.traced read s).Sound := ⟨h.instructions, h.size_le, h.pc_le, h.trapped⟩
    rw [hstep]
    exact htraced.carryOut (fetch_eq_ok hfetch).1

theorem toNat_succ_pc {m : Machine} (h : m.Sound) :
    (m.state.pc + 1).toNat = m.state.pc.toNat + 1 := by
  have hpc := h.pc_le
  have hmax : maxProgramLength = 4096 := rfl
  rw [UInt16.toNat_add]
  show (_ + 1) % _ = _
  omega

theorem kind_of_trap? {m : Machine} (h : m.Sound) :
    ∀ t ∈ m.trap?, t.kind = .pcOutOfBounds ∨ t.kind = .stepLimitExceeded := by
  intro t ht
  unfold trap? at ht
  split at ht
  · rename_i cause hcause
    cases ht
    exact h.trapped cause hcause
  · cases ht

end Sound

theorem sound_of_reaches {m m' : Machine} (h : m.Sound) (hreaches : m.Reaches m') : m'.Sound :=
  hreaches.invariant Sound.step h

end Machine

/-- **A loaded program can be encoded, and no run of it leaves the addresses or trips over a
statement.** -/
theorem Program.Loaded.safe {p : Program} (h : p.Loaded) :
    p.length ≤ 4096 ∧ (∃ words, p.encode = .ok words) ∧
      ∀ (m₀ : Machine) (initial : State), initial.pc = 0 →
        ∀ m, (m₀.load p initial).Reaches m →
          m.state.pc.toNat ≤ 4096 ∧ (m.state.pc + 1).toNat = m.state.pc.toNat + 1 ∧
            ∀ t ∈ m.trap?, t.kind = .pcOutOfBounds ∨ t.kind = .stepLimitExceeded := by
  obtain ⟨⟨is, hmeans⟩, hlength⟩ := h.means
  refine ⟨hlength, ⟨_, encode_of_means hmeans⟩, fun m₀ initial hpc m hreaches => ?_⟩
  have hsound := Machine.sound_of_reaches (Machine.sound_load hmeans hlength m₀ hpc) hreaches
  exact ⟨hsound.pc_le, hsound.toNat_succ_pc, hsound.kind_of_trap?⟩

/-- A loop that counts down, after its first step. -/
theorem Program.Loaded.safe_of_countdown :
    let p : Program :=
      [{ operation := .addi, operands := [.register 1, .register 1, .immediate 255]
         location := { file := 1, line := 1, column := 7 } },
        { operation := .bnz, operands := [.address 0]
          location := { file := 1, line := 2, column := 2 } }]
    let initial : State := { registers := Registers.set {} 1 2 }
    let m := (({} : Machine).load p initial).step fun _ => none
    p.Loaded ∧ initial.pc = 0 ∧ (({} : Machine).load p initial).Reaches m ∧
      p.length ≤ 4096 ∧ (∃ words, p.encode = .ok words) ∧
      m.state.pc.toNat ≤ 4096 ∧ (m.state.pc + 1).toNat = m.state.pc.toNat + 1 ∧
      ∀ t ∈ m.trap?, t.kind = .pcOutOfBounds ∨ t.kind = .stepLimitExceeded := by
  intro p initial m
  have hassemble : assemble 1 (ascii "loop: addi r1, r1, -1\n bnz loop\n") = .ok p := by decide
  have hloaded : p.Loaded := .assembled hassemble
  have hreaches : (({} : Machine).load p initial).Reaches m := .step _ .refl
  obtain ⟨hlength, hencode, hruns⟩ := hloaded.safe
  exact ⟨hloaded, rfl, hreaches, hlength, hencode, hruns {} initial rfl m hreaches⟩

end RegisterMachine
