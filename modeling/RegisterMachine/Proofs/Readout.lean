/-
# A result can be read off what is shown of it

What is shown of a result is twenty lines: the program counter, the two flags as
0 or 1, the registers from `r0` to `r15`, and the number of steps, each with the
value in decimal behind its name (`State.ShownBy`, `RunResult.shownBy_lines`).
No other lines show the same (`State.ShownBy.lines_eq`).

Nothing is lost. No line holds a line end, so the text is cut into its lines
again, and a value is found behind the name on its line. Results that are shown
in the same way have the same state and the same number of steps
(`RunResult.report_inj`).

Key definitions: `State.ShownBy`, `RunResult.lines`.
Key theorems: `RunResult.report_eq`, `RunResult.shownBy_lines`,
`State.ShownBy.lines_eq`, `State.ShownBy.unique`, `RunResult.report_inj`.
-/
import RegisterMachine.Machine.Run
import RegisterMachine.Proofs.Listing

namespace RegisterMachine

/-- The lines show a state and a number of steps. -/
structure State.ShownBy (s : State) (steps : UInt64) (lines : List Bytes) : Prop where
  length : lines.length = 20
  pc : lines[0]? = some (ascii "pc = " ++ Numeral.decimal s.pc.toNat)
  zero : lines[1]? = some (ascii "zero = " ++ if s.flags.zero then ascii "1" else ascii "0")
  overflow :
    lines[2]? = some (ascii "overflow = " ++ if s.flags.overflow then ascii "1" else ascii "0")
  register : ∀ r : Register, lines[r.val + 3]? =
    some (ascii "r" ++ Numeral.decimal r.val ++ ascii " = " ++
      Numeral.decimal (s.registers.get r).toNat)
  steps : lines[19]? = some (ascii "steps = " ++ Numeral.decimal steps.toNat)

theorem Numeral.decimal_inj {m n : Nat} : decimal m = decimal n ↔ m = n := by
  refine ⟨fun h => ?_, congrArg decimal⟩
  rw [← Literal.denoted_numeral m, h, Literal.denoted_numeral]

/-! ### The lines of a report -/

/-- The line that shows a number under a name. -/
def State.line (name : Bytes) (value : Nat) : Bytes := name ++ ascii " = " ++ Numeral.decimal value

namespace Registers

/-- The lines that show the registers. -/
def lines (registers : Registers) : List Bytes :=
  registers.toList.zipIdx.map fun (value, index) =>
    State.line (Operand.registerName index) value.toNat

theorem length_toList (registers : Registers) : registers.toList.length = 16 := by simp [toList]

theorem length_lines (registers : Registers) : registers.lines.length = 16 := by
  rw [lines, List.length_map, List.length_zipIdx, length_toList]

theorem getElem?_toList (registers : Registers) (r : Register) :
    registers.toList[r.val]? = some (registers.get r) := by
  by_cases hr : r = 0
  · rw [hr, get_zero]
    rfl
  · have hval : r.val ≠ 0 := fun h => hr (Fin.ext h)
    obtain ⟨i, hi⟩ := Nat.exists_eq_succ_of_ne_zero hval
    simp [toList, get, hr, hi]

theorem getElem?_lines (registers : Registers) (r : Register) :
    registers.lines[r.val]? =
      some (State.line (Operand.registerName r.val) (registers.get r).toNat) := by
  rw [lines, List.getElem?_map, List.getElem?_zipIdx, getElem?_toList, Nat.zero_add]
  rfl

end Registers

namespace RunResult

/-- The lines that show a result. -/
def lines (result : RunResult) : List Bytes :=
  State.line (ascii "pc") result.state.pc.toNat ::
    State.line (ascii "zero") result.state.flags.zero.toNat ::
    State.line (ascii "overflow") result.state.flags.overflow.toNat ::
    (result.state.registers.lines ++ [State.line (ascii "steps") result.steps.toNat])

/-- What is shown of a result is its lines, each with its end. -/
theorem report_eq (result : RunResult) :
    result.report = result.lines.flatMap (· ++ [Bytes.newline]) := by
  simp only [report, lines, Registers.lines, State.text, State.field, State.line,
    List.flatMap_append, List.flatMap_cons, List.flatMap_nil, List.flatMap_map, List.append_assoc,
    List.append_nil]

theorem decimal_toNat (flag : Bool) :
    Numeral.decimal flag.toNat = if flag then ascii "1" else ascii "0" := by
  cases flag <;> decide

/-- **The lines of a result show its state and its number of steps.** -/
theorem shownBy_lines (result : RunResult) : result.state.ShownBy result.steps result.lines where
  length := by simp [lines, Registers.length_lines]
  pc := rfl
  zero := by
    rw [← decimal_toNat]
    rfl
  overflow := by
    rw [← decimal_toNat]
    rfl
  register r := by
    have hlt : r.val < result.state.registers.lines.length := by
      rw [Registers.length_lines]
      exact r.isLt
    show (result.state.registers.lines ++ _)[r.val]? = _
    rw [List.getElem?_append_left hlt, Registers.getElem?_lines]
    rfl
  steps := by
    have h := List.getElem?_concat_length (l := result.state.registers.lines)
      (a := State.line (ascii "steps") result.steps.toNat)
    rwa [Registers.length_lines] at h

end RunResult

/-! ### Reading a report -/

theorem Registers.ext_get {x y : Registers} (h : ∀ r, x.get r = y.get r) : x = y := by
  obtain ⟨values⟩ := x
  obtain ⟨values'⟩ := y
  refine congrArg Registers.mk (Vector.ext fun i hi => ?_)
  have hi := h ⟨i + 1, by omega⟩
  simpa [get] using hi

namespace State.ShownBy

/-- A state and a number of steps are shown by one list of lines only. -/
theorem lines_eq {s : State} {steps : UInt64} {lines lines' : List Bytes}
    (h : s.ShownBy steps lines) (h' : s.ShownBy steps lines') : lines = lines' := by
  refine List.ext_getElem? fun i => ?_
  by_cases hi : i < 20
  · rcases (by omega : i = 0 ∨ i = 1 ∨ i = 2 ∨ (3 ≤ i ∧ i < 19) ∨ i = 19) with
      rfl | rfl | rfl | hregister | rfl
    · rw [h.pc, h'.pc]
    · rw [h.zero, h'.zero]
    · rw [h.overflow, h'.overflow]
    · obtain ⟨r, rfl⟩ := Nat.exists_eq_add_of_le' hregister.1
      exact (h.register ⟨r, by omega⟩).trans (h'.register ⟨r, by omega⟩).symm
    · rw [h.steps, h'.steps]
  · have hlength := h.length
    have hlength' := h'.length
    rw [List.getElem?_eq_none (by omega), List.getElem?_eq_none (by omega)]

/-- **The same lines show one state only, and one number of steps.** -/
theorem unique {s t : State} {steps steps' : UInt64} {lines : List Bytes}
    (h : s.ShownBy steps lines) (h' : t.ShownBy steps' lines) : s = t ∧ steps = steps' := by
  have hvalue {name : Bytes} {m n : Nat}
      (heq : some (name ++ Numeral.decimal m) = some (name ++ Numeral.decimal n)) : m = n :=
    Numeral.decimal_inj.mp (List.append_cancel_left (Option.some.inj heq))
  have hflag {name : Bytes} {a b : Bool} (heq : some (name ++ if a then ascii "1" else ascii "0") =
      some (name ++ if b then ascii "1" else ascii "0")) : a = b := by
    have hbits := List.append_cancel_left (Option.some.inj heq)
    revert hbits
    cases a <;> cases b <;> decide
  have hpc : s.pc = t.pc := UInt16.toNat_inj.mp (hvalue (h.pc.symm.trans h'.pc))
  have hzero : s.flags.zero = t.flags.zero := hflag (h.zero.symm.trans h'.zero)
  have hoverflow : s.flags.overflow = t.flags.overflow :=
    hflag (h.overflow.symm.trans h'.overflow)
  have hregisters : s.registers = t.registers := Registers.ext_get fun r =>
    UInt8.toNat_inj.mp (hvalue ((h.register r).symm.trans (h'.register r)))
  obtain ⟨pc, registers, zero, overflow⟩ := s
  obtain ⟨pc', registers', zero', overflow'⟩ := t
  obtain rfl : pc = pc' := hpc
  obtain rfl : registers = registers' := hregisters
  obtain rfl : zero = zero' := hzero
  obtain rfl : overflow = overflow' := hoverflow
  exact ⟨rfl, UInt64.toNat_inj.mp (hvalue (h.steps.symm.trans h'.steps))⟩

end State.ShownBy

theorem State.printable_line {name : Bytes} (h : Ascii.IsWord name) (value : Nat) :
    ∀ b ∈ State.line name value, 32 ≤ b := by
  have hequals : ascii " = " = [32, 61, 32] := by decide
  simp only [State.line, hequals, List.forall_mem_append, List.forall_mem_cons]
  exact ⟨⟨Ascii.printable_of_isWord h, by decide, by decide, by decide, fun _ hb => by cases hb⟩,
    Ascii.printable_of_isWord (Numeral.isWord_decimal value)⟩

theorem RunResult.printable_lines (result : RunResult) :
    ∀ line ∈ result.lines, ∀ b ∈ line, 32 ≤ b := by
  intro line hline
  simp only [lines, Registers.lines, List.mem_cons, List.mem_append, List.mem_map,
    List.not_mem_nil, or_false] at hline
  rcases hline with rfl | rfl | rfl | ⟨⟨value, index⟩, -, rfl⟩ | rfl
  · exact State.printable_line (by decide) _
  · exact State.printable_line (by decide) _
  · exact State.printable_line (by decide) _
  · have hindex := (Numeral.isWord_decimal index).2
    have hname : Ascii.IsWord (Operand.registerName index) :=
      ⟨List.cons_ne_nil _ _, List.forall_mem_cons.mpr ⟨by decide, hindex⟩⟩
    exact State.printable_line hname value.toNat
  · exact State.printable_line (by decide) _

/-- **Results are shown in the same way if and only if they have the same state and the same number
of steps.** -/
theorem RunResult.report_inj {result other : RunResult} :
    result.report = other.report ↔ result.state = other.state ∧ result.steps = other.steps := by
  constructor
  · intro h
    have hlines := congrArg Bytes.lines h
    rw [report_eq, report_eq, Bytes.lines_flatMap _ result.printable_lines,
      Bytes.lines_flatMap _ other.printable_lines] at hlines
    have hshown := other.shownBy_lines
    rw [← List.append_cancel_right hlines] at hshown
    exact result.shownBy_lines.unique hshown
  · rintro ⟨hstate, hsteps⟩
    rw [report, report, hstate, hsteps]

end RegisterMachine
