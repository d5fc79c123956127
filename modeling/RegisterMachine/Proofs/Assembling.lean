/-
# What assembling gives

Every statement that is read is well formed (`Reading.wellFormed_of_ofSource`).
Linking leaves the instructions, at most as many as a program may have, and
puts addresses in place of their labels, so an assembled program is a list of
instructions that fit into words (`Program.means_of_assemble`). A program that
is such a list already is not changed by linking (`Program.link_of_means`).

Key theorems: `Statement.exists_of_ofLine`, `Statement.wellFormed_of_ofLine`,
`Operand.takes_of_resolve`, `Program.assemble_eq_ok_iff`,
`Program.means_of_assemble`, `Program.link_of_means`.
-/
import RegisterMachine.Assembly.Assemble
import RegisterMachine.Proofs.Grammar
import RegisterMachine.Proofs.Linking
import RegisterMachine.Proofs.Operands

namespace RegisterMachine

/-! ### What is read is well formed -/

theorem LineTokens.isIdentifier_of_ofLine {line : Bytes} {tokens : LineTokens}
    (h : ofLine line = .ok tokens) :
    ∀ label ∈ tokens.label, Ascii.isIdentifier label.text = true := by
  obtain ⟨f, hf, -, rfl⟩ := exists_form_of_ofLine h
  intro label hlabel
  obtain ⟨l, hl, rfl⟩ := Option.map_eq_some_iff.mp hlabel
  exact (hf.label l hl).1

namespace Statement

theorem operation_of_ofMnemonic {location : Location} {mnemonic : Token} {operands : List Token}
    {s : Statement} (h : ofMnemonic location mnemonic operands = .ok s) :
    Operation.ofMnemonic? mnemonic.text = some s.operation := by
  unfold ofMnemonic at h
  split at h
  · cases h
  · rename_i operation hoperation
    obtain ⟨-, h⟩ := guard_eq_ok_iff.mp h
    obtain ⟨os, -, rfl⟩ := map_eq_ok_iff.mp h
    exact hoperation

theorem wellFormed_of_ofMnemonic {location : Location} {mnemonic : Token} {operands : List Token}
    {s : Statement} (h : ofMnemonic location mnemonic operands = .ok s) : s.WellFormed := by
  unfold ofMnemonic at h
  split at h
  · cases h
  · rename_i operation hop
    have hlabel : operation ≠ .label := by
      rintro rfl
      exact Operation.ofMnemonic?_ne_label _ hop
    obtain ⟨hlength, h⟩ := guard_eq_ok_iff.mp h
    obtain ⟨os, hoperands, rfl⟩ := map_eq_ok_iff.mp h
    exact .instruction _ hlabel (Operand.takes_of_ofTokens (not_not.mp hlength) hoperands)

/-- The statements of a line are the definition of its label and the instruction of its mnemonic, as
far as it has them. -/
theorem exists_of_ofLine {location : Location} {line : Bytes} {statements : List Statement}
    (h : ofLine location line = .ok statements) : ∃ tokens, LineTokens.ofLine line = .ok tokens ∧
      ∃ instruction : Option Statement,
        statements = (tokens.label.toList.map fun t =>
          define t.text (location.atColumn t.column)) ++ instruction.toList ∧
        ∀ s ∈ instruction, ∃ mnemonic ∈ tokens.mnemonic,
          ofMnemonic location mnemonic tokens.operands = .ok s := by
  unfold ofLine at h
  split at h
  · cases h
  · rename_i tokens htokens
    refine ⟨tokens, htokens, ?_⟩
    simp only at h
    split at h
    · cases h
      exact ⟨none, by simp, by simp⟩
    · rename_i mnemonic hmnemonic
      obtain ⟨instruction, hinstruction, rfl⟩ := map_eq_ok_iff.mp h
      refine ⟨some instruction, rfl, ?_⟩
      rintro s ⟨⟩
      exact ⟨mnemonic, hmnemonic, hinstruction⟩

theorem cases_of_mem_ofLine {location : Location} {line : Bytes} {statements : List Statement}
    (h : ofLine location line = .ok statements) {s : Statement} (hs : s ∈ statements) :
    ∃ tokens, LineTokens.ofLine line = .ok tokens ∧
      ((∃ t ∈ tokens.label, s = define t.text (location.atColumn t.column)) ∨
        ∃ mnemonic ∈ tokens.mnemonic, ofMnemonic location mnemonic tokens.operands = .ok s) := by
  obtain ⟨tokens, htokens, instruction, rfl, hinstruction⟩ := exists_of_ofLine h
  refine ⟨tokens, htokens, ?_⟩
  rcases List.mem_append.mp hs with hs | hs
  · obtain ⟨t, ht, rfl⟩ := List.mem_map.mp hs
    exact Or.inl ⟨t, Option.mem_toList.mp ht, rfl⟩
  · exact Or.inr (hinstruction s (Option.mem_toList.mp hs))

/-- **What is read from a line is well formed.** -/
theorem wellFormed_of_ofLine {location : Location} {line : Bytes} {statements : List Statement}
    (h : ofLine location line = .ok statements) : ∀ s ∈ statements, s.WellFormed := by
  intro s hs
  obtain ⟨tokens, htokens, ⟨t, ht, rfl⟩ | ⟨mnemonic, -, hinstruction⟩⟩ := cases_of_mem_ofLine h hs
  · exact .definition _ (LineTokens.isIdentifier_of_ofLine htokens t ht)
  · exact wellFormed_of_ofMnemonic hinstruction

end Statement

namespace Reading

theorem wellFormed_of_ofLines (file : UInt32) : ∀ (number : Nat) (lines : List Bytes),
    ∀ s ∈ (ofLines file number lines).program, s.WellFormed
  | _, [] => fun s hs => by cases hs
  | number, line :: lines => by
    have ih := wellFormed_of_ofLines file (number + 1) lines
    intro s hs
    rw [ofLines] at hs
    split at hs
    · rename_i statements hstatements
      rcases List.mem_append.mp hs with hs | hs
      · exact Statement.wellFormed_of_ofLine hstatements s hs
      · exact ih s hs
    · exact ih s hs

theorem wellFormed_of_ofSource (file : UInt32) (source : Bytes) :
    ∀ s ∈ (ofSource file source).program, s.WellFormed :=
  wellFormed_of_ofLines file 1 source.lines

end Reading

/-! ### Labels are replaced -/

namespace Operand

/-- An operand that is resolved fills the same place, and is no label. -/
theorem takes_of_resolve {symbols : SymbolTable} {shape : Shape} {o resolved : Operand}
    (ho : shape.Takes o) (h : o.resolve symbols = .ok resolved) :
    shape.Takes resolved ∧ ∀ name, resolved ≠ .label name := by
  cases o with
  | register _ | immediate _ | address _ =>
    cases h
    exact ⟨ho, fun name => Operand.noConfusion⟩
  | label name =>
    rw [resolve] at h
    split at h
    · cases h
    · obtain ⟨hvalue, h⟩ := guard_eq_ok_iff.mp h
      cases h
      obtain rfl : shape = .target := by
        cases shape with
        | target => rfl
        | _ => cases ho.1
      exact ⟨⟨rfl, UInt16.not_lt.mp hvalue⟩, fun name => Operand.noConfusion⟩

theorem takes_of_mapM_resolve {symbols : SymbolTable} : ∀ {shapes : List Shape}
    {operands resolved : List Operand}, List.Forall₂ Shape.Takes shapes operands →
    List.Forall₂ (fun o r => o.resolve symbols = .ok r) operands resolved →
    List.Forall₂ Shape.Takes shapes resolved ∧ ∀ name, .label name ∉ resolved
  | _, _, _, .nil, .nil => ⟨.nil, fun name h => by cases h⟩
  | _, _, _, .cons ho hs, .cons hr hrest => by
    obtain ⟨htakes, hname⟩ := takes_of_resolve ho hr
    obtain ⟨ih, hnames⟩ := takes_of_mapM_resolve hs hrest
    refine ⟨.cons htakes ih, fun name hmem => ?_⟩
    rcases List.mem_cons.mp hmem with h | h
    · exact hname name h.symm
    · exact hnames name h

end Operand

namespace Statement

theorem exists_means_of_resolve {symbols : SymbolTable} {s resolved : Statement} (hs : s.WellFormed)
    (h : s.resolve symbols = .ok resolved) : ∃ i, resolved.Means i := by
  unfold resolve at h
  split at h
  · rename_i hinstruction
    split at h
    · rename_i operands hoperands
      cases h
      cases hs with
      | definition => cases hinstruction
      | instruction location hop htakes =>
        obtain ⟨htakes, hnames⟩ :=
          Operand.takes_of_mapM_resolve htakes (mapM_eq_ok_iff.mp hoperands)
        exact (WellFormed.instruction location hop htakes).exists_means hinstruction hnames
    · cases h
  · cases h

theorem Means.isInstruction {s : Statement} {i : Instruction} (h : s.Means i) :
    s.isInstruction = true := by
  have hop := ((agrees_iff _ _).mp h.1).1
  rw [Statement.isInstruction, hop]
  cases i with
  | binary f _ _ _ => cases f <;> rfl
  | withImmediate f _ _ _ => cases f <;> rfl
  | branch c _ => cases c <;> rfl
  | _ => rfl

theorem Means.not_label {s : Statement} {i : Instruction} (h : s.Means i) :
    ∀ o ∈ s.operands, ∀ name, o ≠ .label name := by
  have hoperands := ((agrees_iff _ _).mp h.1).2.1
  rw [hoperands]
  rintro o ho name rfl
  cases i <;> simp [Instruction.statement, Operand.ofRegister] at ho

theorem Means.linked_eq {s : Statement} {i : Instruction} (h : s.Means i) (program : Program) :
    s.linked program = s := by
  have hoperands : s.operands.map (Operand.linked program) = s.operands := by
    refine (List.map_congr_left fun o ho => ?_).trans (List.map_id _)
    cases o with
    | label name => exact absurd rfl (h.not_label _ ho name)
    | _ => rfl
  rw [linked, hoperands]

end Statement

/-! ### Programs -/

namespace Program

theorem assemble_eq_ok_iff {file : UInt32} {source : Bytes} {program : Program} :
    assemble file source = .ok program ↔
      (Reading.ofSource file source).diagnostics = [] ∧
        (Reading.ofSource file source).program.link = .ok program := by
  unfold assemble
  generalize Reading.ofSource file source = reading
  obtain ⟨read, diagnostics⟩ := reading
  cases diagnostics with
  | nil => cases hlink : read.link <;> simp [hlink]
  | cons first others => simp

theorem means_of_link {program linked : Program} (hprogram : ∀ s ∈ program, s.WellFormed)
    (h : program.link = .ok linked) :
    (∃ is, linked.Means is) ∧ linked.length ≤ maxProgramLength := by
  have hstrippable := (link_eq_ok_iff.mp h).1
  rw [link_of_strippable hstrippable] at h
  have hresolve := mapM_eq_ok_iff.mp h
  refine ⟨exists_means fun t ht => ?_, hresolve.length_eq ▸ hstrippable.length_le⟩
  obtain ⟨s, hs, hst⟩ := exists_left_of_forall₂ hresolve t ht
  exact Statement.exists_means_of_resolve (hprogram s (List.mem_of_mem_filter hs)) hst

/-- **An assembled program is a list of instructions that fit into words**, no more than a program
may have. -/
theorem means_of_assemble {file : UInt32} {source : Bytes} {program : Program}
    (h : assemble file source = .ok program) :
    (∃ is, program.Means is) ∧ program.length ≤ maxProgramLength := by
  obtain ⟨-, hlink⟩ := assemble_eq_ok_iff.mp h
  exact means_of_link (Reading.wellFormed_of_ofSource file source) hlink

theorem link_of_means {program : Program} {is : List Instruction} (h : program.Means is)
    (hlength : program.length ≤ maxProgramLength) : program.link = .ok program := by
  have hmeans := Means.exists_of_mem h
  have hinstruction : ∀ s ∈ program, s.isInstruction = true := fun s hs =>
    (hmeans s hs).choose_spec.isInstruction
  refine link_eq_ok_iff.mpr ⟨⟨?_, ?_⟩, ?_, ?_⟩
  · rw [definedNames_eq_nil hinstruction]
    exact List.nodup_nil
  · rwa [instructions_eq_self hinstruction]
  · rintro name ⟨s, hs, hname⟩
    obtain ⟨i, hi⟩ := hmeans s (List.mem_of_mem_filter hs)
    exact absurd rfl (hi.not_label _ hname name)
  · rw [instructions_eq_self hinstruction]
    refine ((List.map_congr_left fun s hs => ?_).trans (List.map_id _)).symm
    obtain ⟨i, hi⟩ := hmeans s hs
    exact hi.linked_eq program

end Program
end RegisterMachine
