/-
# Labels are resolved, or the first fault is reported

Linking is described here without its table. A program has a list of the names
it defines, and the address of a name is the number of the instructions before
its first definition (`Program.addressOf`). The table that the first pass
collects is a look-up of these (`Program.address?_symbols`).

The first pass goes through the program with the statements it has left behind,
and keeps the invariant that they are `Strippable`: they define no name twice,
and their instructions are no more than a program may have. A statement is at
fault if it breaks this, so the first pass gets through if the whole program is
strippable, and otherwise stops at the first statement at fault
(`Program.strip_eq_ok_iff`, `Program.strip_eq_error_iff`). The second pass gets
through if no name is bad that an instruction refers to, and otherwise stops at
the first one that is.

Key definitions: `Program.definedNames`, `Program.addressOf`,
`Program.Strippable`, `Program.FirstStripFault`, `Program.FirstReferenceFault`,
`Statement.linked`.
Key theorems: `Program.Strippable.exists_address`, `Program.strip_eq_ok_iff`,
`Program.strip_eq_error_iff`, `Program.resolve_symbols_eq_ok_iff`,
`Program.resolve_symbols_eq_error_iff`, `Program.link_addresses_labels`.
-/
import Mathlib.Data.List.Nodup
import RegisterMachine.Assembly.Symbols
import RegisterMachine.Proofs.Pointwise

namespace RegisterMachine

/-! ### Definitions and their addresses -/

/-- The statement defines this name. -/
def Statement.defines (name : Bytes) (s : Statement) : Bool := !s.isInstruction && s.label == name

theorem Statement.defines_iff {name : Bytes} {s : Statement} :
    s.defines name = true ↔ s.isInstruction = false ∧ s.label = name := by
  simp [defines]

namespace Program

/-- The statements of a program that are instructions. -/
def instructions (program : Program) : Program := program.filter Statement.isInstruction

/-- The names that a program defines, one for each definition. -/
def definedNames (program : Program) : List Bytes :=
  (program.filter (!·.isInstruction)).map Statement.label

/-- The number of instructions before the first definition of a name. -/
def addressOf (program : Program) (name : Bytes) : Nat :=
  (instructions (program.takeWhile (!·.defines name))).length

/-- An instruction of the program names this label. -/
def Refers (program : Program) (name : Bytes) : Prop :=
  ∃ s ∈ program.instructions, .label name ∈ s.operands

/-- No name is defined twice, and the instructions are no more than a program may have. -/
structure Strippable (program : Program) : Prop where
  nodup : program.definedNames.Nodup
  length_le : program.instructions.length ≤ maxProgramLength

/-- What is wrong with a statement behind others: it is one instruction too many, or it defines a
name once more. -/
def stripError? (before : Program) (s : Statement) : Option SymbolError :=
  if s.isInstruction then
    if maxProgramLength ≤ before.instructions.length then some .programTooLong else none
  else if s.label ∈ before.definedNames then some (.duplicate s.label)
  else none

/-- What is wrong with a reference to a name: there is no definition of it, or it stands behind as
many instructions as there are addresses. -/
def referenceError? (program : Program) (name : Bytes) : Option SymbolError :=
  if name ∉ program.definedNames then some (.undefined name)
  else if maxProgramLength ≤ program.addressOf name then some (.beyondRange name)
  else none

/-- The fault is that of the first statement with which the program is not strippable. -/
def FirstStripFault (program : Program) (fault : SymbolFault) : Prop :=
  ∃ before s after, program = before ++ s :: after ∧ Strippable before ∧
    stripError? before s = some fault.error ∧ fault.location = s.location

/-- The fault is that of the first bad reference of the program. -/
def FirstReferenceFault (program : Program) (fault : SymbolFault) : Prop :=
  ∃ before s after first name last, program.instructions = before ++ s :: after ∧
    s.operands = first ++ .label name :: last ∧
    (∀ t ∈ before, ∀ other, .label other ∈ t.operands → program.referenceError? other = none) ∧
    (∀ other, .label other ∈ first → program.referenceError? other = none) ∧
    program.referenceError? name = some fault.error ∧ fault.location = s.location

/-- The table of the definitions, when `kept` instructions stand before them. -/
def symbolsFrom (kept : Nat) : Program → SymbolTable
  | [] => []
  | s :: rest =>
    if s.isInstruction then symbolsFrom (kept + 1) rest
    else (s.label, kept.toUInt16) :: symbolsFrom kept rest

/-- The table of the definitions of a program. -/
def symbols (program : Program) : SymbolTable := symbolsFrom 0 program

end Program

/-- The operand with the address that a label has in the program. -/
def Operand.linked (program : Program) : Operand → Operand
  | label name => .address (program.addressOf name).toUInt16
  | operand => operand

/-- The statement with the addresses that its labels have in the program. -/
def Statement.linked (program : Program) (s : Statement) : Statement :=
  { s with operands := s.operands.map (Operand.linked program) }

namespace Program

section

variable {s : Statement} (hs : s.isInstruction = true) (rest : Program)
include hs

theorem instructions_cons_instruction : instructions (s :: rest) = s :: instructions rest :=
  List.filter_cons_of_pos hs

theorem definedNames_cons_instruction : definedNames (s :: rest) = definedNames rest := by
  simp [definedNames, hs]

theorem addressOf_cons_instruction (name : Bytes) :
    addressOf (s :: rest) name = addressOf rest name + 1 := by
  have hdefines : s.defines name = false := by simp [Statement.defines, hs]
  rw [addressOf, addressOf, List.takeWhile_cons_of_pos (by simp [hdefines]),
    instructions_cons_instruction hs, List.length_cons]

end

section

variable {s : Statement} (hs : s.isInstruction = false) (rest : Program)
include hs

theorem instructions_cons_definition : instructions (s :: rest) = instructions rest :=
  List.filter_cons_of_neg (by simp [hs])

theorem definedNames_cons_definition :
    definedNames (s :: rest) = s.label :: definedNames rest := by
  simp [definedNames, hs]

theorem addressOf_cons_definition (name : Bytes) :
    addressOf (s :: rest) name = if s.label = name then 0 else addressOf rest name := by
  by_cases h : s.label = name
  · have hdefines : s.defines name = true := Statement.defines_iff.mpr ⟨hs, h⟩
    rw [if_pos h, addressOf, List.takeWhile_cons_of_neg (by simp [hdefines])]
    rfl
  · have hdefines : s.defines name = false := by simp [Statement.defines, hs, h]
    rw [if_neg h, addressOf, addressOf, List.takeWhile_cons_of_pos (by simp [hdefines]),
      instructions_cons_definition hs]

end

theorem instructions_append (a b : Program) :
    instructions (a ++ b) = instructions a ++ instructions b := List.filter_append _ _

theorem definedNames_append (a b : Program) :
    definedNames (a ++ b) = definedNames a ++ definedNames b := by
  rw [definedNames, List.filter_append, List.map_append]
  rfl

theorem addressOf_le (program : Program) (name : Bytes) :
    program.addressOf name ≤ program.instructions.length :=
  ((List.takeWhile_sublist _).filter _).length_le

theorem mem_definedNames_iff {program : Program} {name : Bytes} :
    name ∈ program.definedNames ↔ ∃ s ∈ program, s.defines name = true := by
  simp [definedNames, Statement.defines, and_assoc]

/-- The address of a name is the number of the instructions before its first definition. -/
theorem addressOf_definition {before : Program} {name : Bytes}
    (hbefore : name ∉ before.definedNames) {s : Statement} (hs : s.defines name = true)
    (after : Program) :
    addressOf (before ++ s :: after) name = before.instructions.length := by
  have hnone : ∀ t ∈ before, (!t.defines name) = true := fun t ht => by
    rw [Bool.not_eq_true']
    exact Bool.eq_false_iff.mpr fun hdefines => hbefore (mem_definedNames_iff.mpr ⟨t, ht, hdefines⟩)
  rw [addressOf, List.takeWhile_append_of_pos hnone, List.takeWhile_cons_of_neg (by simp [hs]),
    List.append_nil]

section

variable {program : Program} (h : ∀ s ∈ program, s.isInstruction = true)
include h

theorem instructions_eq_self : program.instructions = program := List.filter_eq_self.mpr h

theorem definedNames_eq_nil : program.definedNames = [] := by
  have hnone : program.filter (!·.isInstruction) = [] :=
    List.filter_eq_nil_iff.mpr fun s hs => by simp [h s hs]
  rw [definedNames, hnone]
  rfl

end

theorem symbolsFrom_append (kept : Nat) : ∀ a b : Program,
    symbolsFrom kept (a ++ b) =
      symbolsFrom kept a ++ symbolsFrom (kept + (instructions a).length) b
  | [], _ => rfl
  | s :: a, b => by
    rw [List.cons_append, symbolsFrom, symbolsFrom]
    cases hs : s.isInstruction with
    | true =>
      rw [if_pos rfl, if_pos rfl, symbolsFrom_append (kept + 1) a b,
        instructions_cons_instruction hs, List.length_cons]
      congr 2
      omega
    | false =>
      rw [if_neg Bool.false_ne_true, if_neg Bool.false_ne_true, symbolsFrom_append kept a b,
        instructions_cons_definition hs, List.cons_append]

theorem address?_symbolsFrom (name : Bytes) : ∀ (kept : Nat) (program : Program),
    (symbolsFrom kept program).address? name =
      if name ∈ program.definedNames then some (kept + program.addressOf name).toUInt16 else none
  | _, [] => rfl
  | kept, s :: rest => by
    rw [symbolsFrom]
    cases hs : s.isInstruction with
    | true =>
      rw [if_pos rfl, address?_symbolsFrom name (kept + 1) rest, definedNames_cons_instruction hs,
        addressOf_cons_instruction hs, Nat.add_assoc, Nat.add_comm 1]
    | false =>
      have ih := address?_symbolsFrom name kept rest
      rw [SymbolTable.address?] at ih
      rw [if_neg Bool.false_ne_true, definedNames_cons_definition hs, addressOf_cons_definition hs,
        SymbolTable.address?, List.lookup_cons, ih]
      by_cases h : s.label = name
      · simp [h]
      · have hbeq : (name == s.label) = false := by simpa using Ne.symm h
        simp [h, hbeq, Ne.symm h]

theorem address?_symbols (program : Program) (name : Bytes) :
    program.symbols.address? name =
      if name ∈ program.definedNames then some (program.addressOf name).toUInt16 else none := by
  rw [symbols, address?_symbolsFrom, Nat.zero_add]

/-! ### The first pass -/

theorem Strippable.of_append {a b : Program} (h : Strippable (a ++ b)) : Strippable a where
  nodup := by
    have hnodup := h.nodup
    rw [definedNames_append] at hnodup
    exact hnodup.of_append_left
  length_le := by
    have hlength := h.length_le
    rw [instructions_append, List.length_append] at hlength
    omega

section

variable {before after : Program} {s : Statement} {name : Bytes}
  (h : Strippable (before ++ s :: after)) (hs : s.defines name = true)
include h hs

/-- In a strippable program, a definition is the only one of its name. -/
theorem Strippable.addressOf_eq :
    addressOf (before ++ s :: after) name = before.instructions.length := by
  refine addressOf_definition (fun hmem => ?_) hs after
  have hnodup := h.nodup
  have hbehind : name ∈ definedNames (s :: after) :=
    mem_definedNames_iff.mpr ⟨s, List.mem_cons_self, hs⟩
  rw [definedNames_append] at hnodup
  exact (List.nodup_append.mp hnodup).2.2 name hmem name hbehind rfl

/-- A definition puts its name into the table, at the number of the instructions before it. -/
theorem Strippable.exists_address :
    ∃ address, (before ++ s :: after).symbols.address? name = some address ∧
      address.toNat = before.instructions.length := by
  have hmem : name ∈ definedNames (before ++ s :: after) :=
    mem_definedNames_iff.mpr ⟨s, by simp, hs⟩
  have hlength : before.instructions.length < 2 ^ 16 :=
    Nat.lt_of_le_of_lt h.of_append.length_le (by decide)
  refine ⟨before.instructions.length.toUInt16, ?_, UInt16.toNat_ofNat_of_lt' hlength⟩
  rw [address?_symbols, if_pos hmem, h.addressOf_eq hs]

end

/-- A statement is at fault if the program is not strippable with it. -/
theorem stripError?_eq_none_iff {before : Program} (h : Strippable before) (s : Statement) :
    stripError? before s = none ↔ Strippable (before ++ [s]) := by
  obtain ⟨hnodup, hlength⟩ := h
  rw [stripError?]
  cases hs : s.isInstruction with
  | true =>
    have hinstructions : instructions (before ++ [s]) = instructions before ++ [s] := by
      rw [instructions_append, instructions_cons_instruction hs]
      rfl
    have hnames : definedNames (before ++ [s]) = definedNames before := by
      rw [definedNames_append, definedNames_cons_instruction hs]
      exact List.append_nil _
    rw [if_pos rfl]
    constructor
    · intro h
      refine ⟨hnames ▸ hnodup, ?_⟩
      rw [hinstructions, List.length_append, List.length_singleton]
      by_contra hlong
      rw [if_pos (by omega)] at h
      cases h
    · rintro ⟨-, hroom⟩
      rw [hinstructions, List.length_append, List.length_singleton] at hroom
      exact if_neg (by omega)
  | false =>
    have hinstructions : instructions (before ++ [s]) = instructions before := by
      rw [instructions_append, instructions_cons_definition hs]
      exact List.append_nil _
    have hnames : definedNames (before ++ [s]) = definedNames before ++ [s.label] := by
      rw [definedNames_append, definedNames_cons_definition hs]
      rfl
    rw [if_neg Bool.false_ne_true]
    constructor
    · intro h
      refine ⟨?_, hinstructions ▸ hlength⟩
      rw [hnames, ← List.concat_eq_append, List.nodup_concat]
      refine ⟨fun hmem => ?_, hnodup⟩
      rw [if_pos hmem] at h
      cases h
    · rintro ⟨hnodup', -⟩
      rw [hnames, ← List.concat_eq_append, List.nodup_concat] at hnodup'
      exact if_neg hnodup'.1

/-- The first pass stops at a statement that is at fault behind those it has seen, and goes on if it
is not. -/
theorem stripFrom_cons (before : Program) (s : Statement) (rest : Program) :
    stripFrom before.instructions.length before.symbols (s :: rest) =
      match stripError? before s with
      | some error => .error { error, location := s.location }
      | none =>
        (stripFrom (instructions (before ++ [s])).length (symbols (before ++ [s])) rest).map
          fun later => { later with program := instructions [s] ++ later.program } := by
  have hsymbols : symbols (before ++ [s]) =
      symbols before ++ symbolsFrom before.instructions.length [s] := by
    rw [symbols, symbolsFrom_append, Nat.zero_add]
    rfl
  rw [stripFrom, stripError?]
  cases hs : s.isInstruction with
  | true =>
    rw [if_pos rfl, if_pos rfl]
    by_cases hlong : maxProgramLength ≤ before.instructions.length
    · rw [if_pos hlong, if_pos hlong]
    · have hone : instructions [s] = [s] := instructions_cons_instruction hs []
      have hsame : symbolsFrom before.instructions.length [s] = [] := by simp [symbolsFrom, hs]
      rw [if_neg hlong, if_neg hlong, hsymbols, hsame, List.append_nil, instructions_append,
        List.length_append, hone]
      rfl
  | false =>
    rw [if_neg Bool.false_ne_true, if_neg Bool.false_ne_true, address?_symbols]
    by_cases hmem : s.label ∈ before.definedNames
    · rw [if_pos hmem, if_pos hmem]
      rfl
    · have hnone : instructions [s] = [] := instructions_cons_definition hs []
      have hmore : symbolsFrom before.instructions.length [s] =
          [(s.label, before.instructions.length.toUInt16)] := by simp [symbolsFrom, hs]
      rw [if_neg hmem, if_neg hmem, if_neg (by simp), hsymbols, hmore, instructions_append, hnone,
        List.append_nil]
      cases stripFrom before.instructions.length
        (before.symbols ++ [(s.label, before.instructions.length.toUInt16)]) rest <;> rfl

theorem stripFrom_eq_ok_iff : ∀ {before rest : Program} {stripped : Stripped}, Strippable before →
    (stripFrom before.instructions.length before.symbols rest = .ok stripped ↔
      Strippable (before ++ rest) ∧
        stripped = { program := rest.instructions, symbols := symbols (before ++ rest) })
  | before, [], stripped, h => by
    rw [stripFrom, List.append_nil, Except.ok.injEq]
    exact ⟨fun heq => ⟨h, heq.symm⟩, fun heq => heq.2.symm⟩
  | before, s :: rest, stripped, h => by
    have hassoc : before ++ s :: rest = before ++ [s] ++ rest := by simp
    have hinstructions : instructions (s :: rest) = instructions [s] ++ instructions rest :=
      instructions_append [s] rest
    rw [stripFrom_cons, hassoc]
    cases herror : stripError? before s with
    | some error =>
      refine ⟨fun hok => (by cases hok), fun ⟨hall, _⟩ => ?_⟩
      rw [(stripError?_eq_none_iff h s).mpr hall.of_append] at herror
      cases herror
    | none =>
      have ih (later : Stripped) := @stripFrom_eq_ok_iff (before ++ [s]) rest later
        ((stripError?_eq_none_iff h s).mp herror)
      simp only [map_eq_ok_iff, ih, hinstructions]
      constructor
      · rintro ⟨later, ⟨hall, rfl⟩, rfl⟩
        exact ⟨hall, rfl⟩
      · rintro ⟨hall, rfl⟩
        exact ⟨_, ⟨hall, rfl⟩, rfl⟩

theorem stripFrom_eq_error_iff : ∀ {before rest : Program} {fault : SymbolFault},
    Strippable before →
    (stripFrom before.instructions.length before.symbols rest = .error fault ↔
      ∃ seen s after, rest = seen ++ s :: after ∧ Strippable (before ++ seen) ∧
        stripError? (before ++ seen) s = some fault.error ∧ fault.location = s.location)
  | before, [], fault, h => by
    refine ⟨fun herror => (by cases herror), ?_⟩
    rintro ⟨seen, s, after, heq, -⟩
    simp at heq
  | before, s :: rest, fault, h => by
    rw [stripFrom_cons]
    cases herror : stripError? before s with
    | some error =>
      constructor
      · intro heq
        cases heq
        exact ⟨[], s, rest, rfl, by simpa using h, by simpa using herror, rfl⟩
      · rintro ⟨_ | ⟨t, seen⟩, u, after, heq, hseen, hu, hlocation⟩
        · obtain ⟨rfl, rfl⟩ := List.cons.inj heq
          rw [List.append_nil, herror, Option.some.injEq] at hu
          obtain ⟨_, _⟩ := fault
          simp only at hu hlocation
          rw [hu, hlocation]
        · -- The statement would be part of a program that is strippable.
          obtain ⟨rfl, rfl⟩ := List.cons.inj heq
          have hassoc : before ++ s :: seen = before ++ [s] ++ seen := by simp
          rw [hassoc] at hseen
          rw [(stripError?_eq_none_iff h s).mpr hseen.of_append] at herror
          cases herror
    | none =>
      have ih := @stripFrom_eq_error_iff (before ++ [s]) rest fault
        ((stripError?_eq_none_iff h s).mp herror)
      simp only [map_eq_error_iff, ih]
      constructor
      · rintro ⟨seen, u, after, rfl, hseen, hu, hlocation⟩
        rw [List.append_assoc, List.singleton_append] at hseen hu
        exact ⟨s :: seen, u, after, rfl, hseen, hu, hlocation⟩
      · rintro ⟨_ | ⟨t, seen⟩, u, after, heq, hseen, hu, hlocation⟩
        · obtain ⟨rfl, rfl⟩ := List.cons.inj heq
          rw [List.append_nil, herror] at hu
          cases hu
        · obtain ⟨rfl, rfl⟩ := List.cons.inj heq
          refine ⟨seen, u, after, rfl, ?_, ?_, hlocation⟩
          · simpa using hseen
          · simpa using hu

theorem strippable_nil : Strippable [] := ⟨List.nodup_nil, Nat.zero_le _⟩

/-- **The first pass gets through a strippable program**, and leaves its instructions and the table
of its definitions. -/
theorem strip_eq_ok_iff {program : Program} {stripped : Stripped} :
    program.strip = .ok stripped ↔ program.Strippable ∧
      stripped = { program := program.instructions, symbols := program.symbols } :=
  @stripFrom_eq_ok_iff [] _ _ strippable_nil

/-- **The first pass fails at the first statement at fault.** -/
theorem strip_eq_error_iff {program : Program} {fault : SymbolFault} :
    program.strip = .error fault ↔ program.FirstStripFault fault :=
  @stripFrom_eq_error_iff [] _ _ strippable_nil

/-! ### The second pass -/

section

variable {program : Program} (h : program.Strippable)
include h

/-- The name of a label is bad, or an operand that names it is given its address. -/
theorem resolve_label (name : Bytes) : (Operand.label name).resolve program.symbols =
    match program.referenceError? name with
    | some error => .error error
    | none => .ok (Operand.linked program (.label name)) := by
  have hmax : maxProgramLength = 4096 := rfl
  have haddress : program.addressOf name ≤ 4096 := Nat.le_trans (addressOf_le _ _) h.length_le
  rw [Operand.resolve, address?_symbols, referenceError?]
  by_cases hmem : name ∈ program.definedNames
  · have hrange : (program.addressOf name).toUInt16 > Operand.maxAddress ↔
        maxProgramLength ≤ program.addressOf name := by
      rw [gt_iff_lt, UInt16.lt_iff_toNat_lt, Nat.toUInt16_eq, UInt16.toNat_ofNat']
      show 4095 < _ ↔ _
      omega
    rw [if_pos hmem, if_neg (not_not_intro hmem)]
    simp only [hrange]
    split <;> rfl
  · rw [if_neg hmem, if_pos hmem]

theorem resolve_operand_eq_ok_iff {o resolved : Operand} :
    o.resolve program.symbols = .ok resolved ↔
      (∀ name, o = .label name → program.referenceError? name = none) ∧
        resolved = o.linked program := by
  cases o with
  | label name =>
    rw [resolve_label h]
    cases herror : program.referenceError? name with
    | none => simp [herror, eq_comm]
    | some error => simp [herror]
  | register _ | immediate _ | address _ =>
    simp [Operand.resolve, Operand.linked, eq_comm]

theorem resolve_operand_eq_error_iff {o : Operand} {error : SymbolError} :
    o.resolve program.symbols = .error error ↔
      ∃ name, o = .label name ∧ program.referenceError? name = some error := by
  cases o with
  | label name =>
    rw [resolve_label h]
    cases herror : program.referenceError? name with
    | none => simp [herror]
    | some other => simp [herror]
  | register _ | immediate _ | address _ => simp [Operand.resolve]

theorem resolve_statement_eq_ok_iff {s : Statement} (hs : s.isInstruction = true)
    {resolved : Statement} : s.resolve program.symbols = .ok resolved ↔
      (∀ name, .label name ∈ s.operands → program.referenceError? name = none) ∧
        resolved = s.linked program := by
  have hgood : (∀ o ∈ s.operands, ∀ name, o = .label name → program.referenceError? name = none) ↔
      ∀ name, .label name ∈ s.operands → program.referenceError? name = none :=
    ⟨fun hall name hname => hall _ hname name rfl, by rintro hall _ ho name rfl; exact hall name ho⟩
  have hoperands {operands : List Operand} :
      s.operands.mapM (Operand.resolve program.symbols) = .ok operands ↔
        (∀ name, .label name ∈ s.operands → program.referenceError? name = none) ∧
          operands = s.operands.map (Operand.linked program) := by
    rw [mapM_eq_ok_iff_map fun o _ _ => resolve_operand_eq_ok_iff h, hgood]
  rw [Statement.resolve, if_pos hs]
  cases hmap : s.operands.mapM (Operand.resolve program.symbols) with
  | ok operands =>
    obtain ⟨hall, rfl⟩ := hoperands.mp hmap
    simp only [Except.ok.injEq]
    exact ⟨fun heq => ⟨hall, heq.symm⟩, fun ⟨_, heq⟩ => heq.symm⟩
  | error error =>
    refine ⟨fun hok => (by cases hok), fun ⟨hall, _⟩ => ?_⟩
    rw [hoperands.mpr ⟨hall, rfl⟩] at hmap
    cases hmap

theorem resolve_statement_eq_error_iff {s : Statement} (hs : s.isInstruction = true)
    {fault : SymbolFault} : s.resolve program.symbols = .error fault ↔
      ∃ first name last, s.operands = first ++ .label name :: last ∧
        (∀ other, .label other ∈ first → program.referenceError? other = none) ∧
        program.referenceError? name = some fault.error ∧ fault.location = s.location := by
  have herrors {error : SymbolError} :
      s.operands.mapM (Operand.resolve program.symbols) = .error error ↔
      ∃ first name last, s.operands = first ++ .label name :: last ∧
        (∀ other, .label other ∈ first → program.referenceError? other = none) ∧
        program.referenceError? name = some error := by
    simp only [mapM_eq_error_iff, resolve_operand_eq_ok_iff h, resolve_operand_eq_error_iff h]
    constructor
    · rintro ⟨first, _, last, hsplit, hfirst, name, rfl, hname⟩
      refine ⟨first, name, last, hsplit, fun other hother => ?_, hname⟩
      obtain ⟨_, hgood, -⟩ := hfirst _ hother
      exact hgood other rfl
    · rintro ⟨first, name, last, hsplit, hfirst, hname⟩
      refine ⟨first, _, last, hsplit, fun o ho => ⟨_, ?_, rfl⟩, name, rfl, hname⟩
      rintro other rfl
      exact hfirst other ho
  rw [Statement.resolve, if_pos hs]
  obtain ⟨error, location⟩ := fault
  cases hmap : s.operands.mapM (Operand.resolve program.symbols) with
  | ok operands =>
    refine ⟨fun herror => (by cases herror), ?_⟩
    rintro ⟨first, name, last, hsplit, hfirst, hname, -⟩
    rw [herrors.mpr ⟨first, name, last, hsplit, hfirst, hname⟩] at hmap
    cases hmap
  | error cause =>
    constructor
    · intro heq
      cases heq
      obtain ⟨first, name, last, hsplit, hfirst, hname⟩ := herrors.mp hmap
      exact ⟨first, name, last, hsplit, hfirst, hname, rfl⟩
    · rintro ⟨first, name, last, hsplit, hfirst, hname, rfl⟩
      rw [herrors.mpr ⟨first, name, last, hsplit, hfirst, hname⟩] at hmap
      cases hmap
      rfl

omit h in
theorem isInstruction_of_mem_instructions {s : Statement} (hs : s ∈ program.instructions) :
    s.isInstruction = true := (List.mem_filter.mp hs).2

/-- **The second pass gets through if no reference is bad**, and leaves all as it was but for the
labels, which become addresses. -/
theorem resolve_symbols_eq_ok_iff {linked : Program} :
    program.instructions.resolve program.symbols = .ok linked ↔
      (∀ name, program.Refers name → program.referenceError? name = none) ∧
        linked = program.instructions.map (Statement.linked program) := by
  have hall : (∀ s ∈ program.instructions, ∀ name, .label name ∈ s.operands →
      program.referenceError? name = none) ↔
      ∀ name, program.Refers name → program.referenceError? name = none :=
    ⟨fun hall name ⟨s, hs, hname⟩ => hall s hs name hname,
      fun hall s hs name hname => hall name ⟨s, hs, hname⟩⟩
  rw [resolve, mapM_eq_ok_iff_map fun s hs _ =>
    resolve_statement_eq_ok_iff h (isInstruction_of_mem_instructions hs), hall]

/-- **The second pass fails at the first bad reference.** -/
theorem resolve_symbols_eq_error_iff {fault : SymbolFault} :
    program.instructions.resolve program.symbols = .error fault ↔
      program.FirstReferenceFault fault := by
  rw [resolve, mapM_eq_error_iff, FirstReferenceFault]
  constructor
  · rintro ⟨before, s, after, hsplit, hbefore, hs⟩
    have hinstruction (t : Statement) (ht : t ∈ before ++ s :: after) : t.isInstruction = true :=
      isInstruction_of_mem_instructions (hsplit ▸ ht)
    obtain ⟨first, name, last, hoperands, hfirst, hname, hlocation⟩ :=
      (resolve_statement_eq_error_iff h (hinstruction s (by simp))).mp hs
    refine ⟨before, s, after, first, name, last, hsplit, hoperands, fun t ht => ?_, hfirst, hname,
      hlocation⟩
    obtain ⟨_, ht'⟩ := hbefore t ht
    exact ((resolve_statement_eq_ok_iff h (hinstruction t (by simp [ht]))).mp ht').1
  · rintro ⟨before, s, after, first, name, last, hsplit, hoperands, hbefore, hfirst, hname,
      hlocation⟩
    have hinstruction (t : Statement) (ht : t ∈ before ++ s :: after) : t.isInstruction = true :=
      isInstruction_of_mem_instructions (hsplit ▸ ht)
    refine ⟨before, s, after, hsplit, fun t ht => ⟨t.linked program, ?_⟩,
      (resolve_statement_eq_error_iff h (hinstruction s (by simp))).mpr
        ⟨first, name, last, hoperands, hfirst, hname, hlocation⟩⟩
    exact (resolve_statement_eq_ok_iff h (hinstruction t (by simp [ht]))).mpr ⟨hbefore t ht, rfl⟩

end

theorem referenceError?_eq_none_iff {program : Program} {name : Bytes} :
    program.referenceError? name = none ↔
      name ∈ program.definedNames ∧ program.addressOf name < maxProgramLength := by
  rw [referenceError?]
  by_cases hmem : name ∈ program.definedNames
  · by_cases hrange : maxProgramLength ≤ program.addressOf name
    · simp [hmem, hrange]
    · simp [hmem, hrange, Nat.lt_of_not_le hrange]
  · simp [hmem]

/-! ### Both passes -/

theorem strippable_iff {program : Program} :
    program.Strippable ↔ ∀ fault, ¬ program.FirstStripFault fault := by
  simp only [← strip_eq_error_iff]
  cases hstrip : program.strip with
  | ok stripped => simpa using (strip_eq_ok_iff.mp hstrip).1
  | error cause =>
    refine iff_of_false (fun h => ?_) (fun hnone => hnone cause rfl)
    rw [strip_eq_ok_iff.mpr ⟨h, rfl⟩] at hstrip
    cases hstrip

theorem link_of_strippable {program : Program} (h : program.Strippable) :
    program.link = program.instructions.resolve program.symbols := by
  rw [link, strip_eq_ok_iff.mpr ⟨h, rfl⟩]

theorem link_eq_error_of_firstStripFault {program : Program} {cause : SymbolFault}
    (h : program.FirstStripFault cause) : program.link = .error cause := by
  rw [link, strip_eq_error_iff.mpr h]

theorem link_eq_ok_iff {program linked : Program} : program.link = .ok linked ↔
    program.Strippable ∧ (∀ name, program.Refers name → program.referenceError? name = none) ∧
      linked = program.instructions.map (Statement.linked program) := by
  by_cases h : program.Strippable
  · rw [link_of_strippable h, resolve_symbols_eq_ok_iff h, and_iff_right h]
  · obtain ⟨cause, hcause⟩ := not_forall_not.mp (strippable_iff.not.mp h)
    rw [link_eq_error_of_firstStripFault hcause]
    exact iff_of_false (by simp) fun hall => h hall.1

end Program
end RegisterMachine
