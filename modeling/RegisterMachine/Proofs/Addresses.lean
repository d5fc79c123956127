/-
# The addresses of a listing

A listing with addresses counts the instructions as it writes them, and the
first pass over a program counts them as it takes out the labels. Both counters
stand still at a label and go on by one at an instruction, so in front of each
statement both are the number of the instructions before it
(`Program.addressedLines_append`, `Program.Strippable.exists_address`). The
induction runs over the program and the lines together: where a line `L:` stands
in the text, a definition of `L` stands in the program, behind the statements of
the lines before it (`Program.exists_definition_of_lines`).

A text shows which of its lines are instructions, since these are indented and
labels are not, and what their addresses are, since no instruction has a
semicolon in it. So a number that is read off a listing and written as the
target of a branch is the address that linking puts in the place of the label.
That takes labels that are identifiers, and nothing else of the operands.

Key definitions: `Bytes.isIndented`, `LineTokens.comment`,
`LineTokens.shownAddress`, `Program.addressedLine`.
Key theorems: `Program.lines_addressedListing`, `Program.addressedLines_append`,
`Program.filter_isIndented_addressedLines`,
`Program.exists_definition_of_lines`, `Program.addressedListing_addresses`.
-/
import RegisterMachine.Proofs.Linking
import RegisterMachine.Proofs.Listing

namespace RegisterMachine

/-! ### What a line of a listing shows -/

/-- The line begins with two spaces, as the instructions of a listing do. -/
def Bytes.isIndented (line : Bytes) : Bool := (ascii "  ").isPrefixOf line

namespace LineTokens

/-- The comment of a line, from its semicolon on. -/
def comment (line : Bytes) : Bytes := line.dropWhile (· != semicolon)

/-- What the comment of a line says, behind the semicolon and a space. -/
def shownAddress (line : Bytes) : Bytes := (comment line).drop 2

theorem comment_append {text : Bytes} (h : semicolon ∉ text) (more : Bytes) :
    comment (text ++ semicolon :: more) = semicolon :: more := by
  rw [comment, List.dropWhile_append_of_pos (ne_semicolon_of_not_mem h),
    List.dropWhile_cons_of_neg (by simp)]

end LineTokens

namespace Literal

theorem denoted_zeroPadded (width n : Nat) : denoted 10 (Numeral.zeroPadded width n) = n := by
  have hzero : digitValue 48 = 0 := by decide
  have hdigits := denoted_numeral n
  rw [denoted] at hdigits
  rw [denoted, Numeral.zeroPadded, Numeral.padLeft, List.reverse_append, List.map_append,
    Nat.ofDigits_append, List.reverse_replicate, List.map_replicate, hzero,
    Nat.ofDigits_replicate_zero, hdigits, Nat.mul_zero, Nat.add_zero]

theorem decimal_zeroPadded (width n : Nat) : Decimal (Numeral.zeroPadded width n) := by
  obtain ⟨hne, hdigits⟩ := decimal_numeral n
  refine ⟨List.append_ne_nil_of_right_ne_nil _ hne, fun b hb => ?_⟩
  rcases List.mem_append.mp hb with hb | hb
  · rw [List.eq_of_mem_replicate hb]
    decide
  · exact hdigits b hb

end Literal

namespace Program

open Bytes LineTokens Literal

/-- The line of an instruction with this address. -/
def addressedLine (s : Statement) (address : Nat) : Bytes :=
  Numeral.padRight 32 commentColumn s.line ++ addressComment address

section

variable {s : Statement}

theorem isIndented_addressedLine (hs : s.isInstruction = true) (address : Nat) :
    isIndented (addressedLine s address) = true := by
  rw [isIndented, List.isPrefixOf_iff_prefix, addressedLine, Numeral.padRight,
    s.line_instruction hs]
  simp only [List.append_assoc]
  exact List.prefix_append _ _

theorem isIndented_line_definition (hs : s.isInstruction = false) (h : s.hasIdentifiers = true) :
    isIndented s.line = false := by
  have hindent : ascii "  " = [32, 32] := by decide
  rw [Statement.hasIdentifiers, hs, if_neg Bool.false_ne_true] at h
  obtain ⟨hne, hword⟩ := Ascii.isWord_of_isIdentifier h
  obtain ⟨first, rest, hlabel⟩ := List.exists_cons_of_ne_nil hne
  have hfirst : first ≠ 32 :=
    Ascii.ne_of_isWordByte (hword first (hlabel ▸ List.mem_cons_self)) (by decide)
  rw [isIndented, s.line_definition hs, hlabel, hindent, List.cons_append,
    List.isPrefixOf_cons_cons]
  simp [hfirst.symm]

theorem comment_addressedLine (hs : s.isInstruction = true) (h : s.hasIdentifiers = true)
    (address : Nat) : comment (addressedLine s address) = addressComment address := by
  have hcomment : ascii "; " = [semicolon, 32] := by decide
  have hline : ∀ b ∈ s.line, b ≠ semicolon :=
    Statement.forall_line (by decide) (by decide)
      (fun b hb => Ascii.ne_of_isWordByte hb (by decide)) hs h
  rw [addressedLine, addressComment, hcomment]
  refine comment_append (fun hmem => ?_) _
  rcases List.mem_append.mp hmem with hmem | hmem
  · exact hline _ hmem rfl
  · cases List.eq_of_mem_replicate hmem

theorem shownAddress_addressedLine (hs : s.isInstruction = true) (h : s.hasIdentifiers = true)
    (address : Nat) : shownAddress (addressedLine s address) = Numeral.zeroPadded 4 address := by
  have hcomment : ascii "; " = [semicolon, 32] := by decide
  rw [shownAddress, comment_addressedLine hs h, addressComment, hcomment]
  rfl

/-- The line of an instruction ends with a digit, and that of a label with a colon. -/
theorem addressedLine_ne (address : Nat) (name : Bytes) :
    addressedLine s address ≠ name ++ ascii ":" := by
  have hcolon : ascii ":" = [colon] := by decide
  intro heq
  rw [hcolon, addressedLine, addressComment, Numeral.zeroPadded, Numeral.padLeft] at heq
  have hlast := congrArg List.getLast? heq
  rw [← List.append_assoc, ← List.append_assoc,
    List.getLast?_append_of_ne_nil _ (Numeral.decimal_ne_nil address),
    List.getLast?_concat] at hlast
  have hdigit := Numeral.isDigit_of_mem_decimal address colon (List.mem_of_getLast? hlast)
  revert hdigit
  decide

end

/-! ### The lines of a listing and their addresses -/

section

variable {s : Statement} (rest : Program) (address : Nat)

theorem addressedLines_cons_instruction (hs : s.isInstruction = true) :
    addressedLines address (s :: rest) =
      addressedLine s address :: addressedLines (address + 1) rest := by
  rw [addressedLines, if_pos hs]
  rfl

theorem addressedLines_cons_definition (hs : s.isInstruction = false) :
    addressedLines address (s :: rest) =
      (s.label ++ ascii ":") :: addressedLines address rest := by
  rw [addressedLines, hs, if_neg Bool.false_ne_true, s.line_definition hs]

end

theorem addressedLines_append : ∀ (address : Nat) (a b : Program),
    addressedLines address (a ++ b) =
      addressedLines address a ++ addressedLines (address + a.instructions.length) b
  | _, [], _ => rfl
  | address, s :: a, b => by
    cases hs : s.isInstruction with
    | true =>
      rw [List.cons_append, addressedLines_cons_instruction _ _ hs,
        addressedLines_append (address + 1) a b, addressedLines_cons_instruction _ _ hs,
        instructions_cons_instruction hs, List.length_cons, Nat.add_right_comm, Nat.add_assoc,
        List.cons_append]
    | false =>
      rw [List.cons_append, addressedLines_cons_definition _ _ hs,
        addressedLines_append address a b, addressedLines_cons_definition _ _ hs,
        instructions_cons_definition hs, List.cons_append]

/-- **The indented lines of a listing are its instructions, with their numbers for addresses.** -/
theorem filter_isIndented_addressedLines : ∀ (address : Nat) {program : Program},
    (∀ s ∈ program, s.hasIdentifiers = true) →
    (addressedLines address program).filter isIndented =
      (program.instructions.zipIdx address).map fun s => addressedLine s.1 s.2
  | _, [], _ => rfl
  | address, s :: rest, h => by
    obtain ⟨hnames, hrest⟩ := List.forall_mem_cons.mp h
    cases hs : s.isInstruction with
    | true =>
      rw [addressedLines_cons_instruction _ _ hs,
        List.filter_cons_of_pos (isIndented_addressedLine hs address),
        filter_isIndented_addressedLines (address + 1) hrest, instructions_cons_instruction hs,
        List.zipIdx_cons, List.map_cons]
    | false =>
      have hlabel := isIndented_line_definition hs hnames
      rw [s.line_definition hs] at hlabel
      rw [addressedLines_cons_definition _ _ hs, List.filter_cons_of_neg (by simp [hlabel]),
        filter_isIndented_addressedLines address hrest, instructions_cons_definition hs]

theorem printable_addressedLines : ∀ (address : Nat) {program : Program},
    (∀ s ∈ program, s.hasIdentifiers = true) →
    ∀ line ∈ addressedLines address program, ∀ b ∈ line, 32 ≤ b
  | _, [], _ => fun line hline => by cases hline
  | address, s :: rest, h => by
    obtain ⟨hnames, hrest⟩ := List.forall_mem_cons.mp h
    rw [addressedLines]
    split
    · exact List.forall_mem_cons.mpr
        ⟨Statement.printable_addressed hnames address, printable_addressedLines _ hrest⟩
    · exact List.forall_mem_cons.mpr
        ⟨Statement.printable_line hnames, printable_addressedLines _ hrest⟩

theorem lines_addressedListing {program : Program} (h : ∀ s ∈ program, s.hasIdentifiers = true) :
    program.addressedListing.lines = addressedLines 0 program ++ [[]] :=
  Bytes.lines_flatMap _ (printable_addressedLines 0 h)

/-- Where the line of a label stands, the label is defined, and the lines behind it are those of the
statements behind the definition. -/
theorem exists_definition_of_lines : ∀ {address : Nat} {program : Program}
    {before after : List Bytes} {name : Bytes},
    addressedLines address program ++ [[]] = before ++ (name ++ ascii ":") :: after →
    ∃ (front : Program) (s : Statement) (back : Program), program = front ++ s :: back ∧
      s.defines name = true ∧
      after = addressedLines (address + front.instructions.length) back ++ [[]]
  | _, [], [], after, name, h => by
    have hempty : [] = name ++ ascii ":" := (List.cons.inj h).1
    exact absurd hempty.symm (List.append_ne_nil_of_right_ne_nil _ (by decide))
  | _, [], line :: before, after, name, h => by
    have hempty := (List.cons.inj h).2
    simp at hempty
  | address, s :: rest, [], after, name, h => by
    cases hs : s.isInstruction with
    | true =>
      rw [addressedLines_cons_instruction _ _ hs] at h
      exact absurd (List.cons.inj h).1 (addressedLine_ne address name)
    | false =>
      rw [addressedLines_cons_definition _ _ hs] at h
      obtain ⟨hname, hafter⟩ := List.cons.inj h
      have hlabel : s.label = name := List.append_cancel_right hname
      exact ⟨[], s, rest, rfl, Statement.defines_iff.mpr ⟨hs, hlabel⟩, hafter.symm⟩
  | address, s :: rest, line :: before, after, name, h => by
    cases hs : s.isInstruction with
    | true =>
      rw [addressedLines_cons_instruction _ _ hs] at h
      obtain ⟨front, t, back, rfl, hdefines, rfl⟩ :=
        exists_definition_of_lines (List.cons.inj h).2
      refine ⟨s :: front, t, back, rfl, hdefines, ?_⟩
      rw [instructions_cons_instruction hs, List.length_cons, Nat.add_right_comm, Nat.add_assoc]
    | false =>
      rw [addressedLines_cons_definition _ _ hs] at h
      obtain ⟨front, t, back, rfl, hdefines, rfl⟩ :=
        exists_definition_of_lines (List.cons.inj h).2
      refine ⟨s :: front, t, back, rfl, hdefines, ?_⟩
      rw [instructions_cons_definition hs]

theorem mem_addressedLines_of_defines {program : Program} {name : Bytes} (address : Nat)
    (h : name ∈ program.definedNames) : name ++ ascii ":" ∈ addressedLines address program := by
  obtain ⟨s, hs, hdefines⟩ := mem_definedNames_iff.mp h
  obtain ⟨front, back, rfl⟩ := List.append_of_mem hs
  obtain ⟨hdefinition, rfl⟩ := Statement.defines_iff.mp hdefines
  rw [addressedLines_append, addressedLines_cons_definition _ _ hdefinition]
  exact List.mem_append_right _ List.mem_cons_self

theorem filter_isIndented_lines (address : Nat) {program : Program}
    (h : ∀ s ∈ program, s.hasIdentifiers = true) :
    (addressedLines address program ++ [[]]).filter isIndented =
      (program.instructions.zipIdx address).map fun s => addressedLine s.1 s.2 := by
  have hempty : [([] : Bytes)].filter isIndented = [] := by decide
  rw [List.filter_append, filter_isIndented_addressedLines address h, hempty, List.append_nil]

/-- No instruction follows, or the first one that follows has the address that was reached. -/
theorem find?_isIndented_lines (address : Nat) {program : Program}
    (h : ∀ s ∈ program, s.hasIdentifiers = true) :
    (addressedLines address program ++ [[]]).find? isIndented =
      program.instructions.head?.map (addressedLine · address) := by
  rw [← List.head?_filter, filter_isIndented_lines address h]
  cases program.instructions <;> rfl

theorem ofToken_zeroPadded {address : UInt16} (h : address ≤ Operand.maxAddress)
    (column : UInt32) :
    Operand.ofToken .target { text := Numeral.zeroPadded 4 address.toNat, column } =
      .ok (.address address) := by
  have hle : address.toNat ≤ 4095 := UInt16.le_iff_toNat_le.mp h
  have hread := Operand.ofTargetToken_of_decimal (decimal_zeroPadded 4 address.toNat) column
  rw [denoted_zeroPadded, Operand.ranged, if_pos hle, Operand.toUInt16_toNat] at hread
  exact hread

/-- Behind the line of a label, the first instruction shows the address of the label. -/
theorem exists_address_of_lines {front back : Program} {s : Statement} {name : Bytes}
    (h : Strippable (front ++ s :: back)) (hs : s.defines name = true)
    (hback : ∀ t ∈ back, t.hasIdentifiers = true) :
    let program := front ++ s :: back
    let after := addressedLines front.instructions.length back ++ [[]]
    ∃ address, program.symbols.address? name = some address ∧
      (address.toNat = program.instructions.length ↔ ∀ line ∈ after, isIndented line = false) ∧
      ∀ line ∈ after.find? isIndented, comment line = addressComment address.toNat ∧
        (Operand.label name).resolve program.symbols = .ok (.address address) ∧
        ∀ column, Operand.ofToken .target { text := shownAddress line, column } =
          .ok (.address address) := by
  intro program after
  obtain ⟨address, haddress, hcount⟩ := h.exists_address hs
  have hdefinition := (Statement.defines_iff.mp hs).1
  have hinstructions : program.instructions = front.instructions ++ back.instructions := by
    rw [instructions_append, instructions_cons_definition hdefinition]
  have hlength := h.length_le
  rw [hinstructions, List.length_append] at hlength
  refine ⟨address, haddress, ?_, fun line hline => ?_⟩
  · have hnone : (∀ line ∈ after, isIndented line = false) ↔ after.filter isIndented = [] := by
      simp only [List.filter_eq_nil_iff, Bool.not_eq_true]
    rw [hnone, filter_isIndented_lines _ hback, List.map_eq_nil_iff, List.zipIdx_eq_nil_iff,
      hinstructions, List.length_append, hcount, ← List.length_eq_zero_iff]
    omega
  · rw [find?_isIndented_lines _ hback] at hline
    obtain ⟨t, ht, rfl⟩ := Option.map_eq_some_iff.mp hline
    have hmem : t ∈ back.instructions := List.mem_of_head? ht
    have hinstruction := isInstruction_of_mem_instructions hmem
    have hidentifiers := hback t (List.mem_of_mem_filter hmem)
    have hpositive := List.length_pos_of_mem hmem
    have hrange : address ≤ Operand.maxAddress := by
      rw [UInt16.le_iff_toNat_le, hcount]
      show _ ≤ 4095
      have hmax : maxProgramLength = 4096 := rfl
      omega
    rw [comment_addressedLine hinstruction hidentifiers,
      shownAddress_addressedLine hinstruction hidentifiers, ← hcount]
    refine ⟨rfl, ?_, ofToken_zeroPadded hrange⟩
    rw [Operand.resolve, haddress]
    exact if_neg (UInt16.not_lt.mpr hrange)

/-- **The addresses of a listing are those that labels stand for.** The instruction of number `i` is
the indented line of number `i` and shows `i`. The line of each label stands in the listing, and the
first instruction behind it shows the address of the label, if an instruction follows it; a branch
to what is shown there is a branch to the label. -/
theorem addressedListing_addresses {program : Program} {stripped : Stripped}
    (hnames : ∀ s ∈ program, s.hasIdentifiers = true) (hstrip : program.strip = .ok stripped) :
    let lines := program.addressedListing.lines
    let shown := lines.filter isIndented
    (shown.length = stripped.program.length ∧
      ∀ i line, shown[i]? = some line → ∃ s, stripped.program[i]? = some s ∧
        line = Numeral.padRight 32 commentColumn s.line ++ addressComment i ∧
        comment line = addressComment i ∧ denoted 10 (shownAddress line) = i) ∧
    (∀ name, name ∈ program.definedNames ↔ name ++ ascii ":" ∈ lines) ∧
    ∀ before name after, lines = before ++ (name ++ ascii ":") :: after →
      ∃ address, stripped.symbols.address? name = some address ∧
        (address.toNat = stripped.program.length ↔ ∀ line ∈ after, isIndented line = false) ∧
        ∀ line ∈ after.find? isIndented, comment line = addressComment address.toNat ∧
          (Operand.label name).resolve stripped.symbols = .ok (.address address) ∧
          ∀ column, Operand.ofToken .target { text := shownAddress line, column } =
            .ok (.address address) := by
  intro lines shown
  obtain ⟨hstrippable, rfl⟩ := strip_eq_ok_iff.mp hstrip
  have hlines : lines = addressedLines 0 program ++ [[]] := lines_addressedListing hnames
  have hshown : shown = program.instructions.zipIdx.map fun s => addressedLine s.1 s.2 := by
    rw [← filter_isIndented_lines 0 hnames, ← hlines]
  have hmem {s : Statement} (hs : s ∈ program.instructions) :
      s.isInstruction = true ∧ s.hasIdentifiers = true :=
    ⟨isInstruction_of_mem_instructions hs, hnames s (List.mem_of_mem_filter hs)⟩
  refine ⟨⟨?_, fun i line hline => ?_⟩, fun name => ⟨fun hname => ?_, fun hname => ?_⟩,
    fun before name after hcut => ?_⟩
  · rw [hshown, List.length_map, List.length_zipIdx]
  · rw [hshown, List.getElem?_map, List.getElem?_zipIdx, Nat.zero_add] at hline
    obtain ⟨_, hpair, rfl⟩ := Option.map_eq_some_iff.mp hline
    obtain ⟨s, hs, rfl⟩ := Option.map_eq_some_iff.mp hpair
    obtain ⟨hinstruction, hidentifiers⟩ := hmem (List.mem_of_getElem? hs)
    refine ⟨s, hs, rfl, comment_addressedLine hinstruction hidentifiers i, ?_⟩
    rw [shownAddress_addressedLine hinstruction hidentifiers, denoted_zeroPadded]
  · rw [hlines]
    exact List.mem_append_left _ (mem_addressedLines_of_defines 0 hname)
  · obtain ⟨before, after, hcut⟩ := List.append_of_mem hname
    obtain ⟨front, s, back, rfl, hdefines, -⟩ := exists_definition_of_lines (hlines ▸ hcut)
    exact mem_definedNames_iff.mpr ⟨s, by simp, hdefines⟩
  · obtain ⟨front, s, back, rfl, hdefines, rfl⟩ := exists_definition_of_lines (hlines ▸ hcut)
    rw [Nat.zero_add]
    exact exists_address_of_lines hstrippable hdefines fun t ht => hnames t (by simp [ht])

/-- Labels one behind the other, in front of a line beyond the column of the comments and at the
end. -/
theorem addressedListing_addresses_of_labels :
    let far := ascii "beyond_the_column_of_comments"
    let program : Program :=
      [.define (ascii "start"), .define (ascii "again"),
        { operation := .addi, operands := [.register 1, .register 1, .immediate 255] },
        .define (ascii "long"), { operation := .jmp, operands := [.label far] }, .define far]
    let stripped : Stripped :=
      { program := program.instructions
        symbols := [(ascii "start", 0), (ascii "again", 0), (ascii "long", 1), (far, 2)] }
    let lines := program.addressedListing.lines
    let first := ascii "  addi r1, r1, 255      ; 0000"
    let second := ascii "  jmp beyond_the_column_of_comments; 0001"
    (∀ s ∈ program, s.hasIdentifiers = true) ∧ program.strip = .ok stripped ∧
      lines.filter isIndented = [first, second] ∧ denoted 10 (shownAddress second) = 1 ∧
      (∃ address, stripped.symbols.address? (ascii "long") = some address ∧
        comment second = addressComment address.toNat ∧
        (Operand.label (ascii "long")).resolve stripped.symbols = .ok (.address address) ∧
        Operand.ofToken .target { text := shownAddress second, column := 9 } =
          .ok (.address address)) ∧
      ∃ address, stripped.symbols.address? far = some address ∧
        address.toNat = stripped.program.length := by
  intro far program stripped lines first second
  have hnames : ∀ s ∈ program, s.hasIdentifiers = true := by decide
  have hstrip : program.strip = .ok stripped := by decide
  have hshown : lines.filter isIndented = [first, second] := by decide
  obtain ⟨⟨-, hnumbers⟩, -, hlabels⟩ := addressedListing_addresses hnames hstrip
  obtain ⟨_, -, -, -, hdenoted⟩ := hnumbers 1 second (by rw [hshown]; rfl)
  obtain ⟨address, haddress, -, hnext⟩ := hlabels
    [ascii "start:", ascii "again:", first] (ascii "long") [second, far ++ ascii ":", []]
    (by decide)
  obtain ⟨hcomment, hresolve, hread⟩ := hnext second rfl
  obtain ⟨last, hlast, hend, -⟩ := hlabels
    [ascii "start:", ascii "again:", first, ascii "long:", second] far [[]] (by decide)
  exact ⟨hnames, hstrip, hshown, hdenoted, ⟨address, haddress, hcomment, hresolve, hread 9⟩,
    last, hlast, hend.mpr (by decide)⟩

end Program
end RegisterMachine
