/-
# Words are decoded if they are encoded

A statement has a word if it is an instruction that fits one, and the word is
that of the instruction. Such a word is decoded, to the normal form of the
instruction, and every word that is decoded is the word of what it is decoded
to. So the words that are decoded are those of statements, no two of them are
decoded to one instruction, and encoding a decoded program gives its words
back.

Key theorems: `Statement.encode_eq_ok_iff`, `Word.exists_decode_iff`,
`Word.encode_statement_of_decode`, `Word.encode_inverse_decode`.
-/
import RegisterMachine.Proofs.Encoding

namespace RegisterMachine

theorem Statement.encode_eq_ok_iff {s : Statement} {w : Word} :
    s.encode = .ok w ↔ ∃ i, s.instruction = .ok i ∧ i.Fits ∧ i.word = w := by
  unfold encode
  cases s.instruction with
  | error cause => simp
  | ok i =>
    simp only [Except.ok.injEq, exists_eq_left', ← Instruction.rangeError?_eq_none_iff]
    cases i.rangeError? <;> simp

namespace Word

theorem exists_decode_iff (w : Word) :
    (∃ i, decode w = .ok i) ↔ ∃ s : Statement, s.encode = .ok w := by
  constructor
  · rintro ⟨i, h⟩
    obtain ⟨hword, hfits⟩ := word_of_decode h
    exact ⟨i.statement,
      Statement.encode_eq_ok_iff.mpr ⟨i, i.instruction_statement, hfits, hword⟩⟩
  · rintro ⟨s, h⟩
    obtain ⟨i, -, hfits, rfl⟩ := Statement.encode_eq_ok_iff.mp h
    exact ⟨i.normal, decode_word hfits⟩

theorem encode_statement_of_decode {w : Word} {i : Instruction} (h : decode w = .ok i) :
    i.statement.encode = .ok w := by
  obtain ⟨hword, hfits⟩ := word_of_decode h
  rw [(Statement.means_statement hfits).encode_eq, hword]

theorem encode_of_decodeAll {words : List Word} {program : Program}
    (h : decodeAll words = .ok program) : program.encode = .ok words := by
  obtain ⟨instructions, hmeans, rfl⟩ := means_of_decodeFrom h
  exact Program.encode_of_means hmeans

/-- **A word is decoded if and only if it is the word of a statement, and encoding undoes
decoding**, of single words and of programs. -/
theorem encode_inverse_decode :
    (∀ w : Word, (∃ i, decode w = .ok i) ↔ ∃ s : Statement, s.encode = .ok w) ∧
      (∀ (w : Word) (i : Instruction), decode w = .ok i → i.statement.encode = .ok w) ∧
      ∀ (words : List Word) (program : Program),
        decodeAll words = .ok program → program.encode = .ok words :=
  ⟨exists_decode_iff, fun _ _ => encode_statement_of_decode, fun _ _ => encode_of_decodeAll⟩

/-- The words of `mv`, of an addition of 255 and of a branch to the last address, and a word that
is none: its register to be written is not 0, and it is a branch. -/
theorem encode_inverse_decode_of_fields :
    let words : List Word := [0x003201, 0xFF1101, 0xFFF08B]
    let program : Program :=
      [{ operation := .mv, operands := [.register 2, .register 3] },
        { operation := .addi, operands := [.register 1, .register 1, .immediate 255] },
        { operation := .bnz, operands := [.address 4095] }]
    decodeAll words = .ok program ∧ program.encode = .ok words ∧
      decode 0xFFF08B = .ok (.branch .nonzero 4095) ∧
      (Instruction.branch .nonzero 4095).statement.encode = .ok 0xFFF08B ∧
      ¬ ∃ s : Statement, s.encode = .ok 0xFFF18B := by
  intro words program
  obtain ⟨hdecoded, hword, hprogram⟩ := encode_inverse_decode
  have hdecode : decodeAll words = .ok program := by decide
  refine ⟨hdecode, hprogram words program hdecode, by decide, hword _ _ (by decide), ?_⟩
  rw [← hdecoded]
  rintro ⟨i, hi⟩
  have hrefused : decode 0xFFF18B = .error (.reservedBits .branch) := by decide
  rw [hrefused] at hi
  cases hi

end Word
end RegisterMachine
