/-
# The tokens of a line

A line is cut, up to the first `;`, into the name of a label before a colon, a
mnemonic, and operands between commas; each part may be missing. A `Token` is
such a part with the column at which it starts. Blanks around a part do not
belong to it, and blanks inside it are kept in operands only. A `Cursor` is
what is left of a line and how many bytes lie before it.

Key definitions: `Token`, `Cursor`, `LineTokens`, `LineTokens.ofLine`.
Key lemmas: `Cursor.skipBlanks_end`, `Cursor.word_end`.
-/
import RegisterMachine.Assembly.LineError

namespace RegisterMachine

/-- A part of a line and its column, counted from 1. -/
structure Token where
  text : Bytes
  column : UInt32
deriving DecidableEq, Repr, Inhabited

/-- The rest of a line behind its first `offset` bytes. -/
structure Cursor where
  offset : Nat
  rest : Bytes
deriving DecidableEq, Repr, Inhabited

namespace Cursor

/-- The column of the next byte. -/
def column (c : Cursor) : UInt32 := (c.offset + 1).toUInt32

/-- The offset at which the line ends. -/
def lineEnd (c : Cursor) : Nat := c.offset + c.rest.length

/-- The rest behind the blanks it begins with. -/
def skipBlanks (c : Cursor) : Cursor :=
  { offset := c.offset + Ascii.leadingBlanks c.rest, rest := Ascii.trimLeft c.rest }

/-- The bytes up to the first that ends a word, and the rest behind them. -/
def word (stop : UInt8 → Bool) (c : Cursor) : Bytes × Cursor :=
  let text := c.rest.takeWhile (!stop ·)
  (text, { offset := c.offset + text.length, rest := c.rest.dropWhile (!stop ·) })

/-- A fault at the next byte. -/
def fault (c : Cursor) (error : LineError) : LineFault := { error, column := c.column }

/-- A token that starts at the next byte. -/
def token (c : Cursor) (text : Bytes) : Token := { text, column := c.column }

theorem skipBlanks_end (c : Cursor) : c.skipBlanks.lineEnd = c.lineEnd := by
  have := Ascii.leadingBlanks_add_length c.rest
  simp only [skipBlanks, lineEnd]
  omega

theorem word_end (stop : UInt8 → Bool) (c : Cursor) : (c.word stop).2.lineEnd = c.lineEnd := by
  have h := congrArg List.length
    (List.takeWhile_append_dropWhile (p := fun b => !stop b) (l := c.rest))
  rw [List.length_append] at h
  simp only [word, lineEnd]
  omega

end Cursor

/-- The tokens of a line. -/
structure LineTokens where
  label : Option Token := none
  mnemonic : Option Token := none
  operands : List Token := []
deriving DecidableEq, Repr, Inhabited

namespace LineTokens

/-- The byte that ends a label. -/
def colon : UInt8 := 58

/-- The byte between operands. -/
def comma : UInt8 := 44

/-- The byte that starts a comment. -/
def semicolon : UInt8 := 59

/-- A line without its comment. -/
def withoutComment (line : Bytes) : Bytes := line.takeWhile (· != semicolon)

/-- The line holds neither a label nor an instruction. -/
def isEmpty (tokens : LineTokens) : Bool := tokens.label.isNone && tokens.mnemonic.isNone

/-- The operands among the pieces between commas, the first of which starts at `offset`. Each
piece has to hold something besides blanks. -/
def operandTokens (offset : Nat) : List Bytes → Except LineFault (List Token)
  | [] => .ok []
  | piece :: rest =>
    let start := Cursor.skipBlanks { offset, rest := piece }
    if start.rest = [] then .error (start.fault .missingOperand)
    else
      match operandTokens (offset + piece.length + 1) rest with
      | .ok tokens => .ok (start.token (Ascii.trim piece) :: tokens)
      | .error fault => .error fault

/-- The tokens from the mnemonic on; the word that ends at `after` is the mnemonic. -/
def ofWord (label : Option Token) (start : Cursor) (word : Bytes) (after : Cursor) :
    Except LineFault LineTokens :=
  if word = [] then .error (start.fault .missingMnemonic)
  else
    let mnemonic := some (start.token word)
    let arguments := after.skipBlanks
    if arguments.rest = [] then .ok { label, mnemonic }
    else
      match operandTokens arguments.offset (arguments.rest.splitOn comma) with
      | .ok operands => .ok { label, mnemonic, operands }
      | .error fault => .error fault

/-- The tokens behind a label. A colon is part of a word here. -/
def ofLabelled (label : Token) (start : Cursor) : Except LineFault LineTokens :=
  if start.rest = [] then .ok { label := some label }
  else
    let (word, after) := start.word fun b => Ascii.isBlank b || b == comma
    ofWord (some label) start word after

/-- The tokens of a line. -/
def ofLine (line : Bytes) : Except LineFault LineTokens :=
  let start := Cursor.skipBlanks { offset := 0, rest := withoutComment line }
  if start.rest = [] then .ok {}
  else
    let (word, after) := start.word fun b => Ascii.isBlank b || b == colon || b == comma
    match after.rest with
    | [] => ofWord none start word after
    | stop :: rest =>
      if stop = colon then
        if Ascii.isIdentifier word then
          ofLabelled (start.token word) (Cursor.skipBlanks { offset := after.offset + 1, rest })
        else .error (start.fault (.labelName word))
      else ofWord none start word after

end LineTokens
end RegisterMachine
