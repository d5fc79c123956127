/-
# Character classes

The classes of bytes that the assembly language distinguishes. They know ASCII
only: a byte from 128 up is in none of them and has no other case.

Key definitions: `isBlank`, `isDigit`, `isLetter`, `isWordByte`, `lower`,
`trimLeft`, `trim`, `isIdentifier`.
-/
import RegisterMachine.Text.Bytes

namespace RegisterMachine
namespace Ascii

/-- A space, or one of tab, newline, vertical tab, form feed and carriage return. -/
def isBlank (b : UInt8) : Bool := b == 32 || (9 ≤ b && b ≤ 13)

/-- A decimal digit. -/
def isDigit (b : UInt8) : Bool := 48 ≤ b && b ≤ 57

/-- A letter of either case. -/
def isLetter (b : UInt8) : Bool := (65 ≤ b && b ≤ 90) || (97 ≤ b && b ≤ 122)

/-- A letter, a digit or an underscore. -/
def isWordByte (b : UInt8) : Bool := isLetter b || isDigit b || b == 95

/-- The small letter of a capital one; every other byte is kept. -/
def lower (b : UInt8) : UInt8 := if 65 ≤ b && b ≤ 90 then b + 32 else b

/-- A text without its leading blanks. -/
def trimLeft (text : Bytes) : Bytes := text.dropWhile isBlank

/-- How many blanks a text begins with. -/
def leadingBlanks (text : Bytes) : Nat := (text.takeWhile isBlank).length

/-- A text without the blanks at either end. -/
def trim (text : Bytes) : Bytes := ((trimLeft text).reverse.dropWhile isBlank).reverse

/-- An identifier: a letter or an underscore, then letters, digits and underscores. -/
def isIdentifier : Bytes → Bool
  | [] => false
  | first :: rest => (isLetter first || first == 95) && rest.all isWordByte

theorem leadingBlanks_add_length (text : Bytes) :
    leadingBlanks text + (trimLeft text).length = text.length := by
  rw [leadingBlanks, trimLeft, ← List.length_append, List.takeWhile_append_dropWhile]

end Ascii
end RegisterMachine
