/-
# Integer literals

A literal is written in decimal, with an optional minus sign, or in hexadecimal
behind `0x` or `0X`, with no sign in front. The digits behind the `0x` may have
a minus sign of their own: a body of either base is an optional minus sign and
digits. A literal of which the value does not fit into 64 bits with a sign is
none, and so is a decimal one that would be `-2^63`: its sign is applied to a
magnitude that has to fit by itself.

Key definitions: `Literal.digit?`, `Literal.magnitude?`, `Literal.body?`,
`Literal.value?`.
Key lemmas: `Literal.magnitudeFrom?_append_singleton`.
-/
import RegisterMachine.Text.Ascii

namespace RegisterMachine
namespace Literal

/-- The minus sign. -/
def minus : UInt8 := 45

/-- The value of a digit in a base up to 16; letters may have either case. -/
def digit? (base : Nat) (b : UInt8) : Option Nat :=
  let value :=
    if Ascii.isDigit b then (b - 48).toNat
    else if Ascii.isLetter b then (Ascii.lower b - 97).toNat + 10
    else base
  if value < base then some value else none

/-- The value of a run of digits that follows digits of value `before`. -/
def magnitudeFrom? (base before : Nat) (digits : Bytes) : Option Nat :=
  digits.foldlM (fun value b => (digit? base b).map (value * base + ·)) before

/-- The value of a run of digits, at least one. -/
def magnitude? (base : Nat) (digits : Bytes) : Option Nat :=
  if digits = [] then none else magnitudeFrom? base 0 digits

/-- The integers of 64 bits with a sign. -/
def fits (value : Int) : Bool := Int64.minValue.toInt ≤ value && value ≤ Int64.maxValue.toInt

/-- The value of an optional minus sign and digits, if it fits. -/
def body? (base : Nat) (text : Bytes) : Option Int :=
  let value :=
    match text with
    | [] => none
    | first :: rest =>
      if first = minus then (magnitude? base rest).map (- Int.ofNat ·)
      else (magnitude? base text).map Int.ofNat
  value.filter fits

/-- What follows `0x` or `0X`, if the text begins so and goes on. -/
def hexadecimal? : Bytes → Option Bytes
  | zero :: x :: first :: rest =>
    if zero = 48 ∧ (x = 120 ∨ x = 88) then some (first :: rest) else none
  | _ => none

/-- The value of a literal. -/
def value? (text : Bytes) : Option Int :=
  match text with
  | [] => none
  | first :: rest =>
    if first = minus then
      if rest.head? = some minus ∨ (hexadecimal? rest).isSome then none
      else (body? 10 rest).map (- ·)
    else
      match hexadecimal? text with
      | some digits => body? 16 digits
      | none => body? 10 text

/-- One more digit shifts the value by one place. -/
theorem magnitudeFrom?_append_singleton (base before : Nat) (digits : Bytes) (b : UInt8) :
    magnitudeFrom? base before (digits ++ [b]) =
      (magnitudeFrom? base before digits).bind fun value =>
        (digit? base b).map (value * base + ·) := by
  simp [magnitudeFrom?, List.foldlM_append]

end Literal
end RegisterMachine
