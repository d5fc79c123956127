/-
# Places in a source text

A `Location` names a file by its number in the registry, and a line and a
column counted from 1. Zero stands for "not known" in each of the three parts,
so the default location names nothing.

Key definitions: `Location`, `Location.atColumn`.
-/

namespace RegisterMachine

/-- A place in a source text; a part that is 0 is not known. -/
structure Location where
  /-- The number of the file in the registry. -/
  file : UInt32 := 0
  /-- The line, from 1. -/
  line : UInt32 := 0
  /-- The column in bytes, from 1. -/
  column : UInt32 := 0
deriving DecidableEq, Repr, Inhabited

namespace Location

/-- The place in the same line at another column. -/
def atColumn (location : Location) (column : UInt32) : Location := { location with column }

end Location
end RegisterMachine
