/-
# The registry of source files

Source files are known by number. The registry numbers the normal forms of
their paths 1, 2, 3, … in the order in which they are first registered, so two
spellings of one path share a number. Number 0 is the number of no file: it is
the answer to a new path when all others are given.

Key definitions: `Registry`, `Registry.register`, `Registry.path`.
-/
import RegisterMachine.Source.Path

namespace RegisterMachine

/-- The normal forms of the registered paths; file `i + 1` is at index `i`. -/
structure Registry where
  paths : List Bytes := []
deriving DecidableEq, Repr, Inhabited

namespace Registry

/-- How many files can be registered: their numbers have 32 bits, and 0 is none of them. -/
def maxFiles : Nat := UInt32.size - 1

/-- Registers a path and gives its number: the one it has already, or the next one. If there is no
next one it is not registered. -/
def register (registry : Registry) (path : Bytes) : Registry × UInt32 :=
  let normal := Path.normal path
  match registry.paths.idxOf? normal with
  | some index => (registry, (index + 1).toUInt32)
  | none =>
    if registry.paths.length < maxFiles then
      ({ paths := registry.paths ++ [normal] }, (registry.paths.length + 1).toUInt32)
    else (registry, 0)

/-- The path of a file number, empty for a number that was not given. -/
def path (registry : Registry) (file : UInt32) : Bytes :=
  if file = 0 then [] else registry.paths.getD (file.toNat - 1) []

end Registry
end RegisterMachine
