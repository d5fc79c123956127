/-
# Files

A file system is a value: what stands at each place below the root, and the
working directory. A path is resolved by walking through its components, so
that `x/../y` names nothing if there is no directory `x`. A path of more than 4095
bytes names nothing, nor does one that ends in a name of more than 255. Only
files are read and written; a write needs a directory to write into, and
replaces what the file held. A file is loaded only if it is not larger than
16 MiB, and a directory as an input counts as larger.

Key definitions: `FileSystem`, `FileSystem.locate?`, `FileSystem.read?`,
`FileSystem.write?`, `FileSystem.load`.
Key lemmas: `FileSystem.find?_put`.
-/
import RegisterMachine.Source.Diagnostic

namespace RegisterMachine

/-- What stands at a place of a file system. -/
inductive Entry where
  | directory
  | file (content : Bytes)
deriving DecidableEq, Repr, Inhabited

/-- A place in a file system: the names on the way there from the root. -/
abbrev Place := List Bytes

/-- The directories and files there are. -/
structure FileSystem where
  /-- The working directory. -/
  working : Place := []
  /-- What stands where, besides the root. -/
  entries : List (Place × Entry) := []
deriving DecidableEq, Repr, Inhabited

namespace FileSystem

/-- What stands at a place. -/
def find? (files : FileSystem) (place : Place) : Option Entry :=
  if place = [] then some .directory else files.entries.lookup place

/-- The file system with another entry at a place. -/
def put (files : FileSystem) (place : Place) (entry : Entry) : FileSystem :=
  { files with entries := (place, entry) :: files.entries.filter (·.1 != place) }

/-- The directory that a component leads to from another one. -/
def enter (files : FileSystem) (place : Place) (component : Bytes) : Option Place :=
  if component = [] ∨ component = Path.here then some place
  else if component = Path.up then some place.dropLast
  else
    let next := place ++ [component]
    if files.find? next = some .directory then some next else none

/-- The directory that a path starts at. -/
def start (files : FileSystem) (path : Bytes) : Place :=
  if Path.isAbsolute path then [] else files.working

/-- The length of the longest name that a file can have. -/
def maxNameLength : Nat := 255

/-- The length of the longest path that is followed. -/
def maxPathLength : Nat := 4095

/-- The place that a path names, in a directory that exists. A path to a directory by its very
form names no place for a file, and neither does one that is too long or ends in a name that is. -/
def locate? (files : FileSystem) (path : Bytes) : Option Place :=
  let parts := Path.components path
  let name := parts.getLast?.getD []
  if Path.marksDirectory name ∨ maxNameLength < name.length ∨ maxPathLength < path.length then none
  else (parts.dropLast.foldlM files.enter (files.start path)).map (· ++ [name])

/-- The content of the file at a place. -/
def content? (files : FileSystem) (place : Place) : Option Bytes :=
  match files.find? place with
  | some (.file content) => some content
  | _ => none

/-- The content of the file that a path names. -/
def read? (files : FileSystem) (path : Bytes) : Option Bytes :=
  (files.locate? path).bind files.content?

/-- The file system after the file that a path names was written, if that can be done. -/
def write? (files : FileSystem) (path content : Bytes) : Option FileSystem :=
  match files.locate? path with
  | none => none
  | some place =>
    if files.find? place = some .directory then none else some (files.put place (.file content))

/-- The path leads to a directory. -/
def isDirectory (files : FileSystem) (path : Bytes) : Bool :=
  path != [] && path.length ≤ maxPathLength &&
    ((Path.components path).foldlM files.enter (files.start path)).isSome

/-- The file system with all directories on the way to a place. -/
def withDirectories (files : FileSystem) (place : Place) : FileSystem :=
  (List.range place.length).foldl (fun files depth => files.put (place.take (depth + 1)) .directory)
    files

theorem lookup_filter_ne (entries : List (Place × Entry)) {place other : Place}
    (h : other ≠ place) :
    (entries.filter (·.1 != place)).lookup other = entries.lookup other := by
  induction entries with
  | nil => rfl
  | cons e rest ih =>
    obtain ⟨first, entry⟩ := e
    by_cases he : first = place
    · subst he
      have hne : (other == first) = false := beq_eq_false_iff_ne.mpr h
      simp [ih, List.lookup_cons, hne]
    · simp [he, List.lookup_cons, ih]

/-- A put changes the entry at its place and no other. -/
theorem find?_put (files : FileSystem) {place : Place} (entry : Entry) (hp : place ≠ [])
    (other : Place) :
    (files.put place entry).find? other =
      if other = place then some entry else files.find? other := by
  by_cases h : other = place
  · subst h; simp [find?, put, hp]
  · by_cases ho : other = []
    · subst ho; simp [find?, h]
    · have hne : (other == place) = false := beq_eq_false_iff_ne.mpr h
      simp [find?, put, h, ho, List.lookup_cons, hne, lookup_filter_ne _ h]

end FileSystem

/-- Why a file is not loaded. -/
inductive LoadError where
  | cannotOpen (path : Bytes)
  | tooLarge (path : Bytes)
deriving DecidableEq, Repr, Inhabited

/-- The message that reports why a file is not loaded. -/
def LoadError.message : LoadError → Bytes
  | cannotOpen path => ascii "unable to open " ++ path
  | tooLarge path => ascii "input file too large: " ++ path ++ ascii " (limit: 16 MB)"

/-- The diagnostic of a file that is not loaded. -/
def LoadError.diagnostic (error : LoadError) : Diagnostic := .error error.message

/-- The size of the largest file that is loaded. -/
def maxInputSize : Nat := 16 * 1024 * 1024

/-- The content of an input file. A directory can be opened, and is refused for its size. -/
def FileSystem.load (files : FileSystem) (path : Bytes) : Except LoadError Bytes :=
  match files.read? path with
  | none => .error (if files.isDirectory path then .tooLarge path else .cannotOpen path)
  | some content =>
    if content.length > maxInputSize then .error (.tooLarge path) else .ok content

/-- A loaded file and the registry that knows it. -/
structure SourceFile where
  content : Bytes
  registry : Registry
  file : UInt32
deriving DecidableEq, Repr, Inhabited

/-- Loads a file and registers it, alone. -/
def SourceFile.load (files : FileSystem) (path : Bytes) : Except LoadError SourceFile :=
  match files.load path with
  | .error error => .error error
  | .ok content =>
    let (registry, file) := ({} : Registry).register path
    .ok { content, registry, file }

end RegisterMachine
