/-
# The program

Runs the tool on the files of the disk: looks at what the arguments could name,
lets the tool work on that, and then writes its texts and the files that it
changed.
-/
import RegisterMachine.Command.Tool

namespace RegisterMachine
namespace Disk

/-- The path of a place. -/
def pathOf (place : Place) : String :=
  (String.fromUTF8? ⟨(Path.separator :: [Path.separator].intercalate place).toArray⟩).getD ""

/-- What stands at a place, as far as it can be read. -/
def entryAt (place : Place) : IO (Option Entry) := do
  let path := (← IO.currentDir) / pathOf place
  if ← path.isDir then return some .directory
  try
    return some (.file (← IO.FS.readBinFile path).toList)
  catch _ =>
    return none

/-- The file system with what stands on the way along a path. -/
def look (files : FileSystem) (path : Bytes) : IO FileSystem := do
  let mut files := files
  let mut place := files.start path
  for component in Path.components path do
    if component = Path.up then
      place := place.dropLast
    else if component ≠ [] ∧ component ≠ Path.here then
      place := place ++ [component]
      if let some entry ← entryAt place then
        files := files.put place entry
  return files

/-- The file system with everything that the arguments could name. -/
def snapshot (arguments : List Bytes) : IO FileSystem := do
  let working := Path.normalComponents (ascii (← IO.currentDir).toString)
  let mut files := ({ working } : FileSystem).withDirectories working
  for argument in arguments do
    for path in [argument, Path.normal argument, Path.withExtension (ascii ".rvm") argument] do
      files ← look files path
  return files

/-- Writes the files that hold something else than before. -/
def store (before after : FileSystem) : IO Unit := do
  for (place, entry) in after.entries do
    if let .file content := entry then
      if before.content? place ≠ some content then
        IO.FS.writeBinFile (pathOf place) ⟨content.toArray⟩

end Disk

/-- Runs the tool; one that never ends has no exit status. -/
def runOnDisk (arguments : List Bytes) : IO UInt32 := do
  let before ← Disk.snapshot arguments
  match runTool before arguments with
  | none => return 1
  | some outcome =>
    (← IO.getStdout).write ⟨outcome.output.toArray⟩
    (← IO.getStderr).write ⟨outcome.messages.toArray⟩
    Disk.store before outcome.files
    return outcome.exit

end RegisterMachine

/-- The program with its arguments. -/
def main (arguments : List String) : IO UInt32 :=
  RegisterMachine.runOnDisk (arguments.map RegisterMachine.ascii)
