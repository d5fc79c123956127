/-
# The program of an input file

An input is a source text or a bytecode file; it is taken for the latter if it
begins with the magic number. What is wrong with a source text is shown with
its places, and what is wrong with a bytecode file has none.

Key definitions: `SourceFile.assemble`, `decodeFile`, `SourceFile.program`.
-/
import RegisterMachine.Assembly.Assemble
import RegisterMachine.Bytecode.Decode
import RegisterMachine.Bytecode.Image
import RegisterMachine.Command.FileSystem

namespace RegisterMachine

/-- The program of a source text, or the text of the diagnostics that it is refused with. -/
def SourceFile.assemble (source : SourceFile) : Except Bytes Program :=
  match Program.assemble source.file source.content with
  | .ok program => .ok program
  | .error r => .error (Report.render (some source.registry) { diagnostics := r.diagnostics })

/-- The program of a bytecode file. -/
def decodeFile (content : Bytes) : Except Diagnostic Program :=
  match Image.ofBytes content with
  | .error error => .error (.error error.message)
  | .ok image => Word.decodeAll image.code

/-- The program of a file of either kind, or the text that it is refused with. -/
def SourceFile.program (source : SourceFile) : Except Bytes Program :=
  if Image.hasMagic source.content then
    match decodeFile source.content with
    | .ok program => .ok program
    | .error d => .error (d.render none)
  else source.assemble

end RegisterMachine
