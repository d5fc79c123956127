/-
# The command `build`

`build` assembles a source file and writes its bytecode file. Without an output
option that is the input path with the extension `.rvm`. The output file is
opened when the words are known, so it is not touched if the source is refused.

Key definitions: `SourceFile.words`, `Arguments.bytecodePath`, `build`.
-/
import RegisterMachine.Bytecode.Encode
import RegisterMachine.Command.Input
import RegisterMachine.Command.Outcome

namespace RegisterMachine

/-- The words of a source text, or the text of the diagnostics that it is refused with. -/
def SourceFile.words (source : SourceFile) : Except Bytes (List Word) :=
  match source.assemble with
  | .error text => .error text
  | .ok program =>
    match program.encode with
    | .ok words => .ok words
    | .error d => .error (d.render (some source.registry))

/-- The path of the bytecode file. -/
def Arguments.bytecodePath (a : Arguments) : Bytes :=
  if a.output = [] then Path.withExtension (ascii ".rvm") a.input else a.output

/-- Writes words as the bytecode file. -/
def Arguments.writeImage (a : Arguments) (files : FileSystem) (words : List Word) : Outcome :=
  let path := a.bytecodePath
  match files.write? path [] with
  | none => .refusal files (cannotWrite path)
  | some opened =>
    match Image.toBytes { code := words } with
    | .error error => .refusal opened (.error error.message)
    | .ok bytes =>
      { messages := a.options.note (ascii "assembled " ++ Numeral.decimal words.length
          ++ ascii " instructions from " ++ a.input ++ ascii " to " ++ path)
        files := (opened.write? path bytes).getD opened }

/-- The command `build`. -/
def build (files : FileSystem) (a : Arguments) : Outcome :=
  match SourceFile.load files a.input with
  | .error error => .refusal files error.diagnostic
  | .ok source =>
    match source.words with
    | .error text => .failure files text
    | .ok words => a.writeImage files words

end RegisterMachine
