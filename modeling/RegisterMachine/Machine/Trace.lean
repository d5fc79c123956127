/-
# Tracing

A trace has one line for each statement that is about to be carried out. It
shows the statement with its address or, if that is asked for and the statement
was read from a registered file, the line of the source it was read from,
without its indentation. A source file is looked at once, when its first line
is traced; what it held then, nothing if it could not be read, is what all its
later lines are taken from.

Key definitions: `TraceMode`, `SourceCache`, `SourceCache.look`,
`Trace.ofStatement`.
-/
import RegisterMachine.Machine.State
import RegisterMachine.Source.Registry
import RegisterMachine.Text.Ascii

namespace RegisterMachine

/-- What is traced. -/
inductive TraceMode where
  | off
  | instructions
  | source
deriving DecidableEq, Repr, Inhabited

/-- What each path holds, if it can be read. -/
abbrev Reader := Bytes → Option Bytes

/-- The lines of the source files that were looked at, by the numbers of the files. -/
abbrev SourceCache := List (UInt32 × Array Bytes)

/-- The lines of a source file as it was first seen, which is now if it was not before. -/
def SourceCache.look (cache : SourceCache) (read : Reader) (file : UInt32) (path : Bytes) :
    Array Bytes × SourceCache :=
  match cache.lookup file with
  | some lines => (lines, cache)
  | none =>
    let lines := (((read path).map Bytes.fileLines).getD []).toArray
    (lines, (file, lines) :: cache)

namespace Trace

/-- The path of the file that a statement was read from, empty if there is none to show. -/
def sourcePath (mode : TraceMode) (registry : Option Registry) (location : Location) : Bytes :=
  if mode = .source then (registry.map (·.path location.file)).getD [] else []

/-- A line of source text without the spaces and tabs it begins with. -/
def unindented (line : Bytes) : Bytes := line.dropWhile fun b => b == 32 || b == 9

/-- What every line of a trace begins with. -/
def tag : Bytes := ascii "[trace] "

/-- The trace line that shows a statement at its address. -/
def statementLine (pc : UInt16) (s : Statement) : Bytes :=
  tag ++ ascii "pc=" ++ Numeral.zeroPadded 4 pc.toNat ++ ascii " " ++ s.text ++ [Bytes.newline]

/-- The trace line that shows a place in a source file; the text is empty behind its last line. -/
def sourceLine (path : Bytes) (lines : Array Bytes) (line : UInt32) : Bytes :=
  let text :=
    if line = 0 then []
    else
      ascii ":" ++ Numeral.decimal line.toNat ++ ascii ": "
        ++ unindented (lines.getD (line.toNat - 1) [])
  tag ++ path ++ text ++ [Bytes.newline]

/-- What is traced of a statement at an address, and the source files looked at by then. -/
def ofStatement (mode : TraceMode) (registry : Option Registry) (read : Reader)
    (cache : SourceCache) (pc : UInt16) (s : Statement) : Bytes × SourceCache :=
  if mode = .off then ([], cache)
  else
    let path := sourcePath mode registry s.location
    if path = [] then (statementLine pc s, cache)
    else
      let (lines, cache) := cache.look read s.location.file path
      (sourceLine path lines s.location.line, cache)

end Trace
end RegisterMachine
