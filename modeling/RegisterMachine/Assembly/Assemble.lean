/-
# From source text to instructions

`Program.assemble` reads a source text and links it. It is refused with the
diagnostics of all the lines that cannot be read; if there is none, with the
one diagnostic of its labels. `Report.assemble` does so into a report.

Key definitions: `Rejection`, `Program.assemble`, `Report.assemble`.
-/
import RegisterMachine.Assembly.Reading
import RegisterMachine.Assembly.Symbols

namespace RegisterMachine

/-- Why a source text is refused: at least one diagnostic. -/
structure Rejection where
  first : Diagnostic
  others : List Diagnostic := []
deriving DecidableEq, Repr, Inhabited

/-- All diagnostics of a rejection, in their order. -/
def Rejection.diagnostics (r : Rejection) : List Diagnostic := r.first :: r.others

/-- The program of a source text that is the file of this number. -/
def Program.assemble (file : UInt32) (source : Bytes) : Except Rejection Program :=
  let reading := Reading.ofSource file source
  match reading.diagnostics with
  | first :: others => .error { first, others }
  | [] =>
    match reading.program.link with
    | .ok program => .ok program
    | .error fault => .error { first := fault.diagnostic }

/-- Assembles a source text and adds the diagnostics to a report; a refused text gives the first
of its own. -/
def Report.assemble (report : Report) (file : UInt32) (source : Bytes) :
    Except Diagnostic Program × Report :=
  match Program.assemble file source with
  | .ok program => (.ok program, report)
  | .error rejection => (.error rejection.first, report.append rejection.diagnostics)

end RegisterMachine
