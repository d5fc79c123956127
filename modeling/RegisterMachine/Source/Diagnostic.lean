/-
# Diagnostics

A diagnostic is a message with a severity and a place. A `Report` collects
diagnostics in the order in which they arise. Written out, a diagnostic is one
line: the place as `path:line:column: ` (as far as it is known, and only if the
registry knows the file), the severity, a colon and the message.

Key definitions: `Severity`, `Diagnostic`, `Diagnostic.render`, `Report`.
-/
import RegisterMachine.Source.Location
import RegisterMachine.Source.Registry
import RegisterMachine.Text.Numeral

namespace RegisterMachine

/-- How serious a diagnostic is. One that is `unranked` counts as neither error nor warning. -/
inductive Severity where
  | note
  | warning
  | error
  | unranked
deriving DecidableEq, Repr, Inhabited

/-- The word for a severity; an unranked diagnostic has none. -/
def Severity.name : Severity → Bytes
  | .note => ascii "note"
  | .warning => ascii "warning"
  | .error => ascii "error"
  | .unranked => []

/-- A message with its severity and place. -/
structure Diagnostic where
  severity : Severity
  message : Bytes
  location : Location := {}
deriving DecidableEq, Repr, Inhabited

namespace Diagnostic

/-- An error at a place. -/
def error (message : Bytes) (location : Location := {}) : Diagnostic :=
  { severity := .error, message, location }

/-- A note without a place. -/
def note (message : Bytes) : Diagnostic := { severity := .note, message }

/-- The place in front of a message, as far as it is known. -/
def place (registry : Option Registry) (location : Location) : Bytes :=
  let path := (registry.map (·.path location.file)).getD []
  if path = [] then []
  else
    let column :=
      if location.column = 0 then [] else 58 :: Numeral.decimal location.column.toNat
    let line :=
      if location.line = 0 then [] else 58 :: Numeral.decimal location.line.toNat ++ column
    path ++ line ++ ascii ": "

/-- The line that shows a diagnostic. -/
def render (registry : Option Registry) (d : Diagnostic) : Bytes :=
  place registry d.location ++ d.severity.name ++ ascii ": " ++ d.message ++ [Bytes.newline]

end Diagnostic

/-- The diagnostics that have arisen, the oldest first. -/
structure Report where
  diagnostics : List Diagnostic := []
deriving DecidableEq, Repr, Inhabited

namespace Report

/-- The report with more diagnostics at its end. -/
def append (report : Report) (more : List Diagnostic) : Report :=
  { diagnostics := report.diagnostics ++ more }

/-- How many diagnostics of the report have this severity. -/
def count (severity : Severity) (report : Report) : Nat :=
  (report.diagnostics.filter (·.severity = severity)).length

/-- The lines that show the whole report. -/
def render (registry : Option Registry) (report : Report) : Bytes :=
  report.diagnostics.flatMap (·.render registry)

end Report
end RegisterMachine
