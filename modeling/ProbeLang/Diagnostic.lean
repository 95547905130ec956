import ProbeLang.Options
import ProbeLang.Position

/-!
# Diagnostics

A diagnostic is a message with a severity and, usually, a place. A log keeps the diagnostics
in the order in which they were reported.
-/

namespace ProbeLang

/-- How grave a diagnostic is. -/
inductive Severity
  | error
  | warning
  | note
  deriving Repr, DecidableEq

/-- The name of a severity. -/
def Severity.name : Severity → String
  | .error => "error"
  | .warning => "warning"
  | .note => "note"

/-- A message about a program. -/
structure Diagnostic where
  severity : Severity
  message : String
  source : Option String := none
  pos : Pos := Pos.none
  lint : Option LintCategory := none
  deriving Repr, DecidableEq

namespace Diagnostic

/-- Whether the diagnostic is an error. -/
def isError (d : Diagnostic) : Bool :=
  d.severity == .error

/-- The diagnostic as one line of text. -/
def text (d : Diagnostic) : String :=
  let place :=
    match d.source with
    | none => ""
    | some source =>
        if d.pos.line = 0 then source ++ ": " else source ++ ":" ++ toString d.pos.line ++ ": "
  let lint :=
    match d.lint with
    | none => ""
    | some lint => "[" ++ lint.name ++ "] "
  place ++ d.severity.name ++ ": " ++ lint ++ d.message

end Diagnostic

/-- The diagnostics of a task so far, last first, with the number of errors and warnings. -/
structure Log where
  reversed : List Diagnostic := []
  errors : Nat := 0
  warnings : Nat := 0
  deriving Repr, DecidableEq

namespace Log

/-- Nothing has been reported. -/
def empty : Log := {}

/-- The diagnostics in the order of their reports. -/
def diagnostics (log : Log) : List Diagnostic :=
  log.reversed.reverse

/-- Report a diagnostic. -/
def report (log : Log) (d : Diagnostic) : Log where
  reversed := d :: log.reversed
  errors := if d.severity = .error then log.errors + 1 else log.errors
  warnings := if d.severity = .warning then log.warnings + 1 else log.warnings

/-- Report diagnostics one after the other. -/
def reportAll (log : Log) (ds : List Diagnostic) : Log :=
  ds.foldl report log

theorem reportAll_append (log : Log) (ds ds' : List Diagnostic) :
    log.reportAll (ds ++ ds') = (log.reportAll ds).reportAll ds' :=
  List.foldl_append

/-- Whether an error has been reported. -/
def hasErrors (log : Log) : Bool :=
  log.reversed.any Diagnostic.isError

end Log

end ProbeLang
