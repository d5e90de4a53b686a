import Univariate.Diagnostic
import Univariate.Text.Lines

/-!
# Failures

When a line of a session fails, the diagnostics are kept together with the text that their spans
point into.

## Main definitions

* `Failure`: why a line failed.
* `Failure.diagnostics`, `Failure.text`: what is wrong, and in which text.
* `Failure.report`: the lines of the report.
-/

namespace Univariate

/-- Why a line of a session failed. -/
inductive Failure where
  /-- The expression cannot be understood. The spans point into its text without blanks. -/
  | expression (text : String) (diagnostics : List Diagnostic)
  /-- The expression cannot be computed. The spans point into its text without blanks. -/
  | computation (text : String) (diagnostic : Diagnostic)
  /-- The command is malformed. The spans point into the line. -/
  | command (line : String) (diagnostic : Diagnostic)
  deriving DecidableEq, Repr

namespace Failure

/-- What is wrong. -/
def diagnostics : Failure → List Diagnostic
  | expression _ ds => ds
  | computation _ d => [d]
  | command _ d => [d]

/-- The text that the diagnostics are about. -/
def text : Failure → String
  | expression text _ => text
  | computation text _ => text
  | command line _ => line

/-- The mark in front of the message of a report. -/
def mark : String := "Error: "

/-- The lines of a report on one diagnostic: the marked message, and below it the indented notes. -/
def reportLines (d : Diagnostic) : List String :=
  Text.lines (mark ++ d.problem.message) ++ ["  " ++ d.problem.label] ++
    (d.problem.help?.map fun help => "  Help: " ++ help).toList

/-- The lines of the report on a failure. -/
def report (f : Failure) : List String :=
  f.diagnostics.flatMap reportLines

end Failure

end Univariate
