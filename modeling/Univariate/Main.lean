import Univariate.Session.Script

/-!
# Command line

The program takes the name of the variable as its first argument and reads one line after the other
from the standard input. Every line is answered before the next one is read.
-/

namespace Univariate.CommandLine

/-- Writes some lines to the error output. -/
def writeErrors (lines : List String) : IO Unit :=
  lines.forM IO.eprintln

/-- Answers the lines of the standard input until it ends. -/
partial def answerLines (input : IO.FS.Stream) (s : Session) : IO Unit := do
  match Text.lines (← input.getLine) with
  | [] => return ()
  | line :: _ =>
    let (output, errors, s') := Script.feed s line
    output.forM IO.println
    writeErrors errors
    answerLines input s'

end Univariate.CommandLine

open Univariate Univariate.CommandLine in
/-- Runs a session over the standard input. -/
def main (args : List String) : IO UInt32 := do
  match Session.start (Script.nameOf args) with
  | .error f =>
    writeErrors f.report
    return 1
  | .ok s =>
    answerLines (← IO.getStdin) s
    return 0
