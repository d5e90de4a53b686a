import Univariate.Session.Basic

/-!
# Scripts

A script is a run of a session over the lines of a text, without anybody to type them. Answers go to
the output and reports of failures to the error output. Lines without anything but blanks are
skipped. A failing line does not end the run, but a variable with an impossible name does not let it
begin.

## Main definitions

* `Transcript`: what a run leaves behind.
* `Script.feed`: one line of a run.
* `Script.run`: the run for some arguments and an input.
-/

namespace Univariate

/-- What a run leaves behind. -/
structure Transcript where
  /-- The exit code. -/
  exitCode : Nat
  /-- The lines on the output. -/
  output : List String
  /-- The lines on the error output. -/
  errors : List String

namespace Script

/-- The name of the variable when no other is given. -/
def defaultName : String := "x"

/-- The name of the variable: the first argument, if there is one. -/
def nameOf (args : List String) : String :=
  args.headD defaultName

/-- Whether there is anything on a line. -/
def isBlankLine (line : String) : Bool :=
  line.toList.all Text.isBlank

/-- Feeds one line to a session: what it writes to the output and to the error output, and the
session behind it. -/
def feed (s : Session) (line : String) : List String × List String × Session :=
  if isBlankLine line then ([], [], s)
  else
    match s.step line with
    | (.ok text, s') => ([text], [], s')
    | (.error f, s') => ([], f.report, s')

/-- Feeds lines to a session one after the other. -/
def feedAll (s : Session) : List String → List String × List String
  | [] => ([], [])
  | line :: rest =>
    let (out, err, s') := feed s line
    let (outs, errs) := feedAll s' rest
    (out ++ outs, err ++ errs)

/-- The run for some arguments and an input. -/
def run (args : List String) (input : String) : Transcript :=
  match Session.start (nameOf args) with
  | .error f => ⟨1, [], f.report⟩
  | .ok s =>
    let (output, errors) := feedAll s (Text.lines input)
    ⟨0, output, errors⟩

end Script

end Univariate
