import Univariate.Double.Text
import Univariate.Session.Failure
import Univariate.Text.Blank
import Univariate.Token
import Univariate.Expr.Basic

/-!
# Commands

A line of a session is either a command, which starts with a colon, or an expression to show. The
words of a command are separated by blanks, and the last argument reaches to the end of the line.

## Main definitions

* `isVariableName`, `checkName`: which names a variable can have.
* `Command`: the commands.
* `Command.parse`: the command of a line.
-/

namespace Univariate

open Univariate.Text

/-! ### Names of variables -/

/-- Whether a name has a meaning of its own in expressions. -/
def isReserved (name : String) : Bool :=
  (Func.ofName? name).isSome || name == "pi" || name == "e"

/-- Whether a variable can have this name: it is a single name token with no meaning of its own. -/
def isVariableName (name : String) : Bool :=
  match tokenize name with
  | [t] => t.kind == .name && !isReserved name
  | _ => false

/-- The diagnostic for a name at a place of a line that is no name for a variable. -/
def invalidName (span : Span) (name : String) : Diagnostic :=
  ⟨[span], .invalidName name⟩

/-- Refuses a name that a variable cannot have. The diagnostic concerns all of the name, and at
least one character. -/
def checkName (name : String) : Except Diagnostic Unit :=
  if isVariableName name then .ok ()
  else .error (invalidName ⟨0, max 1 name.length⟩ name)

/-! ### Lines -/

/-- A line of a session. -/
inductive Command where
  /-- Show how an expression was read. -/
  | display (expr : String)
  /-- The value of an expression at a point. -/
  | eval (point : Double) (expr : String)
  /-- The derivative of an expression. -/
  | diff (expr : String)
  /-- The expansion of an expression. -/
  | poly (expr : String)
  /-- The LaTeX text of an expression. -/
  | latex (expr : String)
  /-- Change the variable. -/
  | setVariable (name : String)
  /-- Show the list of commands. -/
  | help

namespace Command

/-- The place of a word in a line, where `suffix` is the part of the line that starts with the word.
Even an empty word takes up one character. -/
def spanOf (line suffix word : List Char) : Span :=
  let start := line.length - suffix.length
  ⟨start, start + max 1 word.length⟩

/-- A failure of a command, at the place of a word in its line. -/
def refuse (line suffix word : List Char) (problem : Problem) : Except Failure Command :=
  .error (.command (String.ofList line) ⟨[spanOf line suffix word], problem⟩)

/-- The command of a line that starts with a colon and goes on with `rest`. -/
def parseAfterColon (line rest : List Char) : Except Failure Command :=
  let (word, args) := splitWord rest
  let name := String.ofList word
  let expr := String.ofList args
  let missing (argument : Argument) := refuse line rest word (.missingArgument name argument)
  match name with
  | "eval" =>
    let (point, expr) := splitWord args
    if point.isEmpty then missing .pointAndExpression
    else
      match Double.read? point with
      | none => refuse line args point (.invalidPoint (String.ofList point))
      | some x => if expr.isEmpty then missing .expression else .ok (.eval x (String.ofList expr))
  | "diff" => if args.isEmpty then missing .expression else .ok (.diff expr)
  | "poly" => if args.isEmpty then missing .expression else .ok (.poly expr)
  | "latex" => if args.isEmpty then missing .expression else .ok (.latex expr)
  | "var" =>
    if args.isEmpty then missing .name
    else if isVariableName expr then .ok (.setVariable expr)
    else refuse line args args (.invalidName expr)
  | "help" => .ok .help
  | _ => refuse line line line (.unknownCommand name)

/-- The command of a line, whose blanks at both ends do not count. -/
def parse (text : String) : Except Failure Command :=
  match trim text.toList with
  | ':' :: rest => parseAfterColon (':' :: rest) rest
  | line => .ok (.display (String.ofList line))

end Command

end Univariate
