import Univariate.Derivative
import Univariate.Diagnostic.Reading
import Univariate.Expr.Latex
import Univariate.Expr.Parser
import Univariate.Normalize
import Univariate.Session.Command

/-!
# Sessions

A session reads one line after the other and answers each with a text or a failure. All it remembers
between lines is the name of the variable, and only a command that succeeds can change it.

## Main definitions

* `Session`: the state between two lines.
* `Session.start`: a session with a variable of the given name.
* `Session.execute`: the answer to a command.
* `Session.step`: the answer to a line.
-/

namespace Univariate

/-- What a session remembers between two lines. -/
structure Session where
  /-- The name of the variable. -/
  name : String
  deriving DecidableEq, Repr

namespace Session

/-- A session with a variable of the given name. -/
def start (name : String) : Except Failure Session :=
  match checkName name with
  | .ok () => .ok ⟨name⟩
  | .error d => .error (.command name d)

/-- The tree of an expression, if all of it can be understood. -/
def read (s : Session) (expr : String) : Except Failure (Expr Double) :=
  let tree := Expr.parse s.name expr
  if tree.hasError then
    let text := Text.strip expr
    .error (.expression text (tree.diagnostics s.name text))
  else .ok tree

/-- The result of a computation on an expression. -/
def computed {α : Type} (expr : String) : Except Diagnostic α → Except Failure α
  | .ok a => .ok a
  | .error d => .error (.computation (Text.strip expr) d)

/-- The list of commands. -/
def helpText (s : Session) : String :=
  "<expr>             show how the expression was parsed\n" ++
  ":eval <x> <expr>   evaluate the expression at a value of the variable\n" ++
  ":diff <expr>       differentiate the expression\n" ++
  ":poly <expr>       expand the expression into a polynomial\n" ++
  ":latex <expr>      show the expression as LaTeX\n" ++
  ":var <name>        change the variable (currently `" ++ s.name ++ "`)\n" ++
  ":help              show this message"

/-- The text that answers a command that leaves the variable alone. -/
def answer (s : Session) : Command → Except Failure String
  | .display expr => do return (← s.read expr).plain
  | .eval x expr => do
    let tree ← s.read expr
    return Numeral.text (← computed expr (tree.eval x))
  | .diff expr => do
    let tree ← s.read expr
    return (← computed expr tree.derivative).plain
  | .poly expr => do return (← s.read expr).normalize.plain
  | .latex expr => do return (← s.read expr).latex
  | .setVariable name => return "the variable is now `" ++ name ++ "`"
  | .help => return s.helpText

/-- The session behind a command that has succeeded. -/
def after (s : Session) : Command → Session
  | .setVariable name => ⟨name⟩
  | _ => s

/-- The answer to a command, and the session behind it. -/
def execute (s : Session) (c : Command) : Except Failure (String × Session) :=
  (s.answer c).map fun text => (text, s.after c)

/-- The answer to a line, and the session behind it. A line that fails leaves the session as it
was. -/
def step (s : Session) (line : String) : Except Failure String × Session :=
  match (Command.parse line).bind s.execute with
  | .ok (text, s') => (.ok text, s')
  | .error f => (.error f, s)

end Session

end Univariate
