/-!
# Diagnostics

Everything that can go wrong is reported in one form: what the problem is, and which parts of the
text it concerns. The texts shown to a user are functions of the problem.

## Main definitions

* `Span`: a part of a text.
* `Span.Marks`: what stands in a span.
* `Problem`: the causes.
* `Problem.message`, `Problem.label`, `Problem.help?`: what a user is told.
* `Diagnostic`: a problem and where it is.
-/

namespace Univariate

/-- A part of a text, from one character to the one behind it. -/
structure Span where
  /-- The position of the first character. -/
  start : Nat
  /-- The position behind the last character. -/
  stop : Nat
  deriving DecidableEq, Repr

/-- A span marks a part of a text: it is not empty, it does not reach beyond the text, and the
characters in it are that part. -/
structure Span.Marks (span : Span) (text part : List Char) : Prop where
  /-- There is something in the span. -/
  start_lt_stop : span.start < span.stop
  /-- The span lies within the text. -/
  stop_le_length : span.stop ≤ text.length
  /-- The part is what stands there. -/
  slice_eq : (text.take span.stop).drop span.start = part

/-- A part of a text is marked by the span that starts behind the characters in front of it and is
as long as it is. -/
theorem Span.marks_append (before behind : List Char) {part : List Char} (hne : part ≠ []) :
    Span.Marks ⟨before.length, before.length + part.length⟩ (before ++ part ++ behind) part := by
  refine ⟨?_, ?_, ?_⟩
  · exact Nat.lt_add_of_pos_right (List.length_pos_iff.mpr hne)
  · simp only [List.length_append]
    omega
  · show ((before ++ part ++ behind).take (before.length + part.length)).drop before.length = part
    rw [← List.length_append, List.take_left, List.drop_left]

/-- What a command can lack. -/
inductive Argument where
  /-- A point and the expression to evaluate there. -/
  | pointAndExpression
  /-- An expression. -/
  | expression
  /-- The name of a variable. -/
  | name
  deriving DecidableEq, Repr

/-- The words for a missing argument. -/
def Argument.describe : Argument → String
  | .pointAndExpression => "a value and an expression"
  | .expression => "an expression"
  | .name => "a name"

/-- What went wrong. -/
inductive Problem where
  /-- An expression ends where more of it is needed. -/
  | unexpectedEnd
  /-- A token does not fit where it stands, in an expression in the given variable. -/
  | unexpectedInput (found variableName : String)
  /-- A computation met an error leaf. -/
  | errorReached (offset : Nat)
  /-- There is no command of this name. -/
  | unknownCommand (name : String)
  /-- A command lacks an argument. -/
  | missingArgument (command : String) (argument : Argument)
  /-- The point of an evaluation is not a number. -/
  | invalidPoint (found : String)
  /-- The variable cannot have this name. -/
  | invalidName (found : String)
  deriving DecidableEq, Repr

namespace Problem

/-- What went wrong, in one sentence. -/
def message : Problem → String
  | unexpectedEnd => "unexpected end of expression"
  | unexpectedInput found _ => s!"unexpected `{found}`"
  | errorReached _ => "cannot compute an expression that failed to parse"
  | unknownCommand name => s!"unknown command `:{name}`"
  | missingArgument command argument => s!"`:{command}` needs {argument.describe}"
  | invalidPoint found => s!"`{found}` is not a number"
  | invalidName found => s!"`{found}` cannot be used as the variable"

/-- The note at the part of the text that is concerned. -/
def label : Problem → String
  | unexpectedEnd => "you might need to add another expression here"
  | unexpectedInput _ _ => "I could not understand the expression from here"
  | errorReached offset => s!"parsing failed at offset {offset.repr}"
  | unknownCommand _ => "this command"
  | missingArgument _ argument => s!"add {argument.describe} after this command"
  | invalidPoint _ => "expected the value of the variable here"
  | invalidName _ => "this name"

/-- What can be done about it. -/
def help? : Problem → Option String
  | unexpectedEnd => none
  | unexpectedInput _ variableName =>
    some (s!"check for unmatched ( or |, or for names other than the variable `{variableName}` " ++
      "and the supported functions")
  | errorReached _ => some "fix the expression and try again"
  | unknownCommand _ => some "available commands: :eval, :diff, :poly, :latex, :var, :help"
  | missingArgument _ _ => none
  | invalidPoint _ => some "for example: :eval 2.5 x^2"
  | invalidName _ =>
    some ("use a single word made of letters, digits and underscores, other than a function name, " ++
      "`pi`, or `e`")

end Problem

/-- A problem and the parts of a text that it concerns. -/
structure Diagnostic where
  /-- The parts of the text. -/
  spans : List Span
  /-- What went wrong. -/
  problem : Problem
  deriving DecidableEq, Repr

/-- The report of a computation that met an error leaf: it concerns the one place that the leaf
points to. -/
def Diagnostic.errorReached (offset : Nat) : Diagnostic :=
  ⟨[⟨offset, offset + 1⟩], .errorReached offset⟩

end Univariate
