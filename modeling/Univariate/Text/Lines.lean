/-!
# Lines

A text is read line by line. Every line feed ends a line, together with a carriage return in front
of it, and what follows the last line feed is a line only if it is not empty.

## Main definitions

* `lines`: the lines of a text.
-/

namespace Univariate.Text

/-- The line that ends in front of a line feed, from its characters in reverse. -/
def endLine : List Char → List Char
  | '\r' :: line => line.reverse
  | line => line.reverse

/-- The lines of a text, the first of which has begun with some characters, given in reverse. -/
def linesFrom (line : List Char) : List Char → List (List Char)
  | [] => if line.isEmpty then [] else [line.reverse]
  | '\n' :: cs => endLine line :: linesFrom [] cs
  | c :: cs => linesFrom (c :: line) cs

/-- The lines of a text. -/
def lines (text : String) : List String :=
  (linesFrom [] text.toList).map String.ofList

end Univariate.Text
