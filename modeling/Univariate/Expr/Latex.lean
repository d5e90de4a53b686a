import Univariate.Expr.Precedence
import Univariate.Expr.Plain

/-!
# LaTeX of expressions

Where LaTeX marks the extent of an operand by itself, as in fractions, roots and exponents, the
parentheses around the operand are left out. Where it does not, as around the base of a power or
behind a minus, they are added when they are needed.

## Main definitions

* `Func.latexCall`: a function applied to a LaTeX text.
* `Expr.latexText`: the LaTeX text of a tree, with or without the parentheses around it.
* `Expr.latex`: the LaTeX text of a tree.

## Main results

* `Expr.latexText_true`: leaving out the parentheses is typesetting the tree inside them.
-/

namespace Univariate

namespace Latex

/-- A text in the braces that mark the argument of a command. -/
def braced (s : String) : String :=
  "\x7b" ++ s ++ "\x7d"

/-- A text in parentheses that grow with it. -/
def parenthesized (s : String) : String :=
  "\\left(" ++ s ++ "\\right)"

end Latex

open Latex

/-- The LaTeX text of a function applied to an argument. Most functions are typeset as an operator
name in front of parentheses, some have a notation of their own. -/
def Func.latexCall (f : Func) (arg : String) : String :=
  match f with
  | .sin => "\\sin" ++ parenthesized arg
  | .cos => "\\cos" ++ parenthesized arg
  | .tan => "\\tan" ++ parenthesized arg
  | .cot => "\\cot" ++ parenthesized arg
  | .sec => "\\sec" ++ parenthesized arg
  | .csc => "\\csc" ++ parenthesized arg
  | .arcsin => "\\arcsin" ++ parenthesized arg
  | .arccos => "\\arccos" ++ parenthesized arg
  | .arctan => "\\arctan" ++ parenthesized arg
  | .arccot => "\\operatorname" ++ braced "arccot" ++ parenthesized arg
  | .arcsec => "\\operatorname" ++ braced "arcsec" ++ parenthesized arg
  | .arccsc => "\\operatorname" ++ braced "arccsc" ++ parenthesized arg
  | .log => "\\log_" ++ braced "10" ++ parenthesized arg
  | .ln => "\\ln" ++ parenthesized arg
  | .sqrt => "\\sqrt" ++ braced arg
  | .floor => "\\left\\lfloor " ++ arg ++ " \\right\\rfloor"
  | .abs => "\\left| " ++ arg ++ " \\right|"

namespace Expr

variable {R : Type} [Zero R] [One R] [Neg R] [BEq R] [Numeral R]

/-- Whether a tree can stand behind a minus without parentheses. -/
def standsBehindMinus : Expr R → Bool
  | .unary _ _ | .var _ => true
  | .const c => !Numeral.isNegative c
  | _ => false

/-- Whether the text of a tree starts with a number or a minus, so that a factor in front of it has
to be set off by a dot. -/
def startsWithNumber (t : Expr R) : Bool :=
  match t.leftmost with
  | .const c => !(c == Numeral.pi)
  | .poly _ | .unary .negate _ => true
  | _ => false

/-- Whether a tree needs parentheses as the base of a power. -/
def needsParenthesesAsBase : Expr R → Bool
  | .unary .exp _ | .unary .reciprocal _ => true
  | t => t.precedence ≤ .exp

/-- The LaTeX text of a tree. With `bare`, the parentheses around the whole tree are left out. -/
def latexText (bare : Bool) : Expr R → String
  | .var name => name
  | .const c => constantText "\\pi" c
  | .error offset => "\\text" ++ braced ("error at " ++ offset.repr)
  | .unary .group u => if bare then latexText true u else parenthesized (latexText false u)
  | .unary .negate u =>
    if u.standsBehindMinus then "-" ++ latexText false u
    else "-" ++ parenthesized (latexText false u)
  | .unary .exp u => "e^" ++ braced (latexText true u)
  | .unary .reciprocal u => "\\frac" ++ braced "1" ++ braced (latexText true u)
  | .unary (.call f) u => f.latexCall (latexText true u)
  | .binary .plus l r => latexText false l ++ " + " ++ latexText false r
  | .binary .minus l r => latexText false l ++ " - " ++ latexText false r
  | .binary .times l r =>
    latexText false l ++ (if r.startsWithNumber then " \\cdot " else " \\, ") ++ latexText false r
  | .binary .div l r => "\\frac" ++ braced (latexText true l) ++ braced (latexText true r)
  | .binary .pow l r =>
    (if l.innermost.needsParenthesesAsBase then parenthesized (latexText true l)
      else latexText true l) ++ "^" ++ braced (latexText true r)
  | .poly p => p.latex

/-- The LaTeX text of a tree. -/
def latex (t : Expr R) : String :=
  t.latexText false

/-- To leave out the parentheses around a tree is to typeset the tree inside them. -/
theorem latexText_true (t : Expr R) : t.latexText true = t.innermost.latex := by
  induction t with
  | unary op u ih =>
    cases op with
    | group => simpa [latexText, innermost] using ih
    | _ => rfl
  | binary op l r => cases op <;> rfl
  | _ => rfl

end Expr

end Univariate
