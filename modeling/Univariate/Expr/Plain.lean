import Univariate.Expr.Basic
import Univariate.Poly.Display

/-!
# Plain text of expressions

The plain text of an expression is meant to be read by people and to be read back: operators stand
between blanks, functions are called by name, and the number π is written `pi`. No parentheses are
added, they are nodes of the tree.

## Main definitions

* `BinaryOp.symbol`: the sign of an operation.
* `constantText`: the text of a number.
* `Expr.plain`: the text of a tree.
-/

namespace Univariate

/-- The sign of a binary operation. -/
def BinaryOp.symbol : BinaryOp → String
  | .plus => "+"
  | .minus => "-"
  | .times => "×"
  | .div => "÷"
  | .pow => "^"

variable {R : Type} [Zero R] [One R] [Neg R] [BEq R] [Numeral R]

/-- The text of a number, where `pi` tells how the number π is written. -/
def constantText (pi : String) (c : R) : String :=
  if c == Numeral.pi then pi else Numeral.text c

/-- The plain text of a tree. -/
def Expr.plain : Expr R → String
  | .var name => name
  | .const c => constantText "pi" c
  | .error offset => "<error at " ++ offset.repr ++ ">"
  | .unary .negate u => "-" ++ u.plain
  | .unary .group u => "(" ++ u.plain ++ ")"
  | .unary .exp u => "e^(" ++ u.plain ++ ")"
  | .unary .reciprocal u => "1/(" ++ u.plain ++ ")"
  | .unary (.call f) u => f.name ++ "(" ++ u.plain ++ ")"
  | .binary op l r => l.plain ++ " " ++ op.symbol ++ " " ++ r.plain
  | .poly p => p.plain

end Univariate
