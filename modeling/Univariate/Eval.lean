import Univariate.Diagnostic
import Univariate.Expr.Walk

/-!
# Values of expressions

An expression has a value at every point, unless it contains an error leaf. Outside the domain of a
function the value is whatever the numbers use for an undefined result, and goes on through the rest
of the expression. Some functions are computed from others, as the cotangent from the tangent of the
complementary angle.

## Main definitions

* `Func.apply`, `UnaryOp.apply`, `BinaryOp.apply`: the operations on numbers.
* `Expr.eval`: the value of an expression at a point.
* `Expr.isConstant`: whether a tree is built from numbers alone.
-/

namespace Univariate

variable {R : Type} [Zero R] [One R] [NatCast R] [Add R] [Sub R] [Mul R] [Div R] [Neg R] [BEq R]
  [Numeral R] [Elementary R]

/-- A right angle. -/
def rightAngle : R :=
  Numeral.pi / ((2 : Nat) : R)

/-- The value of a function. -/
def Func.apply (f : Func) (u : R) : R :=
  match f with
  | .sin => Elementary.sin u
  | .cos => Elementary.cos u
  | .tan => Elementary.tan u
  | .cot => Elementary.tan (rightAngle - u)
  | .sec => 1 / Elementary.cos u
  | .csc => 1 / Elementary.sin u
  | .arcsin => Elementary.asin u
  | .arccos => Elementary.acos u
  | .arctan => Elementary.atan u
  | .arccot => rightAngle - Elementary.atan u
  | .arcsec => Elementary.acos (1 / u)
  | .arccsc => Elementary.asin (1 / u)
  | .log => Elementary.log10 u
  | .ln => Elementary.ln u
  | .floor => Elementary.floor u
  | .sqrt => Elementary.sqrt u
  | .abs => Elementary.abs u

/-- The value of an operation on one operand. -/
def UnaryOp.apply (op : UnaryOp) (u : R) : R :=
  match op with
  | .negate => -u
  | .group => u
  | .exp => Elementary.exp u
  | .reciprocal => 1 / u
  | .call f => f.apply u

/-- The value of an operation on two operands. -/
def BinaryOp.apply (op : BinaryOp) (a b : R) : R :=
  match op with
  | .plus => a + b
  | .minus => a - b
  | .times => a * b
  | .div => a / b
  | .pow => Elementary.pow a b

namespace Expr

/-- The value of an expression with the variable set to `x`. The leftmost error leaf is reported if
there is one. -/
def eval (t : Expr R) (x : R) : Except Diagnostic R :=
  match t with
  | .var _ => .ok x
  | .const c => .ok c
  | .error offset => .error (.errorReached offset)
  | .unary op u => do return op.apply (← u.eval x)
  | .binary op l r => do
    let a ← l.eval x
    let b ← r.eval x
    return op.apply a b
  | .poly p => .ok (p.eval x)

/-- Whether a tree is built from numbers alone, so that it does not mention the variable. An error
leaf is not a number, and a polynomial counts as one if its degree is zero. -/
def isConstant : Expr R → Bool
  | .const _ => true
  | .var _ | .error _ => false
  | .poly p => p.degree == 0
  | .unary _ u => u.isConstant
  | .binary _ l r => l.isConstant && r.isConstant

end Expr

end Univariate
