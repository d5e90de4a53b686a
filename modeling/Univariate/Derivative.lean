import Univariate.Eval
import Univariate.Expr.Precedence
import Univariate.Poly.Arithmetic

/-!
# Derivatives

The derivative of an expression is built from the rules of differentiation and not simplified,
except that the chain rule leaves out a factor of one, and that the derivative of a function of a
constant is zero. Parentheses are added wherever an operand binds too loosely for its new place, so
that the plain text of a derivative reads back as the same tree.

## Main definitions

* `Func.outerDerivative`: the derivative of a function with respect to its argument.
* `Expr.derivative`: the derivative of an expression with respect to its variable.
* `Expr.chainRule`: the derivative of a composition.
-/

namespace Univariate

open Univariate.Expr

variable {R : Type} [Zero R] [One R] [NatCast R] [OfScientific R] [BEq R] [Numeral R]

/-! ### The functions -/

namespace Expr

/-- The number two. -/
def two : Expr R := .const ((2 : Nat) : R)

/-- The square of a tree. -/
def squared (u : Expr R) : Expr R := binaryGrouped .pow u two

/-- One divided by a tree. -/
def inverse (u : Expr R) : Expr R := binaryGrouped .div (.const 1) u

/-- The derivative of the inverse sine, `(1 - u ^ 2) ^ (-0.5)`. -/
def outerArcsin (u : Expr R) : Expr R :=
  binaryGrouped .pow (binaryGrouped .minus (.const 1) u.squared) (negated (.const 0.5))

/-- The derivative of the inverse tangent, `1 / (1 + u ^ 2)`. -/
def outerArctan (u : Expr R) : Expr R :=
  inverse (binaryGrouped .plus (.const 1) u.squared)

/-- The derivative of the inverse secant, `1 / (|u| * sqrt (u ^ 2 - 1))`. -/
def outerArcsec (u : Expr R) : Expr R :=
  inverse (binaryGrouped .times (call .abs u)
    (call .sqrt (binaryGrouped .minus u.squared (.const 1))))

end Expr

/-- The derivative of a function with respect to its argument, as a tree in that argument. -/
def Func.outerDerivative (f : Func) (u : Expr R) : Expr R :=
  match f with
  | .sin => call .cos u
  | .cos => negated (call .sin u)
  | .tan => (call .sec u).squared
  | .cot => negated (call .csc u).squared
  | .sec => binaryGrouped .times (call .sec u) (call .tan u)
  | .csc => negated (binaryGrouped .times (call .csc u) (call .cot u))
  | .arcsin => outerArcsin u
  | .arccos => negated (outerArcsin u)
  | .arctan => outerArctan u
  | .arccot => negated (outerArctan u)
  | .arcsec => outerArcsec u
  | .arccsc => negated (outerArcsec u)
  | .log => binaryGrouped .div (inverse u) (call .ln (.const ((10 : Nat) : R)))
  | .ln => inverse u
  | .floor => .const 0
  | .sqrt => inverse (binaryGrouped .times two (call .sqrt u))
  | .abs => binaryGrouped .div (call .abs u) u

/-! ### The rules -/

namespace Expr

/-- The chain rule for a function of `inner`, where `outer` is the derivative of the function and
`innerDerivative` that of `inner`. -/
def chain (outer inner : Expr R) (innerDerivative : Except Diagnostic (Expr R)) :
    Except Diagnostic (Expr R) :=
  if inner.isConstant then .ok (.const 0)
  else if inner.isVar then .ok outer
  else innerDerivative.map fun d => binaryGrouped .times outer (group d)

variable [Sub R] [Mul R]

/-- The derivative of an expression with respect to its variable. An error leaf that is met on the
way is reported. -/
def derivative : Expr R → Except Diagnostic (Expr R)
  | .const _ => .ok (.const 0)
  | .var _ => .ok (.const 1)
  | .error offset => .error (.errorReached offset)
  | .poly p => .ok (.poly p.derivative)
  | .unary .negate u => u.derivative.map negated
  | .unary .group u => u.derivative.map group
  | .unary .exp u => chain (.unary .exp u) u u.derivative
  | .unary .reciprocal u => chain (negated (inverse u.squared)) u u.derivative
  | .unary (.call .floor) u =>
    match u.errorOffsets with
    | offset :: _ => .error (.errorReached offset)
    | [] => .ok (.const 0)
  | .unary (.call f) u => chain (f.outerDerivative u) u u.derivative
  | .binary .plus f g => do
    let f' ← f.derivative
    let g' ← g.derivative
    return binaryGrouped .plus f' g'
  | .binary .minus f g => do
    let f' ← f.derivative
    let g' ← g.derivative
    return binaryGrouped .minus f' g'
  | .binary .times f g => do
    let f' ← f.derivative
    let g' ← g.derivative
    return binaryGrouped .plus (binaryGrouped .times f' g) (binaryGrouped .times f g')
  | .binary .div f g => do
    let f' ← f.derivative
    let g' ← g.derivative
    return binaryGrouped .div
      (binaryGrouped .minus (binaryGrouped .times f' g) (binaryGrouped .times f g')) g.squared
  | .binary .pow a b =>
    if b.isConstant then
      chain
        (binaryGrouped .times b (binaryGrouped .pow a (binaryGrouped .minus b (.const 1)))) a
        a.derivative
    else do
      let b' ← b.derivative
      let a' ← a.derivative
      return binaryGrouped .times (binaryGrouped .pow a b)
        (group (binaryGrouped .plus (binaryGrouped .times b' (call .ln a))
          (binaryGrouped .div (binaryGrouped .times b a') a)))

/-- The derivative of a composition, where `outer` is the derivative of the outer function at
`inner`. A factor of one is left out. -/
def chainRule (outer inner : Expr R) : Except Diagnostic (Expr R) :=
  chain outer inner inner.derivative

end Expr

end Univariate
