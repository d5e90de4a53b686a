/-!
# The numbers an expression computes with

Expressions, polynomials and the operations on them are written once, over any type `R` of
numbers. Arithmetic comes from the usual operator classes (`Add`, `Mul`, `Neg`, ...), so that a
ring or a field can stand in for `R` as it is. The two classes of this file hold what those
classes do not say: how a number is written, and which functions can be applied to it.

## Main definitions

* `Numeral R`: the written form of the numbers of `R`, and which of them are natural numbers.
* `Numeral.hasMinus`: whether the text of a number starts with a minus sign.
* `Numeral.text`: sign and magnitude together.
* `Elementary R`: the functions of a scientific calculator.
-/

namespace Univariate

/-- The written form of the numbers of `R`. The sign and the magnitude are separate, because a
printer often has to place them separately. -/
class Numeral (R : Type) where
  /-- The number that is written `pi`. -/
  pi : R
  /-- Whether the number has a minus sign. An undefined number may have one too. -/
  isNegative : R → Bool
  /-- Whether the number is neither infinite nor undefined. -/
  isFinite : R → Bool
  /-- Whether the number is the result of an operation outside its domain. -/
  isUndefined : R → Bool
  /-- The text of the number without its sign. -/
  magnitude : R → String
  /-- The natural number it equals, if there is one. -/
  toNat? : R → Option Nat

/-- Whether the text of a number starts with a minus sign. An undefined number is written without
its sign when it stands alone. -/
def Numeral.hasMinus {R : Type} [Numeral R] (c : R) : Bool :=
  Numeral.isNegative c && !Numeral.isUndefined c

/-- The text of a number: its sign, then its magnitude. -/
def Numeral.text {R : Type} [Numeral R] (c : R) : String :=
  if Numeral.hasMinus c then "-" ++ Numeral.magnitude c else Numeral.magnitude c

/-- The functions of a scientific calculator. They are total: outside its domain a function
returns whatever `R` uses for an undefined result. -/
class Elementary (R : Type) where
  /-- `pow a b` is `a` raised to the power `b`. -/
  pow : R → R → R
  /-- Sine. -/
  sin : R → R
  /-- Cosine. -/
  cos : R → R
  /-- Tangent. -/
  tan : R → R
  /-- Inverse sine. -/
  asin : R → R
  /-- Inverse cosine. -/
  acos : R → R
  /-- Inverse tangent. -/
  atan : R → R
  /-- Logarithm to base ten. -/
  log10 : R → R
  /-- Natural logarithm. -/
  ln : R → R
  /-- Exponential. -/
  exp : R → R
  /-- The greatest whole number that is not above the argument. -/
  floor : R → R
  /-- Square root. -/
  sqrt : R → R
  /-- Absolute value. -/
  abs : R → R

end Univariate
