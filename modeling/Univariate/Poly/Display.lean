import Univariate.Poly.Basic

/-!
# Display of polynomials

The terms are written from the highest power down, as in `x^3 - 12x^2 + 48x - 64`. Zero terms are
left out, a magnitude of one is left out in front of the variable, and the sign of a term becomes
the operator in front of it.

## Main definitions

* `Poly.plain`: the text, with powers as in `x^2`.
* `Poly.latex`: the same with powers as in `x^{2}`.
-/

namespace Univariate.Poly

variable {R : Type} [Zero R] [One R] [Neg R] [BEq R] [Numeral R]

/-- The terms that are not zero, as coefficient and power, from the highest power down. -/
def terms (p : Poly R) : List (R × Nat) :=
  (p.coeffs.zipIdx.filter fun (c, _) => !(c == 0)).reverse

/-- The text of a term without its sign. `power` writes the variable raised to two or more. -/
def termText (name : String) (power : Nat → String) : R × Nat → String
  | (c, 0) => Numeral.magnitude c
  | (c, k + 1) =>
    (if c == 1 || c == -1 then "" else Numeral.magnitude c) ++
      (if k = 0 then name else name ++ power (k + 1))

/-- The terms behind the first one, each with its sign as an operator. -/
def tailText (name : String) (power : Nat → String) (ts : List (R × Nat)) : String :=
  ts.foldr
    (fun t text =>
      (if Numeral.isNegative t.1 then " - " else " + ") ++ termText name power t ++ text)
    ""

/-- The text of a polynomial, given how an exponent is written. -/
def text (power : Nat → String) (p : Poly R) : String :=
  match p.terms with
  | [] => "0"
  | t :: ts =>
    (if Numeral.isNegative t.1 then "-" else "") ++ termText p.name power t ++
      tailText p.name power ts

/-- The plain text of a polynomial. -/
def plain (p : Poly R) : String :=
  p.text fun k => "^" ++ k.repr

/-- The LaTeX text of a polynomial. -/
def latex (p : Poly R) : String :=
  p.text fun k => "^\x7b" ++ k.repr ++ "\x7d"

end Univariate.Poly
