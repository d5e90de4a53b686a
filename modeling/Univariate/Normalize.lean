import Univariate.Eval
import Univariate.Poly.Arithmetic

/-!
# Expansion into polynomials

An expression is a polynomial if it is built from numbers and the variable by sums, differences,
products, negations, parentheses, and powers with natural numbers as exponents. Such an expression
can be expanded into the list of its coefficients. Powers are expanded only up to a bound on the
degree, since the list has an entry for every power.

## Main definitions

* `maxDegree`: the bound.
* `Expr.expandableExponent?`: the exponent of a power that can be expanded.
* `Expr.isPolynomial`: whether a tree has the form of a polynomial.
* `Expr.expand?`: the polynomial of a tree.
* `Expr.normalize`: the tree with its polynomial in place of itself, if it has one.
-/

namespace Univariate

/-- The largest degree up to which a power is expanded. -/
def maxDegree : Nat := 1024

namespace Expr

variable {R : Type} [Zero R] [BEq R] [Numeral R]

/-- The exponent of a power that can be expanded: it is a natural number, and unless the base is a
number too, it is at most the largest degree. -/
def expandableExponent? (base exponent : Expr R) : Option Nat :=
  match exponent with
  | .const k => (Numeral.toNat? k).filter fun n => base.isConst || n ≤ maxDegree
  | _ => none

/-- The exponent of a power that is expanded is a natural number, and unless the base is a number
too, it is within the bound. -/
theorem exists_const_of_expandableExponent? {base exponent : Expr R} {n : Nat}
    (h : expandableExponent? base exponent = some n) :
    ∃ k, exponent = .const k ∧ Numeral.toNat? k = some n ∧
      (base.isConst = true ∨ n ≤ maxDegree) := by
  cases exponent with
  | const k =>
    obtain ⟨hk, hbound⟩ := Option.filter_eq_some_iff.mp h
    exact ⟨k, rfl, hk, by simpa using hbound⟩
  | _ => simp [expandableExponent?] at h

/-- Whether a tree has the form of a polynomial. -/
def isPolynomial : Expr R → Bool
  | .const _ | .var _ | .poly _ => true
  | .unary .group u | .unary .negate u => u.isPolynomial
  | .binary .plus l r | .binary .minus l r | .binary .times l r => l.isPolynomial && r.isPolynomial
  | .binary .pow base exponent => base.isPolynomial && (expandableExponent? base exponent).isSome
  | _ => false

variable [One R] [Add R] [Sub R] [Mul R] [Neg R] [Elementary R]

/-- The power `k` of an expanded base, unless its degree is beyond the bound. -/
def expandPower? (p : Poly R) (k : Nat) : Option (Poly R) :=
  if p.degree * k ≤ maxDegree then some (p.pow k) else none

/-- The polynomial of a tree. There is none if the tree does not have the form of a polynomial, or
if a power in it leads beyond the largest degree. -/
def expand? : Expr R → Option (Poly R)
  | .const c => some (.constant c)
  | .var name => some (.monomial name 1 1)
  | .poly p => some p
  | .unary .group u => u.expand?
  | .unary .negate u => u.expand?.map .neg
  | .binary .plus l r => do return (← l.expand?).add (← r.expand?)
  | .binary .minus l r => do return (← l.expand?).sub (← r.expand?)
  | .binary .times l r => do return (← l.expand?).mul (← r.expand?)
  | .binary .pow base exponent =>
    match exponent, expandableExponent? base exponent with
    | .const k, some n =>
      match base with
      | .const c => some (.constant (Elementary.pow c k))
      | .var name => some (.monomial name n 1)
      | base => base.expand?.bind fun p => expandPower? p n
    | _, _ => none
  | _ => none

omit [Numeral R] [One R] [Add R] [Sub R] [Mul R] [Neg R] [Elementary R] in
/-- The expansions of two operands that are combined. -/
theorem exists_of_both {l r : Option (Poly R)} {f : Poly R → Poly R → Poly R} {p : Poly R}
    (h : (do return f (← l) (← r)) = some p) :
    ∃ q₁ q₂, l = some q₁ ∧ r = some q₂ ∧ f q₁ q₂ = p := by
  obtain ⟨q₁, hq₁, h⟩ := Option.bind_eq_some_iff.mp h
  obtain ⟨q₂, hq₂, h⟩ := Option.bind_eq_some_iff.mp h
  exact ⟨q₁, q₂, hq₁, hq₂, Option.some.inj h⟩

/-- The polynomial of a power whose exponent allows for it. -/
theorem expand?_pow_of_some {base : Expr R} {k : R} {n : Nat}
    (h : expandableExponent? base (.const k) = some n) :
    (binary .pow base (.const k)).expand? =
      match base with
      | .const c => some (.constant (Elementary.pow c k))
      | .var name => some (.monomial name n 1)
      | base => base.expand?.bind fun p => expandPower? p n := by
  rw [expand?.eq_def]
  simp only [h]
  cases base <;> rfl

/-- Any other power has no polynomial. -/
theorem expand?_pow_of_none {base exponent : Expr R}
    (h : expandableExponent? base exponent = none) :
    (binary .pow base exponent).expand? = none := by
  rw [expand?.eq_def]
  cases exponent <;> simp [h]

/-- The tree with its polynomial in place of itself. A tree without one stays as it is. -/
def normalize (t : Expr R) : Expr R :=
  if t.isPolynomial then
    match t.expand? with
    | some p => .poly p
    | none => t
  else t

end Expr

end Univariate
