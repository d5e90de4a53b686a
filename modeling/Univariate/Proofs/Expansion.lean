import Univariate.Normalize
import Univariate.Proofs.Grouping
import Univariate.Proofs.PolyValue
import Univariate.Proofs.Rational

/-!
# Expansion keeps the value

Over a commutative ring, an expression and its expansion into a polynomial have the same value at
every point. The zero test has to be exact, and a power whose exponent is a natural number has to be
the product of that many factors. Nothing is assumed about the other functions: a tree in which they
occur is not expanded.

An expression is expanded only if it has the form of a polynomial, so an expression with an error
leaf stays as it is and reports the same error as before.

## Main results

* `Expr.eval_of_expand?`: the polynomial of a tree has the values of the tree.
* `Expr.eval_normalize`: so has the tree with its polynomial in place of itself.
-/

namespace Univariate

namespace Expr

variable {R : Type} [CommRing R] [Div R] [BEq R] [Numeral R] [Elementary R]

variable [LawfulBEq R]

/-! ### The polynomial of a tree -/

section Polynomial

variable (hpow : ∀ (a k : R) (n : ℕ), Numeral.toNat? k = some n → Elementary.pow a k = a ^ n)

include hpow

/-- The polynomial of a power has the values of the power, if that of the base has the values of the
base. -/
theorem exists_of_expand?_pow {l r : Expr R} {p : Poly R} {x : R}
    (hl : ∀ {q : Poly R}, l.expand? = some q → l.eval x = .ok (q.eval x))
    (ht : (binary .pow l r).expand? = some p) :
    ∃ a k, l.eval x = .ok a ∧ r = .const k ∧ p.eval x = Elementary.pow a k := by
  unfold expand? at ht
  split at ht
  · next k n hn =>
    obtain ⟨k', hk', hk, -⟩ := exists_const_of_expandableExponent? hn
    obtain rfl : k = k' := by simpa using hk'
    split at ht
    · next c =>
      obtain rfl : Poly.constant (Elementary.pow c k) = p := Option.some.inj ht
      exact ⟨c, k, rfl, rfl, Poly.eval_constant _ x⟩
    · next name =>
      obtain rfl : Poly.monomial name n 1 = p := Option.some.inj ht
      exact ⟨x, k, rfl, rfl, by rw [Poly.eval_monomial, one_mul, hpow x k n hk]⟩
    · obtain ⟨q, hq, hbound⟩ := Option.bind_eq_some_iff.mp ht
      rw [expandPower?] at hbound
      split at hbound
      · obtain rfl : q.pow n = p := Option.some.inj hbound
        exact ⟨q.eval x, k, hl hq, rfl, by rw [Poly.eval_pow, hpow _ k n hk]⟩
      · simp at hbound
  · simp at ht

/-- **The polynomial of a tree has the values of the tree.** -/
theorem eval_of_expand? {t : Expr R} {p : Poly R} (ht : t.expand? = some p) (x : R) :
    t.eval x = .ok (p.eval x) := by
  induction t generalizing p with
  | const c =>
    obtain rfl : Poly.constant c = p := Option.some.inj ht
    rw [eval, Poly.eval_constant]
  | var name =>
    obtain rfl : Poly.monomial name 1 1 = p := Option.some.inj ht
    rw [eval, Poly.eval_monomial, pow_one, one_mul]
  | error offset => simp [expand?] at ht
  | poly q =>
    obtain rfl : q = p := Option.some.inj ht
    rfl
  | unary op u ih =>
    cases op with
    | group =>
      rw [expand?] at ht
      exact eval_unary_of_ok .group (ih ht)
    | negate =>
      rw [expand?] at ht
      obtain ⟨q, hq, rfl⟩ := Option.map_eq_some_iff.mp ht
      rw [eval_unary_of_ok .negate (ih hq), Poly.eval_neg]
      rfl
    | _ => simp [expand?] at ht
  | binary op l r ihl ihr =>
    cases op with
    | plus =>
      rw [expand?] at ht
      obtain ⟨q₁, q₂, hq₁, hq₂, rfl⟩ := exists_of_both ht
      rw [eval_binary_of_ok .plus (ihl hq₁) (ihr hq₂), Poly.eval_add]
      rfl
    | minus =>
      rw [expand?] at ht
      obtain ⟨q₁, q₂, hq₁, hq₂, rfl⟩ := exists_of_both ht
      rw [eval_binary_of_ok .minus (ihl hq₁) (ihr hq₂), Poly.eval_sub]
      rfl
    | times =>
      rw [expand?] at ht
      obtain ⟨q₁, q₂, hq₁, hq₂, rfl⟩ := exists_of_both ht
      rw [eval_binary_of_ok .times (ihl hq₁) (ihr hq₂), Poly.eval_mul]
      rfl
    | div => simp [expand?] at ht
    | pow =>
      obtain ⟨a, k, ha, rfl, hp⟩ := exists_of_expand?_pow hpow ihl ht
      rw [eval_binary_of_ok .pow ha rfl, hp]
      rfl

end Polynomial

/-- **Expansion keeps the value.** At every point a tree and its expansion have the same value, or
report the same error. -/
theorem eval_normalize (hpow : ∀ (a k : R) (n : ℕ), Numeral.toNat? k = some n →
      Elementary.pow a k = a ^ n) (t : Expr R) (x : R) :
    t.normalize.eval x = t.eval x := by
  rw [normalize]
  split
  · split
    · next p hp => exact (eval_of_expand? hpow hp x).symm
    · rfl
  · rfl

/-- The rational numbers, and `(x + 1) ^ 3 - (x - 1) * x` at one half. -/
theorem eval_normalize_rational :
    (∀ (a k : ℚ) (n : ℕ), Numeral.toNat? k = some n → Elementary.pow a k = a ^ n) ∧
      let x : Expr ℚ := .var "x"
      let t : Expr ℚ := .binary .minus
        (.binary .pow (group (.binary .plus x (.const 1))) (.const 3))
        (.binary .times (group (.binary .minus x (.const 1))) x)
      t.normalize.eval (1 / 2) = t.eval (1 / 2) :=
  ⟨pow_eq_of_toNat?, eval_normalize pow_eq_of_toNat? _ _⟩

end Expr

end Univariate
