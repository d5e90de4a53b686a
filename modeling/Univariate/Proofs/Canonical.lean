import Mathlib.Algebra.CharZero.Infinite
import Mathlib.Algebra.Polynomial.Roots
import Mathlib.Data.List.GetD
import Univariate.Proofs.Expansion

/-!
# Expanded polynomials are canonical

Two expressions that expand into polynomials have the same coefficients if and only if they have the
same value at every rational number. So nothing of how an expression was written is left in its
coefficients: not the order of its operands, nor the parentheses, nor what cancels.

One direction is that expansion keeps the value. For the other, the values of a coefficient list are
those of a polynomial, and a polynomial over an infinite field is determined by its values. That
makes two coefficient lists agree except for zeros at their ends, and a list in its stored form does
not end in a zero.

## Main definitions

* `polynomialOf`: the polynomial with given coefficients.

## Main results

* `IsTrimmed.ext`: stored coefficient lists with the same entries are equal.
* `Poly.coeffs_eq_iff`: the values of a polynomial determine its coefficients.
* `Expr.coeffs_eq_iff_eval_eq`: the values of expressions determine the coefficients.
-/

namespace Univariate

open Polynomial

variable {R : Type} [CommRing R]

/-! ### Coefficient lists as polynomials -/

/-- The polynomial with the given coefficients, the constant term first. -/
noncomputable def polynomialOf : List R → R[X]
  | [] => 0
  | c :: cs => polynomialOf cs * X + C c

theorem eval_polynomialOf (cs : List R) (x : R) : (polynomialOf cs).eval x = horner cs x := by
  induction cs with
  | nil => exact eval_zero
  | cons c cs ih => rw [polynomialOf, eval_add, eval_mul, eval_X, eval_C, ih, horner_cons]

theorem coeff_polynomialOf (cs : List R) (n : ℕ) : (polynomialOf cs).coeff n = cs.getD n 0 := by
  induction cs generalizing n with
  | nil => simp [polynomialOf]
  | cons c cs ih =>
    cases n with
    | zero => simp [polynomialOf]
    | succ n => simp [polynomialOf, coeff_C_succ, coeff_mul_X, ih]

/-- The values of a list determine its entries, except for zeros at its end. -/
theorem getD_eq_of_horner_eq [IsDomain R] [Infinite R] {as bs : List R}
    (h : ∀ x, horner as x = horner bs x) (n : ℕ) : as.getD n 0 = bs.getD n 0 := by
  have heq : polynomialOf as = polynomialOf bs := by
    refine Polynomial.funext fun x => ?_
    rw [eval_polynomialOf, eval_polynomialOf, h]
  rw [← coeff_polynomialOf, ← coeff_polynomialOf, heq]

/-! ### Stored coefficient lists -/

variable [BEq R] [LawfulBEq R]

/-- A list in its stored form has no entry behind the last one of another list that agrees with
it. -/
theorem IsTrimmed.length_le {as bs : List R} (hbs : IsTrimmed bs) (has : as ≠ [])
    (h : ∀ n, as.getD n 0 = bs.getD n 0) : bs.length ≤ as.length := by
  by_contra hlt
  have hpos := List.length_pos_iff.mpr has
  have hlast : bs.getLast? = some 0 := by
    have hn := h (bs.length - 1)
    rw [List.getD_eq_default _ _ (by omega), List.getD_eq_getElem _ _ (by omega)] at hn
    rw [List.getLast?_eq_getElem?, List.getElem?_eq_getElem (by omega), ← hn]
  have hne := hbs.2 (by omega) 0 hlast
  rw [beq_self_eq_true] at hne
  contradiction

/-- Lists in their stored form are equal if their entries are. -/
theorem IsTrimmed.ext {as bs : List R} (has : IsTrimmed as) (hbs : IsTrimmed bs)
    (h : ∀ n, as.getD n 0 = bs.getD n 0) : as = bs := by
  have hlength : as.length = bs.length :=
    Nat.le_antisymm (has.length_le hbs.1 fun n => (h n).symm) (hbs.length_le has.1 h)
  refine List.ext_getElem hlength fun n hn hn' => ?_
  have hentry := h n
  rwa [List.getD_eq_getElem _ _ hn, List.getD_eq_getElem _ _ hn'] at hentry

/-- **The values of a polynomial determine its coefficients.** -/
theorem Poly.coeffs_eq_iff [IsDomain R] [Infinite R] {p q : Poly R} :
    p.coeffs = q.coeffs ↔ ∀ x, p.eval x = q.eval x := by
  constructor
  · intro h x
    rw [eval_eq_horner, eval_eq_horner, h]
  · intro h
    exact p.isTrimmed.ext q.isTrimmed (getD_eq_of_horner_eq h)

/-! ### Expressions -/

namespace Expr

/-- A tree whose expansion is a polynomial has the values of that polynomial. -/
theorem eval_of_normalize_eq [Div R] [Numeral R] [Elementary R]
    (hpow : ∀ (a k : R) (n : ℕ), Numeral.toNat? k = some n → Elementary.pow a k = a ^ n)
    {t : Expr R} {p : Poly R} (h : t.normalize = .poly p) (x : R) : t.eval x = .ok (p.eval x) := by
  rw [normalize] at h
  split at h
  · split at h
    · next q hq =>
      obtain rfl : q = p := Expr.poly.inj h
      exact eval_of_expand? hpow hq x
    · rw [h]
      rfl
  · rw [h]
    rfl

/-- **Expanded polynomials are canonical.** Two expressions that expand into polynomials have the
same coefficients if and only if they have the same value at every rational number. -/
theorem coeffs_eq_iff_eval_eq {t₁ t₂ : Expr ℚ} {p₁ p₂ : Poly ℚ} (h₁ : t₁.normalize = .poly p₁)
    (h₂ : t₂.normalize = .poly p₂) :
    p₁.coeffs = p₂.coeffs ↔ ∀ x : ℚ, t₁.eval x = t₂.eval x := by
  rw [Poly.coeffs_eq_iff]
  refine forall_congr' fun x => ?_
  rw [eval_of_normalize_eq pow_eq_of_toNat? h₁, eval_of_normalize_eq pow_eq_of_toNat? h₂,
    Except.ok.injEq]

/-- The square `(x - 1) ^ 2` and the sum `1 - 2 * x + x * x`. -/
theorem coeffs_eq_iff_eval_eq_square :
    let x : Expr ℚ := .var "x"
    let square : Expr ℚ := .binary .pow (group (.binary .minus x (.const 1))) (.const 2)
    let sum : Expr ℚ := .binary .plus
      (.binary .minus (.const 1) (.binary .times (.const 2) x)) (.binary .times x x)
    ∃ p q : Poly ℚ, square.normalize = .poly p ∧ sum.normalize = .poly q ∧
      p.coeffs = [1, -2, 1] ∧ q.coeffs = [1, -2, 1] ∧ ∀ a : ℚ, square.eval a = sum.eval a := by
  intro x square sum
  let p : Poly ℚ := ((Poly.monomial "x" 1 1).sub (.constant 1)).pow 2
  let q : Poly ℚ := ((Poly.constant 1).sub ((Poly.constant 2).mul (.monomial "x" 1 1))).add
    ((Poly.monomial "x" 1 1).mul (.monomial "x" 1 1))
  have hp : square.normalize = .poly p := by
    have hform : square.isPolynomial = true := by decide +kernel
    have hbound : ((Poly.monomial "x" 1 (1 : ℚ)).sub (.constant 1)).degree * 2 ≤ maxDegree := by
      decide +kernel
    have hexpand : square.expand? = some p := if_pos hbound
    rw [normalize, if_pos hform, hexpand]
  have hq : sum.normalize = .poly q := rfl
  have hpc : p.coeffs = [1, -2, 1] := by
    decide +kernel
  have hqc : q.coeffs = [1, -2, 1] := by
    decide +kernel
  exact ⟨p, q, hp, hq, hpc, hqc, (coeffs_eq_iff_eval_eq hp hq).mp (hpc.trans hqc.symm)⟩

end Expr

end Univariate
