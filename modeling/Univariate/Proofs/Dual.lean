import Mathlib.Algebra.DualNumber
import Mathlib.Tactic.FieldSimp
import Mathlib.Tactic.Linarith
import Univariate.Proofs.PolyValue
import Univariate.Proofs.Rational

/-!
# Dual numbers

A dual number `a + b * ε`, where the square of `ε` is zero, carries a value `a` and a rate of change
`b`. What an expression is worth at `x + ε` tells its value at `x` and how fast the value changes
there, without a limit being taken.

Here dual numbers over the rational numbers are made into numbers of an expression, so that the
evaluator of the library computes with them as it does with any others. They are ordered by their
values first, and between equal values by their rates: `ε` is positive, and smaller than every
positive rational number. That says what rounding down and the absolute value are. Rounding down
`2 - ε` gives one, so at a whole number it does not agree with rounding down the value, and at zero
the absolute value has no rate that a quotient could give. The conditions under which derivatives
are exact keep away from such places.

## Main results

* `snd_zpow`, `snd_div`: the rates of powers with whole exponents and of quotients.
* `Poly.eval_derivative`: the derivative of a polynomial has the rate of the polynomial.
-/

namespace Univariate

open DualNumber TrivSqZeroExt

/-! ### Dual numbers as numbers of an expression -/

instance instDecidableEqDual : DecidableEq ℚ[ε] := fun a b =>
  decidable_of_iff (a.fst = b.fst ∧ a.snd = b.snd) TrivSqZeroExt.ext_iff.symm

/-- Quotients, and powers with whole exponents. -/
instance instDivInvMonoidDual : DivInvMonoid ℚ[ε] where

/-- Whether a dual number is below zero, where `ε` is positive and very small. -/
def IsBelowZero (a : ℚ[ε]) : Prop :=
  a.fst < 0 ∨ a.fst = 0 ∧ a.snd < 0

instance (a : ℚ[ε]) : Decidable (IsBelowZero a) :=
  inferInstanceAs (Decidable (_ ∨ _))

/-- Dual numbers are written as sums. -/
instance : Numeral ℚ[ε] where
  pi := inl Numeral.pi
  isNegative a := decide (IsBelowZero a)
  isFinite _ := true
  isUndefined _ := false
  magnitude a :=
    let b := if IsBelowZero a then -a else a
    Numeral.text b.fst ++ " + " ++ Numeral.text b.snd ++ "ε"
  toNat? a := if a.snd = 0 then Numeral.toNat? a.fst else none

/-- Functions on dual numbers: powers with whole exponents, the greatest whole number that is not
above a dual number, and the absolute value. The other functions are zero, as for rational
numbers. -/
instance : Elementary ℚ[ε] where
  pow a b := if b.snd = 0 ∧ b.fst.den = 1 then a ^ b.fst.num else 0
  sin _ := 0
  cos _ := 0
  tan _ := 0
  asin _ := 0
  acos _ := 0
  atan _ := 0
  log10 _ := 0
  ln _ := 0
  exp _ := 0
  floor a := inl (if a.fst = ⌊a.fst⌋ ∧ a.snd < 0 then ⌊a.fst⌋ - 1 else ⌊a.fst⌋)
  sqrt _ := 0
  abs a := if IsBelowZero a then -a else a

/-! ### Quotients and powers -/

theorem div_eq (a b : ℚ[ε]) : a / b = a * b⁻¹ := rfl

theorem fst_div (a b : ℚ[ε]) : (a / b).fst = a.fst / b.fst := by
  rw [div_eq, TrivSqZeroExt.fst_mul, fst_inv, div_eq_mul_inv]

theorem snd_div {a b : ℚ[ε]} (hb : b.fst ≠ 0) :
    (a / b).snd = (a.snd * b.fst - a.fst * b.snd) / b.fst ^ 2 := by
  rw [div_eq, DualNumber.snd_mul, fst_inv, snd_inv]
  simp only [smul_eq_mul, MulOpposite.smul_eq_mul_unop, MulOpposite.unop_op]
  field_simp
  ring

theorem fst_zpow (a : ℚ[ε]) (n : ℤ) : (a ^ n).fst = a.fst ^ n := by
  cases n with
  | ofNat n => simp
  | negSucc n => simp [zpow_negSucc]

/-- The rate of a power is as the power rule says. Only a positive exponent makes sense for a base
without a value. -/
theorem snd_zpow {a : ℚ[ε]} {n : ℤ} (h : n ≤ 0 → a.fst ≠ 0) :
    (a ^ n).snd = n * a.fst ^ (n - 1) * a.snd := by
  cases n with
  | ofNat n =>
    rw [Int.ofNat_eq_natCast, zpow_natCast, snd_pow]
    cases n with
    | zero => simp
    | succ n =>
      have hexponent : ((n + 1 : ℕ) : ℤ) - 1 = (n : ℤ) := by omega
      rw [hexponent, zpow_natCast]
      simp [nsmul_eq_mul, mul_assoc]
  | negSucc n =>
    have ha : a.fst ≠ 0 := h (Int.negSucc_lt_zero n).le
    have hexponent : Int.negSucc n - 1 = -((n + 2 : ℕ) : ℤ) := by omega
    rw [zpow_negSucc, hexponent, zpow_neg, zpow_natCast, snd_inv, fst_pow, snd_pow]
    simp only [smul_eq_mul, MulOpposite.smul_eq_mul_unop, MulOpposite.unop_op, nsmul_eq_mul,
      Nat.pred_eq_sub_one, Nat.add_sub_cancel]
    push_cast [Int.negSucc_eq]
    field_simp
    ring

/-- A power whose exponent is a whole number. -/
theorem pow_inl_intCast (a : ℚ[ε]) (n : ℤ) : Elementary.pow a (inl (n : ℚ)) = a ^ n := by
  have hpow : Elementary.pow a (inl (n : ℚ)) = a ^ (n : ℚ).num :=
    if_pos ⟨rfl, Rat.den_intCast n⟩
  rw [hpow, Rat.num_intCast]

/-! ### Rounding down and the absolute value -/

/-- Away from whole numbers, and for a number without a rate, rounding down is rounding down the
value. -/
theorem floor_eq {a : ℚ[ε]} (h : (∃ n : ℤ, a.fst = n) → a.snd = 0) :
    Elementary.floor a = inl (⌊a.fst⌋ : ℚ) := by
  have hwhole : ¬ (a.fst = ⌊a.fst⌋ ∧ a.snd < 0) := by
    rintro ⟨hn, hlt⟩
    exact hlt.ne (h ⟨_, hn⟩)
  exact congrArg inl (if_neg hwhole)

/-- Away from zero, the absolute value is a multiple by the sign of the value. -/
theorem abs_eq {a : ℚ[ε]} (ha : a.fst ≠ 0) :
    Elementary.abs a = inl (|a.fst| / a.fst) * a := by
  rcases lt_or_gt_of_ne ha with hneg | hpos
  · have hbelow : IsBelowZero a := .inl hneg
    have hsign : |a.fst| / a.fst = -1 := by rw [abs_of_neg hneg, neg_div, div_self ha]
    have habs : Elementary.abs a = -a := if_pos hbelow
    rw [habs, hsign, inl_neg, inl_one, neg_one_mul]
  · have hbelow : ¬ IsBelowZero a := by
      rintro (h | ⟨h, -⟩)
      · exact lt_asymm h hpos
      · exact ha h
    have hsign : |a.fst| / a.fst = 1 := by rw [abs_of_pos hpos, div_self ha]
    have habs : Elementary.abs a = a := if_neg hbelow
    rw [habs, hsign, inl_one, one_mul]

/-! ### Polynomials -/

section Horner

variable {R : Type} [CommRing R]

/-- Multiplying by the point moves the value along and adds the value to the rate. -/
theorem snd_mul_point (a : R[ε]) (x : R) : (a * (inl x + ε)).snd = a.snd * x + a.fst := by
  rw [DualNumber.snd_mul]
  simp [add_comm]

theorem fst_horner_dual (cs : List R) (x : R) :
    (horner (cs.map inl) (inl x + ε)).fst = horner cs x := by
  induction cs with
  | nil => rfl
  | cons c cs ih => simp [ih]

/-- The coefficients of a derivative, when the powers are counted from `k` on. -/
theorem horner_zipIdx (cs : List R) (k : ℕ) (x : R) :
    horner ((cs.zipIdx k).map fun (c, power) => (power : R) * c) x =
      k * horner cs x + x * (horner (cs.map inl) (inl x + ε)).snd := by
  induction cs generalizing k with
  | nil => simp
  | cons c cs ih =>
    rw [List.zipIdx_cons, List.map_cons, List.map_cons, horner_cons, horner_cons, horner_cons, ih,
      snd_add, snd_mul_point, fst_horner_dual, snd_inl]
    push_cast
    ring

end Horner

/-- **The derivative of a polynomial has the rate of the polynomial.** -/
theorem Poly.eval_derivative (p : Poly ℚ) (x : ℚ) :
    p.derivative.eval x = (horner (p.coeffs.map inl) (inl x + ε)).snd := by
  rw [derivative, eval_ofCoeffs]
  cases p.coeffs with
  | nil => rfl
  | cons c cs =>
    rw [List.zipIdx_cons, List.drop_one, List.tail_cons, horner_zipIdx, List.map_cons, horner_cons,
      snd_add, snd_mul_point, fst_horner_dual, snd_inl]
    push_cast
    ring

end Univariate
