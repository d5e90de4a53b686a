import Univariate.Proofs.ErrorReports
import Univariate.Proofs.Renaming
import Univariate.Proofs.Slopes

/-!
# The rules for functions are those of textbooks

The derivative of an operation on one operand is the derivative of the operation, written out as a
tree in the operand, times the derivative of the operand. The trees do not look like the formulas of
a textbook: the derivative of the inverse sine is a power with a negative exponent, that of the
cotangent is the square of a cosecant, and that of the inverse secant divides by an absolute value.
Their values are the slopes of a textbook all the same, for operands of any form and in any field
whose functions satisfy the laws that connect them.

## Why the derivative exists in any case

An operand with a derivative has no error leaf. So it has a value, and so has its derivative. Errors
are all that a rule could fail at. That nothing is divided by zero is needed for the value of the
derivative only.

## Main results

* `Func.eval_outerDerivative`: the tree of a rule has the slope as its value.
* `Expr.hasDerivAt_eval_unary`: on the real numbers, rules lead from derivatives to derivatives.
* `Expr.eval_derivative_unary`: the derivative of an operation has the value of the chain rule.
-/

namespace Univariate

namespace Expr

section Chain

variable {R : Type} [Zero R] [One R] [NatCast R] [OfScientific R] [Add R] [Sub R] [Mul R] [Div R]
  [Neg R] [BEq R] [Numeral R] [Elementary R] {u u' : Expr R}

/-- A tree with a derivative has a value everywhere, and so has the derivative. -/
theorem exists_eval_of_derivative (h : u.derivative = .ok u') (x : R) :
    ∃ a b, u.eval x = .ok a ∧ u'.eval x = .ok b := by
  have hstops := stopsAt_derivative u
  rw [h] at hstops
  have hvalue : ∀ t : Expr R, t.errorOffsets = [] → ∃ c, t.eval x = .ok c := by
    intro t ht
    have hstops := stopsAt_eval t x
    rw [ht] at hstops
    exact hstops.exists_ok
  obtain ⟨a, ha⟩ := hvalue u hstops.nil_of_ok
  obtain ⟨b, hb⟩ := hvalue u' hstops.good_of_ok
  exact ⟨a, b, ha, hb⟩

end Chain

end Expr

open Univariate.Expr

variable {K : Type} [Field K] [BEq K] [Numeral K] [Elementary K] {u u' : Expr K} {x y a b : K}

namespace Expr

/-! ### The parts of a rule -/

theorem eval_one : (Expr.const 1 : Expr K).eval x = .ok 1 :=
  rfl

theorem eval_two : (two : Expr K).eval x = .ok 2 := by
  rw [two, eval, Nat.cast_ofNat]

theorem eval_squared_of_law (hu : u.eval x = .ok y) (hsquare : SquareLaw y) :
    u.squared.eval x = .ok (y * y) := by
  rw [squared, eval_binaryGrouped_of_ok .pow hu eval_two]
  exact congrArg Except.ok hsquare

theorem eval_inverse (hu : u.eval x = .ok y) : u.inverse.eval x = .ok (1 / y) :=
  eval_binaryGrouped_of_ok .div eval_one hu

/-- The power with exponent minus one half is one divided by the root. -/
theorem eval_outerArcsin [CharZero K] (hu : u.eval x = .ok y) (hsquare : SquareLaw y)
    (hroot : RootLaw (1 - y * y)) (hne : Elementary.sqrt (1 - y * y) ≠ 0) :
    u.outerArcsin.eval x = .ok (arcsinSlope y) := by
  have hdifference := eval_binaryGrouped_of_ok .minus eval_one (eval_squared_of_law hu hsquare)
  have hhalf : (negated (.const 0.5) : Expr K).eval x = .ok (-(1 / 2)) := by
    rw [eval_negated_of_ok (rfl : (Expr.const (0.5 : K)).eval x = .ok 0.5)]
    norm_num
  rw [outerArcsin, eval_binaryGrouped_of_ok .pow hdifference hhalf]
  exact congrArg Except.ok (eq_div_of_mul_eq hne hroot)

theorem eval_outerArctan (hu : u.eval x = .ok y) (hsquare : SquareLaw y) :
    u.outerArctan.eval x = .ok (arctanSlope y) :=
  eval_inverse (eval_binaryGrouped_of_ok .plus eval_one (eval_squared_of_law hu hsquare))

theorem eval_outerArcsec (hu : u.eval x = .ok y) (hsquare : SquareLaw y) (habs : AbsLaw y)
    (hsecant : SecantLaw y) :
    u.outerArcsec.eval x = .ok (arccosSlope (1 / y) * reciprocalSlope y) := by
  have hroot := eval_unary_of_ok (.call .sqrt)
    (eval_binaryGrouped_of_ok .minus (eval_squared_of_law hu hsquare) eval_one)
  have hproduct := eval_binaryGrouped_of_ok .times (eval_unary_of_ok (.call .abs) hu) hroot
  rw [outerArcsec, eval_inverse hproduct, arccosSlope, neg_mul,
    arcsinSlope_mul_reciprocalSlope habs hsecant, neg_neg]
  rfl

end Expr

/-! ### The rules -/

/-- **The tree of a rule has the slope of the function as its value.** -/
theorem Func.eval_outerDerivative [CharZero K] {f : Func} (hu : u.eval x = .ok y)
    (hregular : f.RegularAt y) (hlawful : f.LawfulAt y) :
    (f.outerDerivative u).eval x = .ok (f.slope y) := by
  have hcall : ∀ g : Func, (call g u).eval x = .ok (g.apply y) := by
    intro g
    exact eval_unary_of_ok (.call g) hu
  cases f with
  | sin => exact hcall .cos
  | cos => exact eval_negated_of_ok (hcall .sin)
  | tan =>
    rw [outerDerivative, eval_squared_of_law (hcall .sec) hlawful, apply, slope, tanSlope,
      div_mul_div_comm, one_mul]
  | cot =>
    obtain ⟨hsquare, hcomplement, -⟩ := hlawful
    rw [outerDerivative, eval_negated_of_ok (eval_squared_of_law (hcall .csc) hsquare), apply,
      slope, tanSlope, hcomplement, div_mul_div_comm, one_mul, mul_neg_one]
  | sec =>
    have htan : Elementary.tan y = Elementary.sin y / Elementary.cos y :=
      eq_div_of_mul_eq hregular hlawful
    rw [outerDerivative, eval_binaryGrouped_of_ok .times (hcall .sec) (hcall .tan), BinaryOp.apply,
      apply, apply, htan, slope, reciprocalSlope, div_mul_div_comm, div_mul_eq_mul_div, neg_mul_neg]
  | csc =>
    obtain ⟨htangent, hcos, hsin⟩ := hlawful
    have hcot : Elementary.tan (rightAngle - y) = Elementary.cos y / Elementary.sin y := by
      rw [TangentLaw, hcos, hsin] at htangent
      exact eq_div_of_mul_eq hregular htangent
    rw [outerDerivative,
      eval_negated_of_ok (eval_binaryGrouped_of_ok .times (hcall .csc) (hcall .cot)),
      BinaryOp.apply, apply, apply, hcot, slope, reciprocalSlope, div_mul_div_comm,
      div_mul_eq_mul_div, neg_mul, neg_div]
  | arcsin => exact eval_outerArcsin hu hlawful.1 hlawful.2 hregular
  | arccos => exact eval_negated_of_ok (eval_outerArcsin hu hlawful.1 hlawful.2 hregular)
  | arctan => exact eval_outerArctan hu hlawful
  | arccot => exact eval_negated_of_ok (eval_outerArctan hu hlawful)
  | arcsec => exact eval_outerArcsec hu hlawful.1 hlawful.2.1 hlawful.2.2
  | arccsc =>
    rw [outerDerivative,
      eval_negated_of_ok (eval_outerArcsec hu hlawful.1 hlawful.2.1 hlawful.2.2), arccosSlope,
      neg_mul, neg_neg, slope]
  | log =>
    have hten : (call .ln (.const ((10 : ℕ) : K))).eval x = .ok (Elementary.ln 10) := by
      rw [eval_unary_of_ok (.call .ln) (rfl : (Expr.const ((10 : ℕ) : K)).eval x = .ok _),
        Nat.cast_ofNat]
      rfl
    rw [outerDerivative, eval_binaryGrouped_of_ok .div (eval_inverse hu) hten, BinaryOp.apply,
      slope, div_div]
  | ln => exact eval_inverse hu
  | floor => rfl
  | sqrt => exact eval_inverse (eval_binaryGrouped_of_ok .times eval_two (hcall .sqrt))
  | abs =>
    have habs : Elementary.abs y * Elementary.abs y = y * y := hlawful
    have hne : Elementary.abs y ≠ 0 := by
      intro hzero
      rw [hzero, mul_zero] at habs
      exact mul_ne_zero hregular hregular habs.symm
    rw [outerDerivative, eval_binaryGrouped_of_ok .div (hcall .abs) hu, BinaryOp.apply, apply,
      slope, (div_eq_div_iff hregular hne).mpr habs]

namespace Expr

/-- **The chain rule.** The derivative of a composition is the outer derivative times the inner one.
A factor of one is left out, which is the derivative of the variable. -/
theorem exists_chain_of_derivative (hconstant : u.isConstant = false) (hu' : u.derivative = .ok u')
    (outer : Expr K) :
    ∃ d, chain outer u u.derivative = .ok d ∧
      ∀ s b, outer.eval x = .ok s → u'.eval x = .ok b → d.eval x = .ok (s * b) := by
  unfold chain
  rw [if_neg (by simp [hconstant]), hu']
  split
  · next hvar =>
    cases u with
    | var name =>
      have hone : Expr.const 1 = u' := Except.ok.inj hu'
      refine ⟨outer, rfl, fun s b hs hb => ?_⟩
      rw [← hone] at hb
      rw [hs, ← Except.ok.inj hb, mul_one]
    | _ => contradiction
  · refine ⟨_, rfl, fun s b hs hb => ?_⟩
    have hgroup : (group u').eval x = .ok b := by rw [eval_group, hb]
    exact eval_binaryGrouped_of_ok .times hs hgroup

/-- The derivative of an operation exists, and has the product of the slope and the inner derivative
as its value. -/
theorem exists_derivative_unary [CharZero K] (op : UnaryOp) (hconstant : u.isConstant = false)
    (hu' : u.derivative = .ok u') (ha : u.eval x = .ok a) (hb : u'.eval x = .ok b) :
    ∃ d, (unary op u).derivative = .ok d ∧
      (op.RegularAt a → op.LawfulAt a → d.eval x = .ok (op.slope a * b)) := by
  cases op with
  | negate =>
    refine ⟨u'.negated, by rw [derivative, hu']; rfl, fun _ _ => ?_⟩
    rw [eval_negated_of_ok hb, UnaryOp.slope, neg_one_mul]
  | group =>
    refine ⟨group u', by rw [derivative, hu']; rfl, fun _ _ => ?_⟩
    rw [eval_group, hb, UnaryOp.slope, one_mul]
  | exp =>
    obtain ⟨d, hd, hvalue⟩ := exists_chain_of_derivative hconstant hu' (.unary .exp u)
    exact ⟨d, hd, fun _ _ => hvalue _ b (eval_unary_of_ok .exp ha) hb⟩
  | reciprocal =>
    obtain ⟨d, hd, hvalue⟩ :=
      exists_chain_of_derivative hconstant hu' (negated (inverse u.squared))
    refine ⟨d, hd, fun _ hsquare => hvalue _ b ?_ hb⟩
    rw [eval_negated_of_ok (eval_inverse (eval_squared_of_law ha hsquare)), UnaryOp.slope,
      reciprocalSlope, neg_div]
  | call f =>
    by_cases hfloor : f = .floor
    · subst hfloor
      have hnil : u.errorOffsets = [] := (hu' ▸ stopsAt_derivative u).nil_of_ok
      refine ⟨.const 0, by rw [derivative, hnil], fun _ _ => ?_⟩
      rw [eval, UnaryOp.slope, Func.slope, zero_mul]
    · obtain ⟨d, hd, hvalue⟩ := exists_chain_of_derivative hconstant hu' (f.outerDerivative u)
      refine ⟨d, by rw [derivative_call hfloor, hd], fun hregular hlawful => ?_⟩
      exact hvalue _ b (Func.eval_outerDerivative ha hregular hlawful) hb

/-- **On the real numbers, one rule leads from a derivative to a derivative.** If the value of `u'`
is the derivative of the value of `u`, then the derivative of an operation on `u` has the derivative
of the value of that operation as its value. -/
theorem hasDerivAt_eval_unary (op : UnaryOp) {u u' : Expr ℝ} {x b : ℝ} {U : ℝ → ℝ}
    (hconstant : u.isConstant = false) (hu' : u.derivative = .ok u')
    (hvalue : ∀ z, u.eval z = .ok (U z)) (hb : u'.eval x = .ok b) (hU : HasDerivAt U b x)
    (hregular : op.RegularAt (U x)) :
    ∃ d s, (unary op u).derivative = .ok d ∧ d.eval x = .ok s ∧
      (∀ z, (unary op u).eval z = .ok (op.apply (U z))) ∧
      HasDerivAt (fun z => op.apply (U z)) s x := by
  obtain ⟨d, hd, hslope⟩ := exists_derivative_unary op hconstant hu' (hvalue x) hb
  have hlawful := UnaryOp.lawfulAt_real hregular
  refine ⟨d, _, hd, hslope hregular hlawful, fun z => eval_unary_of_ok op (hvalue z), ?_⟩
  exact (UnaryOp.hasDerivAt_apply hregular).comp x hU

/-- **Derivatives of functions are those of textbooks.** Let an operand that is not a constant have
a derivative. Then at each point there are values `a` of the operand and `b` of its derivative, and
every operation on the operand has a derivative. If nothing is divided by zero at `a`, and if the
functions satisfy the laws there, the value of that derivative is the textbook slope of the
operation at `a` times `b`. -/
theorem eval_derivative_unary [CharZero K] (op : UnaryOp) {u u' : Expr K} (x : K)
    (hconstant : u.isConstant = false) (hu' : u.derivative = .ok u') :
    ∃ a b d, u.eval x = .ok a ∧ u'.eval x = .ok b ∧ (unary op u).derivative = .ok d ∧
      (op.RegularAt a → op.LawfulAt a → d.eval x = .ok (op.slope a * b)) := by
  obtain ⟨a, b, ha, hb⟩ := exists_eval_of_derivative hu' x
  obtain ⟨d, hd, hvalue⟩ := exists_derivative_unary op hconstant hu' ha hb
  exact ⟨a, b, d, ha, hb, hd, hvalue⟩

/-- On the real numbers, the derivative of `arcsec(2 * x)` at one is `1 / sqrt(3)`. -/
theorem eval_derivative_unary_arcsec :
    let u : Expr ℝ := .binary .times (.const 2) (.var "x")
    let op : UnaryOp := .call .arcsec
    u.isConstant = false ∧ (∃ u', u.derivative = .ok u') ∧ u.eval 1 = .ok 2 ∧
      op.RegularAt (2 : ℝ) ∧ op.LawfulAt (2 : ℝ) ∧
      ∃ d, (unary op u).derivative = .ok d ∧ d.eval 1 = .ok (1 / √3) := by
  intro u op
  have hu : u.eval 1 = .ok 2 := congrArg Except.ok (mul_one 2)
  have hroot : √(1 - 1 / 2 * (1 / 2) : ℝ) = √3 / 2 := by
    have hquotient : (1 - 1 / 2 * (1 / 2) : ℝ) = 3 / 2 ^ 2 := by norm_num
    rw [hquotient, Real.sqrt_div zero_le_three, Real.sqrt_sq zero_le_two]
  have hregular : op.RegularAt (2 : ℝ) := by
    refine ⟨two_ne_zero, ?_⟩
    have hpos : 0 < √3 / 2 := by positivity
    exact (hroot.trans_gt hpos).ne'
  obtain ⟨a, b, d, ha, hb, hd, hvalue⟩ :=
    eval_derivative_unary op 1 rfl (rfl : u.derivative = .ok _)
  have htwo : 2 = a := Except.ok.inj (hu.symm.trans ha)
  subst htwo
  have hlawful := UnaryOp.lawfulAt_real hregular
  refine ⟨rfl, ⟨_, rfl⟩, hu, hregular, hlawful, d, hd, ?_⟩
  have hinner : b = 0 * 1 + 2 * 1 :=
    Except.ok.inj (hb.symm.trans (eval_binaryGrouped_of_ok .plus
      (eval_binaryGrouped_of_ok .times rfl rfl) (eval_binaryGrouped_of_ok .times rfl rfl)))
  have hslope : op.slope (2 : ℝ) = 1 / √3 / 2 := by
    have harccos : arccosSlope (1 / 2 : ℝ) = -(1 / (√3 / 2)) := by
      rw [← hroot]
      rfl
    have hproduct : op.slope (2 : ℝ) = arccosSlope (1 / 2) * (-1 / (2 * 2)) := rfl
    rw [hproduct, harccos]
    field_simp
  rw [hvalue hregular hlawful, hslope, hinner]
  norm_num

end Expr

end Univariate
