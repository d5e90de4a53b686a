import Mathlib.Analysis.SpecialFunctions.Log.Base
import Mathlib.Analysis.SpecialFunctions.Log.Deriv
import Mathlib.Analysis.SpecialFunctions.Sqrt
import Mathlib.Analysis.SpecialFunctions.Trigonometric.ArctanDeriv
import Mathlib.Analysis.SpecialFunctions.Trigonometric.InverseDeriv
import Mathlib.Analysis.Calculus.Deriv.Abs
import Univariate.Eval

/-!
# Slopes of functions

How fast the value of an operation on one operand changes with the operand, written as in a
textbook. Six functions are not computed by themselves but from others, the cotangent for example
as the tangent of the complementary angle. Their slopes follow from those of the others by the
chain rule.

The numbers are those of any field. What is known of functions on it are the few laws that connect
their slopes: that a square is a product, that the tangent is the sine over the cosine, and so on.
Such a law need not hold everywhere. No tangent of a right angle satisfies the second one, and no
power of a negative number the law of roots. So each operation has a condition on the point, that
nothing is divided by zero there, and needs only some of the laws, each at a single point.

On the real numbers the laws hold at all points where nothing is divided by zero, and the slopes are
the derivatives of analysis.

## Main definitions

* `UnaryOp.slope`: the slope of an operation at a point.
* `UnaryOp.RegularAt`: nothing is divided by zero in the slope.
* `UnaryOp.LawfulAt`: the laws that connect the slope with those of other operations.

## Main results

* `UnaryOp.lawfulAt_real`: real functions satisfy the laws.
* `UnaryOp.hasDerivAt_apply`: on the real numbers, slopes are derivatives.
-/

namespace Univariate

variable {K : Type} [Field K] [Numeral K] [Elementary K]

/-! ### Slopes -/

/-- The slope of the reciprocal. -/
def reciprocalSlope (y : K) : K :=
  -1 / (y * y)

/-- The slope of the tangent. -/
def tanSlope (y : K) : K :=
  1 / (Elementary.cos y * Elementary.cos y)

/-- The slope of the inverse sine. -/
def arcsinSlope (y : K) : K :=
  1 / Elementary.sqrt (1 - y * y)

/-- The slope of the inverse cosine. -/
def arccosSlope (y : K) : K :=
  -arcsinSlope y

/-- The slope of the inverse tangent. -/
def arctanSlope (y : K) : K :=
  1 / (1 + y * y)

/-- The slope of a function. Where the function is computed from another, it is the product of the
slope of that one and the slope of its operand. -/
def Func.slope (f : Func) (y : K) : K :=
  match f with
  | .sin => Elementary.cos y
  | .cos => -Elementary.sin y
  | .tan => tanSlope y
  | .cot => tanSlope (rightAngle - y) * -1
  | .sec => reciprocalSlope (Elementary.cos y) * -Elementary.sin y
  | .csc => reciprocalSlope (Elementary.sin y) * Elementary.cos y
  | .arcsin => arcsinSlope y
  | .arccos => arccosSlope y
  | .arctan => arctanSlope y
  | .arccot => -arctanSlope y
  | .arcsec => arccosSlope (1 / y) * reciprocalSlope y
  | .arccsc => arcsinSlope (1 / y) * reciprocalSlope y
  | .log => 1 / (y * Elementary.ln 10)
  | .ln => 1 / y
  | .floor => 0
  | .sqrt => 1 / (2 * Elementary.sqrt y)
  | .abs => y / Elementary.abs y

/-- The slope of an operation on one operand. -/
def UnaryOp.slope (op : UnaryOp) (y : K) : K :=
  match op with
  | .negate => -1
  | .group => 1
  | .exp => Elementary.exp y
  | .reciprocal => reciprocalSlope y
  | .call f => f.slope y

/-! ### Where there is a slope -/

/-- Nothing that a function or its slope is divided by is zero. Rounding down has a jump at each
whole number instead. -/
def Func.RegularAt (f : Func) (y : K) : Prop :=
  match f with
  | .sin | .cos => True
  | .tan | .sec => Elementary.cos y ≠ 0
  | .cot | .csc => Elementary.sin y ≠ 0
  | .arcsin | .arccos => Elementary.sqrt (1 - y * y) ≠ 0
  | .arctan | .arccot => 1 + y * y ≠ 0
  | .arcsec | .arccsc => y ≠ 0 ∧ Elementary.sqrt (1 - 1 / y * (1 / y)) ≠ 0
  | .log => y ≠ 0 ∧ Elementary.ln (10 : K) ≠ 0
  | .ln | .abs => y ≠ 0
  | .sqrt => Elementary.sqrt y ≠ 0
  | .floor => Elementary.floor y ≠ y

/-- Nothing that an operation or its slope is divided by is zero. -/
def UnaryOp.RegularAt (op : UnaryOp) (y : K) : Prop :=
  match op with
  | .negate | .group | .exp => True
  | .reciprocal => y ≠ 0
  | .call f => f.RegularAt y

/-! ### Laws -/

/-- A square is a product. -/
def SquareLaw (y : K) : Prop :=
  Elementary.pow y 2 = y * y

/-- The tangent is the sine divided by the cosine. -/
def TangentLaw (y : K) : Prop :=
  Elementary.tan y * Elementary.cos y = Elementary.sin y

/-- Sine and cosine of complementary angles are exchanged. -/
def ComplementLaw (y : K) : Prop :=
  Elementary.cos (rightAngle - y) = Elementary.sin y ∧
    Elementary.sin (rightAngle - y) = Elementary.cos y

/-- The power with exponent minus one half is the reciprocal of the root. -/
def RootLaw (y : K) : Prop :=
  Elementary.pow y (-(1 / 2)) * Elementary.sqrt y = 1

/-- The square of the absolute value is that of the number. -/
def AbsLaw (y : K) : Prop :=
  Elementary.abs y * Elementary.abs y = y * y

/-- A square can be taken out of a root. -/
def SecantLaw (y : K) : Prop :=
  Elementary.sqrt (y * y - 1) = Elementary.abs y * Elementary.sqrt (1 - 1 / (y * y))

/-- The laws that connect the slope of a function with other functions, at the points where they are
needed. -/
def Func.LawfulAt (f : Func) (y : K) : Prop :=
  match f with
  | .tan => SquareLaw (1 / Elementary.cos y)
  | .cot => SquareLaw (1 / Elementary.sin y) ∧ ComplementLaw y
  | .sec => TangentLaw y
  | .csc => TangentLaw (rightAngle - y) ∧ ComplementLaw y
  | .arcsin | .arccos => SquareLaw y ∧ RootLaw (1 - y * y)
  | .arctan | .arccot => SquareLaw y
  | .arcsec | .arccsc => SquareLaw y ∧ AbsLaw y ∧ SecantLaw y
  | .abs => AbsLaw y
  | .sin | .cos | .log | .ln | .floor | .sqrt => True

/-- The laws that connect the slope of an operation with other operations. -/
def UnaryOp.LawfulAt (op : UnaryOp) (y : K) : Prop :=
  match op with
  | .negate | .group | .exp => True
  | .reciprocal => SquareLaw y
  | .call f => f.LawfulAt y

omit [Numeral K] in
/-- The slope that the chain rule gives for the inverse secant has the root of `1 - 1 / y ^ 2` below
the line, and the factor `y ^ 2` from the reciprocal. One of the two factors of the square goes into
the root. -/
theorem arcsinSlope_mul_reciprocalSlope {y : K} (habs : AbsLaw y) (hsecant : SecantLaw y) :
    arcsinSlope (1 / y) * reciprocalSlope y =
      -(1 / (Elementary.abs y * Elementary.sqrt (y * y - 1))) := by
  have hroot : Elementary.abs y * Elementary.sqrt (y * y - 1) =
      y * y * Elementary.sqrt (1 - 1 / y * (1 / y)) := by
    rw [hsecant, ← mul_assoc, habs, div_mul_div_comm, one_mul]
  rw [hroot, arcsinSlope, reciprocalSlope, div_mul_div_comm, one_mul, neg_div, mul_comm (y * y)]

/-! ### Real numbers -/

/-- Real numbers have no text of their own. They are written without their fraction. -/
noncomputable instance instNumeralReal : Numeral ℝ where
  pi := Real.pi
  isNegative c := decide (c < 0)
  isFinite _ := true
  isUndefined _ := false
  magnitude c := ⌊|c|⌋₊.repr
  toNat? c := if (⌊c⌋₊ : ℝ) = c then some ⌊c⌋₊ else none

/-- Functions on the real numbers. -/
noncomputable instance instElementaryReal : Elementary ℝ where
  pow := Real.rpow
  sin := Real.sin
  cos := Real.cos
  tan := Real.tan
  asin := Real.arcsin
  acos := Real.arccos
  atan := Real.arctan
  log10 := Real.logb 10
  ln := Real.log
  exp := Real.exp
  floor c := ⌊c⌋
  sqrt := Real.sqrt
  abs c := |c|

section Real

variable {y : ℝ}

theorem squareLaw_real (y : ℝ) : SquareLaw y := by
  have htwo : Elementary.pow y 2 = y ^ (2 : ℝ) := rfl
  rw [SquareLaw, htwo, Real.rpow_two, sq]

theorem complementLaw_real (y : ℝ) : ComplementLaw y := by
  have hangle : (rightAngle : ℝ) = Real.pi / 2 := by
    rw [rightAngle, Nat.cast_ofNat]
    rfl
  rw [ComplementLaw, hangle]
  exact ⟨Real.cos_pi_div_two_sub y, Real.sin_pi_div_two_sub y⟩

theorem cos_rightAngle_sub_ne_zero (hy : Real.sin y ≠ 0) : Real.cos (rightAngle - y) ≠ 0 := by
  have hcomplement : Real.cos (rightAngle - y) = Real.sin y := (complementLaw_real y).1
  rwa [hcomplement]

theorem rootLaw_real (hy : √y ≠ 0) : RootLaw y := by
  have hpos : 0 < y := Real.sqrt_ne_zero'.mp hy
  have hpow : Elementary.pow y (-(1 / 2)) = y ^ (-(1 / 2) : ℝ) := rfl
  have hroot : Elementary.sqrt y = y ^ (1 / 2 : ℝ) := Real.sqrt_eq_rpow y
  rw [RootLaw, hpow, hroot, ← Real.rpow_add hpos, neg_add_cancel, Real.rpow_zero]

theorem absLaw_real (y : ℝ) : AbsLaw y :=
  abs_mul_abs_self y

theorem secantLaw_real (hy : y ≠ 0) : SecantLaw y := by
  have hfactor : y * y - 1 = y * y * (1 - 1 / (y * y)) := by
    field_simp
  calc √(y * y - 1) = √(y * y) * √(1 - 1 / (y * y)) := by
        rw [hfactor, Real.sqrt_mul (mul_self_nonneg y)]
    _ = |y| * √(1 - 1 / (y * y)) := by rw [Real.sqrt_mul_self_eq_abs]

theorem Func.lawfulAt_real {f : Func} (h : f.RegularAt y) : f.LawfulAt y := by
  cases f with
  | tan => exact squareLaw_real _
  | cot => exact ⟨squareLaw_real _, complementLaw_real y⟩
  | sec => exact Real.tan_mul_cos h
  | csc => exact ⟨Real.tan_mul_cos (cos_rightAngle_sub_ne_zero h), complementLaw_real y⟩
  | arcsin | arccos => exact ⟨squareLaw_real y, rootLaw_real h⟩
  | arctan | arccot => exact squareLaw_real y
  | arcsec | arccsc => exact ⟨squareLaw_real y, absLaw_real y, secantLaw_real h.1⟩
  | abs => exact absLaw_real y
  | _ => trivial

/-- **Real functions satisfy the laws**, wherever nothing is divided by zero. -/
theorem UnaryOp.lawfulAt_real {op : UnaryOp} (h : op.RegularAt y) : op.LawfulAt y := by
  cases op with
  | reciprocal => exact squareLaw_real y
  | call f => exact f.lawfulAt_real h
  | _ => trivial

/-! Slopes of real functions are derivatives. -/

theorem hasDerivAt_reciprocal (hy : y ≠ 0) :
    HasDerivAt (fun y : ℝ => 1 / y) (reciprocalSlope y) y := by
  have h := hasDerivAt_inv hy
  simp only [← one_div] at h
  rwa [sq, ← neg_div] at h

theorem hasDerivAt_tan (hy : Real.cos y ≠ 0) : HasDerivAt Real.tan (tanSlope y) y := by
  have h := Real.hasDerivAt_tan hy
  rwa [sq] at h

/-- The slope of the inverse sine is not defined at the ends of the range of the sine. -/
theorem ne_one_of_sqrt_ne_zero (hy : √(1 - y * y) ≠ 0) : y ≠ -1 ∧ y ≠ 1 := by
  constructor
  all_goals
    rintro rfl
    simp at hy

theorem hasDerivAt_arcsin (hy : √(1 - y * y) ≠ 0) :
    HasDerivAt Real.arcsin (arcsinSlope y) y := by
  obtain ⟨hleft, hright⟩ := ne_one_of_sqrt_ne_zero hy
  have h := Real.hasDerivAt_arcsin hleft hright
  rwa [sq] at h

theorem hasDerivAt_arccos (hy : √(1 - y * y) ≠ 0) :
    HasDerivAt Real.arccos (arccosSlope y) y := by
  obtain ⟨hleft, hright⟩ := ne_one_of_sqrt_ne_zero hy
  have h := Real.hasDerivAt_arccos hleft hright
  rwa [sq] at h

theorem hasDerivAt_arctan (y : ℝ) : HasDerivAt Real.arctan (arctanSlope y) y := by
  have h := Real.hasDerivAt_arctan y
  rwa [sq] at h

theorem hasDerivAt_log10 (hy : y ≠ 0) :
    HasDerivAt (Real.logb 10) (1 / (y * Real.log 10)) y := by
  have h := (Real.hasDerivAt_log hy).div_const (Real.log 10)
  rwa [← one_div, div_div] at h

theorem hasDerivAt_abs_div (hy : y ≠ 0) : HasDerivAt (fun y : ℝ => |y|) (y / |y|) y := by
  have hsign : y / |y| = SignType.sign y :=
    (div_eq_iff (abs_ne_zero.mpr hy)).mpr (sign_mul_abs y).symm
  rw [hsign]
  exact hasDerivAt_abs hy

/-- Rounding down is constant next to a number that is not whole. -/
theorem hasDerivAt_floor (hy : (⌊y⌋ : ℝ) ≠ y) : HasDerivAt (fun y : ℝ => (⌊y⌋ : ℝ)) 0 y := by
  have hlower : (⌊y⌋ : ℝ) < y := lt_of_le_of_ne (Int.floor_le y) hy
  have hnear : (fun y : ℝ => (⌊y⌋ : ℝ)) =ᶠ[nhds y] fun _ => (⌊y⌋ : ℝ) := by
    filter_upwards [Ioo_mem_nhds hlower (Int.lt_floor_add_one y)] with z hz
    rw [Int.floor_eq_iff.mpr ⟨hz.1.le, hz.2⟩]
  exact (hasDerivAt_const y _).congr_of_eventuallyEq hnear

theorem Func.hasDerivAt_apply {f : Func} (h : f.RegularAt y) :
    HasDerivAt f.apply (f.slope y) y := by
  cases f with
  | sin => exact Real.hasDerivAt_sin y
  | cos => exact Real.hasDerivAt_cos y
  | tan => exact hasDerivAt_tan h
  | cot =>
    have hangle := (hasDerivAt_id y).const_sub rightAngle
    exact (hasDerivAt_tan (cos_rightAngle_sub_ne_zero h)).comp y hangle
  | sec => exact (hasDerivAt_reciprocal h).comp y (Real.hasDerivAt_cos y)
  | csc => exact (hasDerivAt_reciprocal h).comp y (Real.hasDerivAt_sin y)
  | arcsin => exact hasDerivAt_arcsin h
  | arccos => exact hasDerivAt_arccos h
  | arctan => exact hasDerivAt_arctan y
  | arccot => exact (hasDerivAt_arctan y).const_sub rightAngle
  | arcsec => exact (hasDerivAt_arccos h.2).comp y (hasDerivAt_reciprocal h.1)
  | arccsc => exact (hasDerivAt_arcsin h.2).comp y (hasDerivAt_reciprocal h.1)
  | log => exact hasDerivAt_log10 h.1
  | ln =>
    have hln := Real.hasDerivAt_log h
    rwa [← one_div] at hln
  | floor => exact hasDerivAt_floor h
  | sqrt => exact Real.hasDerivAt_sqrt (Real.sqrt_ne_zero'.mp h).ne'
  | abs => exact hasDerivAt_abs_div h

/-- **On the real numbers, slopes are derivatives.** At each point where nothing is divided by zero,
the slope of an operation is the derivative of its value. -/
theorem UnaryOp.hasDerivAt_apply {op : UnaryOp} (h : op.RegularAt y) :
    HasDerivAt op.apply (op.slope y) y := by
  cases op with
  | negate => exact (hasDerivAt_id y).neg
  | group => exact hasDerivAt_id y
  | exp => exact Real.hasDerivAt_exp y
  | reciprocal => exact hasDerivAt_reciprocal h
  | call f => exact f.hasDerivAt_apply h

end Real

end Univariate
