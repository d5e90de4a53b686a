import Univariate.Proofs.Dual
import Univariate.Proofs.ErrorReports

/-!
# Derivatives are derivatives

The derivative of an expression is built by rules. Its value is compared here with the rate of
change that the expression has, which is found without rules: the expression itself is evaluated at
the dual number `x + ε`, and the rate is the coefficient of `ε`.

That the two agree is shown for the expressions of algebra. They are built from numbers, the
variable and polynomials by sums, differences, products, quotients, powers with whole exponents,
negations, reciprocals, absolute values and rounding down. All numbers are rational, so that nothing
is rounded. The point has to be one where these operations have a rate: nothing is divided by zero,
and neither an absolute value nor rounding down has a corner or a jump there.

## Why constants are treated apart

The chain rule gives zero for a function of a constant, without looking at the derivative of the
function. So along with the rates it has to be shown that a tree that counts as a constant has the
rate zero.

## Main definitions

* `Expr.map`: a tree with other numbers in place of its own.
* `Expr.RegularAt`: the trees, and the points at which they have a rate.
* `Expr.HasRate`: what is shown of a tree and its parts.

## Main results

* `Expr.RegularAt.hasRate`: the value of a derivative is the rate of the tree.
* `Expr.eval_derivative_eq_snd`: the same, as one statement.
-/

namespace Univariate

open DualNumber TrivSqZeroExt

namespace Expr

/-- The tree with other numbers in place of its own. -/
def map {R S : Type} [Zero R] [BEq R] [Zero S] [BEq S] (f : R → S) : Expr R → Expr S
  | .var name => .var name
  | .const c => .const (f c)
  | .error offset => .error offset
  | .unary op u => .unary op (u.map f)
  | .binary op l r => .binary op (l.map f) (r.map f)
  | .poly p => .poly (.ofCoeffs p.name (p.coeffs.map f))

/-- The trees of algebra, at a point where they have a rate of change. Nothing is divided by zero,
an absolute value is not that of zero, and what is rounded down is not a whole number unless it is
constant. -/
inductive RegularAt (x : ℚ) : Expr ℚ → Prop
  | const (c : ℚ) : RegularAt x (.const c)
  | var (name : String) : RegularAt x (.var name)
  | poly (p : Poly ℚ) : RegularAt x (.poly p)
  | group {u : Expr ℚ} : RegularAt x u → RegularAt x (group u)
  | negate {u : Expr ℚ} : RegularAt x u → RegularAt x (negate u)
  | reciprocal {u : Expr ℚ} : RegularAt x u → u.eval x ≠ .ok 0 → RegularAt x (.unary .reciprocal u)
  | abs {u : Expr ℚ} : RegularAt x u → u.eval x ≠ .ok 0 → RegularAt x (call .abs u)
  | floor {u : Expr ℚ} : RegularAt x u → ((∃ n : ℤ, u.eval x = .ok n) → u.isConstant = true) →
      RegularAt x (call .floor u)
  | plus {l r : Expr ℚ} : RegularAt x l → RegularAt x r → RegularAt x (.binary .plus l r)
  | minus {l r : Expr ℚ} : RegularAt x l → RegularAt x r → RegularAt x (.binary .minus l r)
  | times {l r : Expr ℚ} : RegularAt x l → RegularAt x r → RegularAt x (.binary .times l r)
  | div {l r : Expr ℚ} : RegularAt x l → RegularAt x r → r.eval x ≠ .ok 0 →
      RegularAt x (.binary .div l r)
  | pow {u : Expr ℚ} (n : ℤ) : RegularAt x u → (n ≤ 0 → u.eval x ≠ .ok 0) →
      RegularAt x (.binary .pow u (.const n))

/-- At a point, a tree has a dual number as its value next to the point. It consists of the value of
the tree and the value of its derivative. -/
structure HasRate (x : ℚ) (t : Expr ℚ) (v : ℚ[ε]) : Prop where
  /-- The tree, evaluated next to the point. -/
  dual : (t.map inl).eval (inl x + ε) = .ok v
  /-- The value of the tree. -/
  value : t.eval x = .ok v.fst
  /-- The derivative exists, and its value is the rate. -/
  slope : ∃ d, t.derivative = .ok d ∧ d.eval x = .ok v.snd
  /-- A constant has the rate zero. -/
  constant : t.isConstant = true → v.snd = 0

variable {x : ℚ} {t u l r outer : Expr ℚ} {v w : ℚ[ε]}

namespace HasRate

/-! ### Numbers, the variable and polynomials -/

theorem const (c : ℚ) : HasRate x (.const c) (inl c) where
  dual := rfl
  value := rfl
  slope := ⟨_, rfl, rfl⟩
  constant _ := rfl

theorem var (name : String) : HasRate x (.var name) (inl x + ε) where
  dual := rfl
  value := by simp [eval]
  slope := ⟨_, rfl, by simp [eval]⟩
  constant h := by contradiction

theorem poly (p : Poly ℚ) : HasRate x (.poly p) (horner (p.coeffs.map inl) (inl x + ε)) where
  dual := by rw [map, eval, Poly.eval_ofCoeffs]
  value := by rw [eval, Poly.eval_eq_horner, fst_horner_dual]
  slope := ⟨_, rfl, by rw [eval, Poly.eval_derivative]⟩
  constant h := by
    have hdegree : p.coeffs.length - 1 = 0 := by simpa [isConstant, Poly.degree] using h
    obtain hzero | hone : p.coeffs.length = 0 ∨ p.coeffs.length = 1 := by omega
    · simp [List.length_eq_zero_iff.mp hzero]
    · obtain ⟨c, hc⟩ := List.length_eq_one_iff.mp hone
      simp [hc]

/-! ### The chain rule -/

/-- **The chain rule.** The value of the outer derivative is multiplied by the inner rate. In the
first case of the rule both sides are zero, and in the second the inner rate is one. -/
theorem exists_chain (hu : HasRate x u v) {a : ℚ} (houter : outer.eval x = .ok a) :
    ∃ d, chain outer u u.derivative = .ok d ∧ d.eval x = .ok (a * v.snd) := by
  obtain ⟨d, hd, hslope⟩ := hu.slope
  unfold chain
  split
  · next hconstant => exact ⟨_, rfl, by rw [hu.constant hconstant, mul_zero]; rfl⟩
  · split
    · next hvar =>
      have hrate : v.snd = 1 := by
        cases u with
        | var name =>
          have hv : (inl x + ε : ℚ[ε]) = v := Except.ok.inj hu.dual
          rw [← hv]
          simp
        | _ => contradiction
      exact ⟨_, rfl, by rw [hrate, mul_one, houter]⟩
    · rw [hd]
      have hgroup : (Expr.group d).eval x = .ok v.snd := by rw [eval_group, hslope]
      exact ⟨_, rfl, eval_binaryGrouped_of_ok .times houter hgroup⟩

/-! ### Operations on one operand -/

theorem group (hu : HasRate x u v) : HasRate x (group u) v where
  dual := by rw [map, eval_group, hu.dual]
  value := by rw [eval_group, hu.value]
  slope := by
    obtain ⟨d, hd, hslope⟩ := hu.slope
    exact ⟨_, by rw [derivative, hd]; rfl, by rw [eval_group, hslope]⟩
  constant := hu.constant

theorem negate (hu : HasRate x u v) : HasRate x (negate u) (-v) where
  dual := eval_unary_of_ok .negate hu.dual
  value := eval_unary_of_ok .negate hu.value
  slope := by
    obtain ⟨d, hd, hslope⟩ := hu.slope
    exact ⟨_, by rw [derivative, hd]; rfl, eval_negated_of_ok hslope⟩
  constant h := by
    rw [snd_neg, hu.constant h, neg_zero]

theorem eval_squared {a : ℚ} (hu : u.eval x = .ok a) : u.squared.eval x = .ok (a ^ 2) := by
  have htwo : Elementary.pow a ((2 : ℕ) : ℚ) = a ^ 2 := rfl
  rw [squared, eval_binaryGrouped_of_ok .pow hu rfl, BinaryOp.apply, htwo]

theorem reciprocal (hu : HasRate x u v) (hne : v.fst ≠ 0) :
    HasRate x (.unary .reciprocal u) (1 / v) where
  dual := eval_unary_of_ok .reciprocal hu.dual
  value := by
    rw [eval_unary_of_ok .reciprocal hu.value, fst_div]
    rfl
  slope := by
    have houter := eval_negated_of_ok
      (eval_binaryGrouped_of_ok .div (rfl : (Expr.const 1).eval x = .ok (1 : ℚ))
        (eval_squared hu.value))
    obtain ⟨d, hd, hslope⟩ := hu.exists_chain houter
    refine ⟨d, hd, ?_⟩
    rw [hslope, snd_div hne, BinaryOp.apply]
    simp only [fst_one, snd_one]
    ring_nf
  constant h := by
    rw [snd_div hne, hu.constant h]
    simp

theorem abs (hu : HasRate x u v) (hne : v.fst ≠ 0) :
    HasRate x (call .abs u) (inl (|v.fst| / v.fst) * v) where
  dual := by
    rw [map, eval_unary_of_ok (.call .abs) hu.dual, ← abs_eq hne]
    rfl
  value := by
    rw [eval_unary_of_ok (.call .abs) hu.value, TrivSqZeroExt.fst_mul, fst_inl,
      div_mul_cancel₀ _ hne]
    rfl
  slope := by
    have houter := eval_binaryGrouped_of_ok .div (eval_unary_of_ok (.call .abs) hu.value) hu.value
    obtain ⟨d, hd, hslope⟩ := hu.exists_chain houter
    refine ⟨d, hd, ?_⟩
    rw [hslope, DualNumber.snd_mul, fst_inl, snd_inl, zero_mul, add_zero]
    rfl
  constant h := by
    rw [DualNumber.snd_mul, snd_inl, hu.constant h, mul_zero, zero_mul, add_zero]

theorem floor (hu : HasRate x u v) (hwhole : (∃ n : ℤ, v.fst = n) → u.isConstant = true) :
    HasRate x (call .floor u) (inl (⌊v.fst⌋ : ℚ)) where
  dual := by
    rw [map, eval_unary_of_ok (.call .floor) hu.dual,
      ← floor_eq fun h => hu.constant (hwhole h)]
    rfl
  value := eval_unary_of_ok (.call .floor) hu.value
  slope := by
    obtain ⟨d, hd, -⟩ := hu.slope
    have hnil : u.errorOffsets = [] := (hd ▸ stopsAt_derivative u).nil_of_ok
    exact ⟨_, by rw [derivative, hnil], rfl⟩
  constant _ := rfl

/-! ### Operations on two operands -/

theorem constant_binary {op : BinaryOp} (h : (binary op l r).isConstant = true) :
    l.isConstant = true ∧ r.isConstant = true :=
  Bool.and_eq_true_iff.mp h

theorem plus (hl : HasRate x l v) (hr : HasRate x r w) : HasRate x (.binary .plus l r) (v + w) where
  dual := eval_binary_of_ok .plus hl.dual hr.dual
  value := eval_binary_of_ok .plus hl.value hr.value
  slope := by
    obtain ⟨d, hd, hslope⟩ := hl.slope
    obtain ⟨d', hd', hslope'⟩ := hr.slope
    exact ⟨_, by rw [derivative, hd, hd']; rfl, eval_binaryGrouped_of_ok .plus hslope hslope'⟩
  constant h := by
    obtain ⟨h, h'⟩ := constant_binary h
    rw [snd_add, hl.constant h, hr.constant h', add_zero]

theorem minus (hl : HasRate x l v) (hr : HasRate x r w) :
    HasRate x (.binary .minus l r) (v - w) where
  dual := eval_binary_of_ok .minus hl.dual hr.dual
  value := eval_binary_of_ok .minus hl.value hr.value
  slope := by
    obtain ⟨d, hd, hslope⟩ := hl.slope
    obtain ⟨d', hd', hslope'⟩ := hr.slope
    exact ⟨_, by rw [derivative, hd, hd']; rfl, eval_binaryGrouped_of_ok .minus hslope hslope'⟩
  constant h := by
    obtain ⟨h, h'⟩ := constant_binary h
    rw [snd_sub, hl.constant h, hr.constant h', sub_zero]

theorem times (hl : HasRate x l v) (hr : HasRate x r w) :
    HasRate x (.binary .times l r) (v * w) where
  dual := eval_binary_of_ok .times hl.dual hr.dual
  value := eval_binary_of_ok .times hl.value hr.value
  slope := by
    obtain ⟨d, hd, hslope⟩ := hl.slope
    obtain ⟨d', hd', hslope'⟩ := hr.slope
    refine ⟨_, by rw [derivative, hd, hd']; rfl, ?_⟩
    rw [eval_binaryGrouped_of_ok .plus (eval_binaryGrouped_of_ok .times hslope hr.value)
      (eval_binaryGrouped_of_ok .times hl.value hslope'), DualNumber.snd_mul, add_comm]
    rfl
  constant h := by
    obtain ⟨h, h'⟩ := constant_binary h
    rw [DualNumber.snd_mul, hl.constant h, hr.constant h', mul_zero, zero_mul, add_zero]

theorem div (hl : HasRate x l v) (hr : HasRate x r w) (hne : w.fst ≠ 0) :
    HasRate x (.binary .div l r) (v / w) where
  dual := eval_binary_of_ok .div hl.dual hr.dual
  value := by
    rw [eval_binary_of_ok .div hl.value hr.value, fst_div]
    rfl
  slope := by
    obtain ⟨d, hd, hslope⟩ := hl.slope
    obtain ⟨d', hd', hslope'⟩ := hr.slope
    refine ⟨_, by rw [derivative, hd, hd']; rfl, ?_⟩
    have hnumerator := eval_binaryGrouped_of_ok .minus
      (eval_binaryGrouped_of_ok .times hslope hr.value)
      (eval_binaryGrouped_of_ok .times hl.value hslope')
    rw [eval_binaryGrouped_of_ok .div hnumerator (eval_squared hr.value), snd_div hne]
    rfl
  constant h := by
    obtain ⟨h, h'⟩ := constant_binary h
    rw [snd_div hne, hl.constant h, hr.constant h']
    simp

theorem pow (hu : HasRate x u v) {n : ℤ} (hne : n ≤ 0 → v.fst ≠ 0) :
    HasRate x (.binary .pow u (.const n)) (v ^ n) where
  dual := by
    rw [map, eval_binary_of_ok .pow hu.dual rfl, ← pow_inl_intCast]
    rfl
  value := by
    rw [eval_binary_of_ok .pow hu.value rfl, fst_zpow, BinaryOp.apply, pow_intCast]
  slope := by
    have hexponent : (n : ℚ) - 1 = ((n - 1 : ℤ) : ℚ) := by push_cast; ring
    have hn : (Expr.const (n : ℚ)).eval x = .ok (n : ℚ) := rfl
    have hone : (Expr.const (1 : ℚ)).eval x = .ok 1 := rfl
    have houter := eval_binaryGrouped_of_ok .times hn
      (eval_binaryGrouped_of_ok .pow hu.value (eval_binaryGrouped_of_ok .minus hn hone))
    obtain ⟨d, hd, hslope⟩ := hu.exists_chain houter
    refine ⟨d, hd, ?_⟩
    simp only [BinaryOp.apply] at hslope
    rw [hslope, hexponent, pow_intCast, snd_zpow hne]
  constant h := by
    obtain ⟨h, -⟩ := constant_binary h
    rw [snd_zpow hne, hu.constant h, mul_zero]

end HasRate

/-! ### All trees of algebra -/

/-- What is not zero for the evaluator is not zero as the value of a dual number. -/
theorem HasRate.fst_ne_zero (hu : HasRate x u v) (hne : u.eval x ≠ .ok 0) : v.fst ≠ 0 := by
  intro hzero
  exact hne (by rw [hu.value, hzero])

/-- **The value of a derivative is the rate of the tree.** -/
theorem RegularAt.hasRate (h : RegularAt x t) : ∃ v, HasRate x t v := by
  induction h with
  | const c => exact ⟨_, .const c⟩
  | var name => exact ⟨_, .var name⟩
  | poly p => exact ⟨_, .poly p⟩
  | group _ ih =>
    obtain ⟨v, hu⟩ := ih
    exact ⟨_, hu.group⟩
  | negate _ ih =>
    obtain ⟨v, hu⟩ := ih
    exact ⟨_, hu.negate⟩
  | reciprocal _ hne ih =>
    obtain ⟨v, hu⟩ := ih
    exact ⟨_, hu.reciprocal (hu.fst_ne_zero hne)⟩
  | abs _ hne ih =>
    obtain ⟨v, hu⟩ := ih
    exact ⟨_, hu.abs (hu.fst_ne_zero hne)⟩
  | floor _ hwhole ih =>
    obtain ⟨v, hu⟩ := ih
    refine ⟨_, hu.floor ?_⟩
    rintro ⟨n, hn⟩
    exact hwhole ⟨n, by rw [hu.value, hn]⟩
  | plus _ _ ihl ihr =>
    obtain ⟨v, hl⟩ := ihl
    obtain ⟨w, hr⟩ := ihr
    exact ⟨_, hl.plus hr⟩
  | minus _ _ ihl ihr =>
    obtain ⟨v, hl⟩ := ihl
    obtain ⟨w, hr⟩ := ihr
    exact ⟨_, hl.minus hr⟩
  | times _ _ ihl ihr =>
    obtain ⟨v, hl⟩ := ihl
    obtain ⟨w, hr⟩ := ihr
    exact ⟨_, hl.times hr⟩
  | div _ _ hne ihl ihr =>
    obtain ⟨v, hl⟩ := ihl
    obtain ⟨w, hr⟩ := ihr
    exact ⟨_, hl.div hr (hr.fst_ne_zero hne)⟩
  | pow n _ hne ih =>
    obtain ⟨v, hu⟩ := ih
    exact ⟨_, hu.pow fun hn => hu.fst_ne_zero (hne hn)⟩

/-- **Derivatives are exact.** For every tree of algebra and every rational point at which it has a
rate of change, the tree has a derivative. The tree itself, evaluated at the dual number `x + ε`,
has the value of the tree, and the value of the derivative as the coefficient of `ε`. -/
theorem eval_derivative_eq_snd {t : Expr ℚ} {x : ℚ} (h : RegularAt x t) :
    ∃ d v, t.derivative = .ok d ∧ (t.map inl).eval (inl x + ε) = .ok v ∧ t.eval x = .ok v.fst ∧
      d.eval x = .ok v.snd := by
  obtain ⟨v, hv⟩ := h.hasRate
  obtain ⟨d, hd, hslope⟩ := hv.slope
  exact ⟨d, v, hd, hv.dual, hv.value, hslope⟩

/-- The derivative of `|x - 3| * x ^ (-2) + floor(x / 2) / x` at one is `-5`. -/
theorem eval_derivative_eq_snd_one :
    let x : Expr ℚ := .var "x"
    let t : Expr ℚ := .binary .plus
      (.binary .times (call .abs (.binary .minus x (.const 3))) (.binary .pow x (.const (-2 : ℤ))))
      (.binary .div (call .floor (.binary .div x (.const 2))) x)
    RegularAt 1 t ∧ ∃ d, t.derivative = .ok d ∧ d.eval 1 = .ok (-5) := by
  intro x t
  have hregular : RegularAt 1 t := by
    have hx : RegularAt 1 x := .var "x"
    have hvalue : ∀ {u : Expr ℚ} {a : ℚ}, u.eval 1 = .ok a → a ≠ 0 → u.eval 1 ≠ .ok 0 := by
      intro u a hu ha h
      exact ha (Except.ok.inj (hu.symm.trans h))
    refine .plus (.times (.abs (.minus hx (.const 3)) (hvalue rfl (by decide +kernel))) ?_)
      (.div (.floor (.div hx (.const 2) (hvalue rfl (by decide))) ?_) hx (hvalue rfl (by decide)))
    · exact .pow (-2) hx fun _ => hvalue rfl (by decide)
    · rintro ⟨n, hn⟩
      have hden : ((1 : ℚ) / 2).den = (n : ℚ).den := congrArg Rat.den (Except.ok.inj hn)
      rw [Rat.den_intCast] at hden
      exact absurd hden (by decide +kernel)
  have hrate : (t.map inl).eval (inl 1 + ε) = .ok (inl 2 + inr (-5)) := by
    decide +kernel
  obtain ⟨d, v, hd, hdual, -, hslope⟩ := eval_derivative_eq_snd hregular
  have hv : inl 2 + inr (-5) = v := Except.ok.inj (hrate.symm.trans hdual)
  refine ⟨hregular, d, hd, ?_⟩
  rw [hslope, ← hv]
  simp

end Expr

end Univariate
