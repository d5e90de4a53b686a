import Univariate.Derivative
import Univariate.Normalize

/-!
# Renaming the variable of a tree

The name of the variable stands in the leaves of a tree and in its polynomials, and a tree keeps it
only to be written. Nothing that is computed from a tree looks at the name, with one exception. When
two polynomials are combined, one of the two names is taken, and a polynomial that was made from
constants has no name to offer. So the expansion of a tree asks whether a name is empty, and of
nothing else.

A renaming is any function on names. It commutes with differentiation, and it commutes with
expansion if it keeps the empty name apart from the others.

## Main definitions

* `Poly.rename`, `Expr.rename`: a polynomial and a tree with other names.
* `KeepsEmpty`: the renamings that keep the empty name apart.

## Main results

* `Expr.eval_rename`: the value does not depend on the name.
* `Expr.derivative_rename`: the derivative of the renamed tree is the renamed derivative.
* `Expr.normalize_rename`: the same for the expansion.
-/

namespace Univariate

/-- A renaming that gives a name to exactly what had one. -/
def KeepsEmpty (f : String → String) : Prop :=
  ∀ name, (f name).isEmpty = name.isEmpty

theorem KeepsEmpty.map_empty {f : String → String} (hf : KeepsEmpty f) : f "" = "" :=
  String.isEmpty_iff.mp ((hf "").trans rfl)

variable {R : Type} [Zero R] [BEq R] (f : String → String)

/-- What is built from two results can be changed in the results. -/
theorem map_both {m : Type → Type} [Monad m] [LawfulMonad m] {α β : Type} {g : α → β}
    {h : α → α → α} {h' : β → β → β} (hg : ∀ a b, g (h a b) = h' (g a) (g b)) (r₁ r₂ : m α) :
    g <$> (do return h (← r₁) (← r₂)) = do return h' (← g <$> r₁) (← g <$> r₂) := by
  simp [hg]

/-! ### Polynomials -/

namespace Poly

/-- A polynomial with another name for its variable. -/
def rename (p : Poly R) : Poly R :=
  { p with name := f p.name }

@[simp] theorem name_rename (p : Poly R) : (p.rename f).name = f p.name := rfl

@[simp] theorem coeffs_rename (p : Poly R) : (p.rename f).coeffs = p.coeffs := rfl

@[simp] theorem degree_rename (p : Poly R) : (p.rename f).degree = p.degree := rfl

@[simp] theorem rename_ofCoeffs (name : String) (cs : List R) :
    (ofCoeffs name cs).rename f = ofCoeffs (f name) cs := rfl

variable {f} (hf : KeepsEmpty f)

include hf

/-- The name of a combination is chosen by the degrees, and by whether there is a name. -/
theorem combinedName_rename (p q : Poly R) :
    combinedName (p.rename f) (q.rename f) = f (combinedName p q) := by
  simp only [combinedName, degree_rename, name_rename, hf p.name]
  exact (apply_ite f _ _ _).symm

theorem add_rename [Add R] (p q : Poly R) : (p.rename f).add (q.rename f) = (p.add q).rename f := by
  simp only [add, combinedName_rename hf, coeffs_rename, rename_ofCoeffs]

theorem sub_rename [Sub R] (p q : Poly R) : (p.rename f).sub (q.rename f) = (p.sub q).rename f := by
  simp only [sub, combinedName_rename hf, coeffs_rename, rename_ofCoeffs]

variable [Add R] [Mul R]

theorem mul_rename (p q : Poly R) : (p.rename f).mul (q.rename f) = (p.mul q).rename f := by
  simp only [mul, combinedName_rename hf, coeffs_rename, rename_ofCoeffs]

theorem powAux_rename (result square : Poly R) (k : Nat) :
    powAux (result.rename f) (square.rename f) k = (powAux result square k).rename f := by
  induction k using Nat.strongRecOn generalizing result square with
  | ind k ih =>
    rw [powAux, powAux]
    split
    · rfl
    · next hk =>
      have hdigit :
          (if k % 2 = 1 then (result.rename f).mul (square.rename f) else result.rename f) =
            (if k % 2 = 1 then result.mul square else result).rename f := by
        split
        · exact mul_rename hf result square
        · rfl
      dsimp only
      rw [hdigit]
      split
      · rfl
      · rw [mul_rename hf, ih (k / 2) (by omega)]

theorem pow_rename [One R] (p : Poly R) (k : Nat) : (p.rename f).pow k = (p.pow k).rename f :=
  powAux_rename hf (ofCoeffs p.name [1]) p k

end Poly

/-! ### Trees -/

namespace Expr

/-- A tree with another name for its variable. -/
@[simp] def rename : Expr R → Expr R
  | .var name => .var (f name)
  | .const c => .const c
  | .error offset => .error offset
  | .unary op u => .unary op u.rename
  | .binary op l r => .binary op l.rename r.rename
  | .poly p => .poly (p.rename f)

@[simp] theorem errorOffsets_rename (t : Expr R) : (t.rename f).errorOffsets = t.errorOffsets := by
  induction t with
  | unary op u ih => rw [rename, errorOffsets_unary, errorOffsets_unary, ih]
  | binary op l r ihl ihr => rw [rename, errorOffsets_binary, errorOffsets_binary, ihl, ihr]
  | _ => rfl

@[simp] theorem isVar_rename (t : Expr R) : (t.rename f).isVar = t.isVar := by
  cases t <;> rfl

@[simp] theorem isConst_rename (t : Expr R) : (t.rename f).isConst = t.isConst := by
  cases t <;> rfl

@[simp] theorem isConstant_rename (t : Expr R) : (t.rename f).isConstant = t.isConstant := by
  induction t with
  | unary op u ih => exact ih
  | binary op l r ihl ihr => rw [rename, isConstant, isConstant, ihl, ihr]
  | _ => rfl

section Value

variable [One R] [NatCast R] [Add R] [Sub R] [Mul R] [Div R] [Neg R] [Numeral R] [Elementary R]

/-- **The value does not depend on the name.** -/
theorem eval_rename (t : Expr R) (x : R) : (t.rename f).eval x = t.eval x := by
  induction t with
  | unary op u ih => rw [rename, eval, eval, ih]
  | binary op l r ihl ihr => rw [rename, eval, eval, ihl, ihr]
  | _ => rfl

end Value

/-! ### Derivatives -/

section Derivative

variable [Numeral R]

@[simp] theorem precedence_rename (t : Expr R) : (t.rename f).precedence = t.precedence := by
  cases t with
  | unary op u => cases op <;> rfl
  | _ => rfl

omit [Numeral R] in
@[simp] theorem rename_groupUnless (bare : Bool) (t : Expr R) :
    (t.groupUnless bare).rename f = (t.rename f).groupUnless bare := by
  cases bare <;> rfl

/-- Parentheses are added in the same places. -/
@[simp] theorem rename_binaryGrouped (op : BinaryOp) (l r : Expr R) :
    (binaryGrouped op l r).rename f = binaryGrouped op (l.rename f) (r.rename f) := by
  cases op <;> simp [binaryGrouped]

@[simp] theorem rename_negated (u : Expr R) : u.negated.rename f = (u.rename f).negated := by
  simp [negated]

theorem map_chain (outer inner : Expr R) (innerDerivative : Except Diagnostic (Expr R)) :
    (chain outer inner innerDerivative).map (rename f) =
      chain (outer.rename f) (inner.rename f) (innerDerivative.map (rename f)) := by
  rw [chain, chain, isConstant_rename, isVar_rename]
  split
  · rfl
  · split
    · rfl
    · cases innerDerivative <;> simp [Except.map]

variable [One R] [NatCast R] [OfScientific R]

omit [One R] [OfScientific R] in
@[simp] theorem rename_squared (u : Expr R) : u.squared.rename f = (u.rename f).squared := by
  simp [squared, two]

omit [NatCast R] [OfScientific R] in
@[simp] theorem rename_inverse (u : Expr R) : u.inverse.rename f = (u.rename f).inverse := by
  simp [inverse]

@[simp] theorem rename_outerDerivative (g : Func) (u : Expr R) :
    (g.outerDerivative u).rename f = g.outerDerivative (u.rename f) := by
  cases g <;> simp [Func.outerDerivative, outerArcsin, outerArctan, outerArcsec, two]

variable [Mul R]

/-- The rule for a function of an operand, except for the one that is constant between its steps. -/
theorem derivative_call {g : Func} (hg : g ≠ .floor) (u : Expr R) :
    (call g u).derivative = chain (g.outerDerivative u) u u.derivative := by
  cases g <;> first | rfl | contradiction

/-- **The derivative of the renamed tree is the renamed derivative.** -/
theorem derivative_rename (t : Expr R) :
    (t.rename f).derivative = t.derivative.map (rename f) := by
  induction t with
  | unary op u ih =>
    cases op with
    | negate | group =>
      rw [rename, derivative, derivative, ih]
      cases u.derivative <;> simp [Except.map]
    | exp | reciprocal =>
      rw [rename, derivative, derivative, ih, map_chain]
      simp
    | call g =>
      by_cases hg : g = .floor
      · subst hg
        rw [rename, derivative, derivative, errorOffsets_rename]
        cases u.errorOffsets <;> rfl
      · rw [rename, derivative_call hg, derivative_call hg, ih, map_chain, rename_outerDerivative]
  | binary op l r ihl ihr =>
    cases op with
    | pow =>
      rw [rename, derivative, derivative, isConstant_rename, ihl, ihr]
      split
      · rw [map_chain]
        simp
      · exact (map_both (by simp) _ _).symm
    | _ =>
      rw [rename, derivative, derivative, ihl, ihr]
      exact (map_both (by simp) _ _).symm
  | _ => rfl

end Derivative

/-! ### Expansion -/

section Expansion

variable [Numeral R]

theorem expandableExponent?_rename (base exponent : Expr R) :
    expandableExponent? (base.rename f) (exponent.rename f) =
      expandableExponent? base exponent := by
  cases exponent with
  | const k => simp only [rename, expandableExponent?, isConst_rename]
  | _ => rfl

theorem isPolynomial_rename (t : Expr R) : (t.rename f).isPolynomial = t.isPolynomial := by
  induction t with
  | unary op u ih => cases op <;> first | exact ih | rfl
  | binary op l r ihl ihr =>
    cases op with
    | div => rfl
    | pow => rw [rename, isPolynomial, isPolynomial, ihl, expandableExponent?_rename]
    | _ => rw [rename, isPolynomial, isPolynomial, ihl, ihr]
  | _ => rfl

variable [One R] [Add R] [Sub R] [Mul R] [Neg R] [Elementary R] {f} (hf : KeepsEmpty f)

include hf

omit [Numeral R] [Sub R] [Neg R] [Elementary R] in
theorem expandPower?_rename (p : Poly R) (k : Nat) :
    expandPower? (p.rename f) k = (expandPower? p k).map (Poly.rename f) := by
  rw [expandPower?, expandPower?, Poly.degree_rename, Poly.pow_rename hf]
  split <;> rfl

/-- The polynomial of a renamed power, if that of its base is the renamed one. -/
theorem expand?_pow_rename {base exponent : Expr R}
    (hbase : (base.rename f).expand? = base.expand?.map (Poly.rename f)) :
    ((binary .pow base exponent).rename f).expand? =
      (binary .pow base exponent).expand?.map (Poly.rename f) := by
  have hexponent := expandableExponent?_rename f base exponent
  cases hn : expandableExponent? base exponent with
  | none =>
    rw [rename, expand?_pow_of_none (hexponent.trans hn), expand?_pow_of_none hn, Option.map_none]
  | some n =>
    cases exponent with
    | const k =>
      rw [rename, rename, expand?_pow_of_some (hexponent.trans hn), expand?_pow_of_some hn]
      have hpower : ((base.rename f).expand?.bind fun p => expandPower? p n) =
          (base.expand?.bind fun p => expandPower? p n).map (Poly.rename f) := by
        rw [hbase]
        cases base.expand? with
        | none => rfl
        | some p => exact expandPower?_rename hf p n
      cases base with
      | const c => simp [Poly.constant, hf.map_empty]
      | var name => rfl
      | _ => exact hpower
    | _ => simp [expandableExponent?] at hn

/-- The polynomial of the renamed tree is the renamed polynomial. -/
theorem expand?_rename (t : Expr R) : (t.rename f).expand? = t.expand?.map (Poly.rename f) := by
  induction t with
  | const c => simp [expand?, Poly.constant, hf.map_empty]
  | unary op u ih =>
    cases op with
    | group => exact ih
    | negate =>
      rw [rename, expand?, expand?, ih]
      cases u.expand? <;> rfl
    | _ => rfl
  | binary op l r ihl ihr =>
    cases op with
    | plus =>
      rw [rename, expand?, expand?, ihl, ihr]
      exact (map_both (fun p q => (Poly.add_rename hf p q).symm) _ _).symm
    | minus =>
      rw [rename, expand?, expand?, ihl, ihr]
      exact (map_both (fun p q => (Poly.sub_rename hf p q).symm) _ _).symm
    | times =>
      rw [rename, expand?, expand?, ihl, ihr]
      exact (map_both (fun p q => (Poly.mul_rename hf p q).symm) _ _).symm
    | div => rfl
    | pow => exact expand?_pow_rename hf ihl
  | _ => rfl

/-- **The expansion of the renamed tree is the renamed expansion.** -/
theorem normalize_rename (t : Expr R) : (t.rename f).normalize = t.normalize.rename f := by
  rw [normalize, normalize, isPolynomial_rename, expand?_rename hf]
  split
  · cases t.expand? <;> rfl
  · rfl

end Expansion

end Expr

end Univariate
