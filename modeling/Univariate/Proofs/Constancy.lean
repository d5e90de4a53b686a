import Mathlib
import Univariate.Eval
import Univariate.Normalize
import Univariate.Proofs.ReadBack

/-!
# Trees without the variable

A tree is constant if it is built from numbers alone. Its value is computed without a look at the
point, so that two computations, at two points, take the same steps and arrive at the same number.

There is one exception. A polynomial of degree zero counts as a number, but Horner's rule multiplies
zero by the point before it adds the constant. Zero times an infinity is undefined, and zero times a
negative number is the negative zero, which shows when the constant is the negative zero too. So the
value of a constant tree is the same at all points only as far as the polynomials in it permit.

Where such a polynomial is undefined at both points, the two undefined numbers need not be the same
double. No operation passes an undefined number on as anything but an undefined number, or looks at
which one it is, so they are not told apart.

## Main definitions

* `Double.Same`: doubles that are the same number.
* `Poly.AgreesAt`: the points at which a constant polynomial has the same value.

## Main results

* `Double.Same.unary`, `Double.Same.binary`: operations on the same numbers have the same result.
* `Poly.same_eval_iff`: where a constant polynomial has the same value.
* `Expr.exists_eval_parse_eq`: constant trees that were read from a text have a single value.
* `Expr.eval_same_of_isConstant`: what the value of a constant tree depends on.
* `Expr.eval_not_same_of_isConstant`: a constant tree that depends on the point.
-/

namespace Univariate

open Float.Model Float.Model.UnpackedFloat

namespace Double

variable {x x' y y' : Double}

/-! ### The same number -/

/-- Two doubles that are the same number. The zeros are told apart, undefined numbers are not. -/
def Same (x y : Double) : Prop :=
  x = y ∨ x.isUndefined = true ∧ y.isUndefined = true

theorem isUndefined_iff (x : Double) : x.isUndefined = true ↔ x.unpacked = .notANumber := by
  obtain ⟨s, e, f, rfl⟩ := x.exists_components
  have hzero : f.toNat ≠ 0 ↔ f ≠ 0#52 := by
    rw [ne_eq, ne_eq, ← BitVec.toNat_inj]
    rfl
  rw [isUndefined_ofComponents, unpacked_ofComponents, unpack_components, hzero]
  split
  · next htop => split <;> simp_all
  · next htop => split <;> (try split) <;> simp_all

/-- Two doubles are the same number if the model of `Float` does not tell them apart. -/
theorem same_iff : Same x y ↔ x.unpacked = y.unpacked := by
  constructor
  · rintro (rfl | ⟨hx, hy⟩)
    · rfl
    · rw [(isUndefined_iff x).mp hx, (isUndefined_iff y).mp hy]
  · intro h
    by_cases hx : x.unpacked = .notANumber
    · exact .inr ⟨(isUndefined_iff x).mpr hx, (isUndefined_iff y).mpr (h ▸ hx)⟩
    · left
      rw [eq_of_unpacked_eq rfl hx, eq_of_unpacked_eq h.symm hx]

theorem Same.toFloat_eq (h : Same x y) : x.toFloat = y.toFloat :=
  congrArg (fun u => Float.ofModel (Float.Model.pack u)) (same_iff.mp h)

/-- The result of an operation is the number that it is as a `Float`. -/
theorem unpacked_ofResult (operands : List Double) (result : Float) :
    (ofResult operands result).unpacked = result.toModel.unpack := by
  rw [ofResult]
  split
  · next hnan =>
    have hresult : result.toModel.unpack = .notANumber := by
      change result.toModel.unpack.isNaN = true at hnan
      cases h : result.toModel.unpack <;> simp_all [UnpackedFloat.isNaN]
    rw [hresult, ← isUndefined_iff]
    cases h : operands.find? isUndefined with
    | none => decide
    | some z => exact List.find?_some h
  · rfl

theorem Same.refl (x : Double) : Same x x :=
  .inl rfl

theorem Same.symm (h : Same x y) : Same y x :=
  same_iff.mpr (same_iff.mp h).symm

theorem Same.trans {z : Double} (h : Same x y) (h' : Same y z) : Same x z :=
  same_iff.mpr ((same_iff.mp h).trans (same_iff.mp h'))

theorem same_comm : Same x y ↔ Same y x :=
  ⟨Same.symm, Same.symm⟩

theorem Same.isUndefined_eq (h : Same x y) : x.isUndefined = y.isUndefined := by
  obtain rfl | ⟨hx, hy⟩ := h
  · rfl
  · rw [hx, hy]

/-- An undefined number is the same as the undefined numbers only. -/
theorem same_iff_of_isUndefined (h : x.isUndefined = true) : Same x y ↔ y.isUndefined = true :=
  ⟨fun hsame => hsame.isUndefined_eq ▸ h, fun hy => .inr ⟨h, hy⟩⟩

/-! ### Operations do not tell undefined numbers apart -/

theorem Same.map (f : Float → Float) (h : Same x y) : Same (map f x) (map f y) := by
  rw [same_iff, Double.map, Double.map, unpacked_ofResult, unpacked_ofResult, h.toFloat_eq]

theorem Same.map₂ (f : Float → Float → Float) (h : Same x y) (h' : Same x' y') :
    Same (map₂ f x x') (map₂ f y y') := by
  rw [same_iff, Double.map₂, Double.map₂, unpacked_ofResult, unpacked_ofResult, h.toFloat_eq,
    h'.toFloat_eq]

theorem Same.neg (h : Same x y) : Same (-x) (-y) := by
  obtain rfl | ⟨hx, hy⟩ := h
  · exact .refl _
  · exact .inr ⟨by rw [isUndefined_neg, hx], by rw [isUndefined_neg, hy]⟩

theorem isUndefined_abs (x : Double) : x.abs.isUndefined = x.isUndefined := by
  have hexponent : x.abs.exponentField = x.exponentField := by
    rw [exponentField, Double.abs, UInt64.shiftRight_and, UInt64.and_assoc]
    rfl
  have hfraction : x.abs.fractionField = x.fractionField := by
    rw [fractionField, Double.abs, UInt64.and_assoc]
    rfl
  rw [isUndefined, isFinite, hexponent, hfraction, isUndefined, isFinite]

theorem Same.abs (h : Same x y) : Same x.abs y.abs := by
  obtain rfl | ⟨hx, hy⟩ := h
  · exact .refl _
  · exact .inr ⟨by rw [isUndefined_abs, hx], by rw [isUndefined_abs, hy]⟩

/-- Functions of the same number have the same value. -/
theorem Same.func (f : Func) (h : Same x y) : Same (f.apply x) (f.apply y) := by
  have hright : Same (rightAngle : Double) rightAngle := .refl _
  have hone : Same (1 : Double) 1 := .refl _
  cases f with
  | cot => exact (hright.map₂ (· - ·) h).map Float.tan
  | sec => exact hone.map₂ (· / ·) (h.map Float.cos)
  | csc => exact hone.map₂ (· / ·) (h.map Float.sin)
  | arccot => exact hright.map₂ (· - ·) (h.map Float.atan)
  | arcsec => exact (hone.map₂ (· / ·) h).map Float.acos
  | arccsc => exact (hone.map₂ (· / ·) h).map Float.asin
  | abs => exact h.abs
  | _ => exact h.map _

theorem Same.unary (op : UnaryOp) (h : Same x y) : Same (op.apply x) (op.apply y) := by
  cases op with
  | negate => exact h.neg
  | group => exact h
  | exp => exact h.map Float.exp
  | reciprocal => exact (Same.refl 1).map₂ (· / ·) h
  | call f => exact h.func f

theorem Same.binary (op : BinaryOp) (h : Same x y) (h' : Same x' y') :
    Same (op.apply x x') (op.apply y y') := by
  cases op <;> exact h.map₂ _ h'

/-! ### Zero times a number -/

theorem unpacked_mul (h : Representable (UnpackedFloat.mul Format.binary64 x.unpacked y.unpacked)) :
    (x * y).unpacked = UnpackedFloat.mul Format.binary64 x.unpacked y.unpacked := by
  have hmul : (x * y).unpacked = UnpackedFloat.unpack Format.binary64 (UnpackedFloat.pack
      Format.binary64 (UnpackedFloat.mul Format.binary64 x.toFloat.toModel.unpack
        y.toFloat.toModel.unpack)) := unpacked_ofResult _ _
  rw [hmul, unpack_toFloat, unpack_toFloat, unpack_pack h]

theorem unpacked_add (h : Representable (UnpackedFloat.add Format.binary64 x.unpacked y.unpacked)) :
    (x + y).unpacked = UnpackedFloat.add Format.binary64 x.unpacked y.unpacked := by
  have hadd : (x + y).unpacked = UnpackedFloat.unpack Format.binary64 (UnpackedFloat.pack
      Format.binary64 (UnpackedFloat.add Format.binary64 x.toFloat.toModel.unpack
        y.toFloat.toModel.unpack)) := unpacked_ofResult _ _
  rw [hadd, unpack_toFloat, unpack_toFloat, unpack_pack h]

/-- The sign of a double. -/
def sign (x : Double) : Sign :=
  if x.isNegative then .negative else .positive

theorem sign_ofComponents (s : Sign) (e : BitVec 11) (f : BitVec 52) :
    (ofComponents s e f).sign = s := by
  have h := isNegative_ofComponents s e f
  rw [sign]
  cases s <;> simp_all

/-- What a finite double stands for is a zero or another number with its sign. -/
theorem unpacked_of_isFinite (h : x.isFinite = true) :
    x.unpacked = .zero x.sign ∨ ∃ m q hm, x.unpacked = .finite x.sign m q hm := by
  obtain ⟨s, e, f, rfl⟩ := x.exists_components
  rw [isFinite_ofComponents] at h
  rw [sign_ofComponents, unpacked_ofComponents, unpack_components, if_neg h]
  split
  · split
    · exact .inl rfl
    · next hzero =>
      have hpos : 0 < f.toNat := by simpa [BitVec.toNat_pos, BitVec.pos_iff_ne_zero] using hzero
      exact .inr ⟨_, _, hpos, rfl⟩
  · exact .inr ⟨_, _, by omega, rfl⟩

/-- Any other double stands for an infinity, or is undefined. -/
theorem unpacked_of_not_isFinite (h : x.isFinite = false) :
    x.unpacked = .infinity x.sign ∨ x.unpacked = .notANumber := by
  obtain ⟨s, e, f, rfl⟩ := x.exists_components
  rw [← Bool.not_eq_true, isFinite_ofComponents, not_not] at h
  rw [sign_ofComponents, unpacked_ofComponents, unpack_components, if_pos h]
  split
  · exact .inl rfl
  · exact .inr rfl

/-- Zero times a finite number is a zero with the sign of that number. -/
theorem unpacked_zero_mul (h : x.isFinite = true) : (0 * x).unpacked = .zero x.sign := by
  have hmul : UnpackedFloat.mul Format.binary64 (0 : Double).unpacked x.unpacked =
      .zero x.sign := by
    have hsign : Sign.positive * x.sign = x.sign := by cases x.sign <;> rfl
    have hzero : (0 : Double).unpacked = .zero .positive := rfl
    obtain hx | ⟨m, q, hm, hx⟩ := unpacked_of_isFinite h <;>
      rw [hzero, hx, UnpackedFloat.mul, hsign]
  rw [unpacked_mul (hmul ▸ trivial), hmul]

/-- Zero times any other number is undefined. -/
theorem unpacked_zero_mul_of_not_isFinite (h : x.isFinite = false) :
    (0 * x).unpacked = .notANumber := by
  have hmul : UnpackedFloat.mul Format.binary64 (0 : Double).unpacked x.unpacked =
      .notANumber := by
    have hzero : (0 : Double).unpacked = .zero .positive := rfl
    obtain hx | hx := unpacked_of_not_isFinite h <;> rw [hzero, hx, UnpackedFloat.mul]
    simp
  rw [unpacked_mul (hmul ▸ trivial), hmul]

end Double

/-! ### Constant polynomials -/

namespace Poly

open Double

variable {p : Poly Double} {c x y : Double}

/-- Two points at which a constant polynomial has the same value. Horner's rule first multiplies
zero by the point. This is undefined if the point is not finite, and otherwise it is a zero with the
sign of the point, which is lost when a constant is added to it that is not the negative zero. -/
def AgreesAt (p : Poly Double) (x y : Double) : Prop :=
  (∃ c ∈ p.coeffs, c.isUndefined = true) ∨ (x.isFinite = false ∧ y.isFinite = false) ∨
    (x.isFinite = true ∧ y.isFinite = true ∧ (x.isNegative = y.isNegative ∨ -0 ∉ p.coeffs))

theorem agreesAt_self (p : Poly Double) (x : Double) : p.AgreesAt x x := by
  cases hx : x.isFinite
  · exact .inr (.inl ⟨hx, hx⟩)
  · exact .inr (.inr ⟨hx, hx, .inl rfl⟩)

/-- A polynomial of degree zero has a single coefficient. -/
theorem exists_coeffs_eq (h : p.degree = 0) : ∃ c, p.coeffs = [c] := by
  rw [degree, Nat.sub_eq_zero_iff_le] at h
  exact List.length_eq_one_iff.mp (le_antisymm h (List.length_pos_iff.mpr p.isTrimmed.1))

theorem eval_of_coeffs_eq (h : p.coeffs = [c]) (x : Double) : p.eval x = 0 * x + c := by
  rw [eval, h]
  rfl

/-- At a point that is not finite a polynomial of degree zero is undefined. -/
theorem isUndefined_eval (h : p.coeffs = [c]) (hx : x.isFinite = false) :
    (p.eval x).isUndefined = true := by
  have hadd : UnpackedFloat.add Format.binary64 (0 * x).unpacked c.unpacked = .notANumber := by
    rw [unpacked_zero_mul_of_not_isFinite hx, UnpackedFloat.add]
  rw [isUndefined_iff, eval_of_coeffs_eq h, unpacked_add (hadd ▸ trivial), hadd]

/-- At a finite point it is the constant, unless this is the negative zero and the point has no
sign. -/
theorem same_eval (h : p.coeffs = [c]) (hx : x.isFinite = true)
    (hc : x.isNegative = true ∨ c ≠ -0) : (p.eval x).Same c := by
  have hadd : UnpackedFloat.add Format.binary64 (.zero x.sign) c.unpacked = c.unpacked := by
    cases hu : c.unpacked with
    | zero s =>
      cases s with
      | positive => cases x.sign <;> rfl
      | negative =>
        -- the sign is kept because the other zero has it too
        have hnegZero : c = -0 := eq_of_unpacked_eq hu (by simp)
        rw [sign, hc.resolve_right (not_not_intro hnegZero)]
        rfl
    | _ => rfl
  rw [same_iff, eval_of_coeffs_eq h, unpacked_add] <;> rw [unpacked_zero_mul hx, hadd]
  exact representable_unpack _

/-- A negative zero becomes a zero without a sign there. -/
theorem eval_negZero (h : p.coeffs = [-0]) (hx : x.isFinite = true) (hx' : x.isNegative = false) :
    p.eval x = 0 := by
  have hsign : x.sign = .positive := by rw [sign, hx']; rfl
  have hadd : UnpackedFloat.add Format.binary64 (0 * x).unpacked (-0 : Double).unpacked =
      .zero .positive := by
    have hzero : (-0 : Double).unpacked = .zero .negative := rfl
    rw [unpacked_zero_mul hx, hsign, hzero]
    rfl
  rw [eval_of_coeffs_eq h]
  exact eq_of_unpacked_eq ((unpacked_add (hadd ▸ trivial)).trans hadd) (by simp)

/-- At a finite point it is undefined only if the constant is. -/
theorem isUndefined_eval_of_isFinite (h : p.coeffs = [c]) (hx : x.isFinite = true) :
    (p.eval x).isUndefined = c.isUndefined := by
  by_cases hc : x.isNegative = true ∨ c ≠ -0
  · exact (same_eval h hx hc).isUndefined_eq
  · obtain ⟨hpositive, rfl⟩ : ¬ x.isNegative = true ∧ c = -0 := by simpa using hc
    rw [eval_negZero h hx (Bool.eq_false_iff.mpr hpositive)]
    rfl

/-- The negative zero is kept at the points with a sign, and only there. -/
theorem same_eval_negZero_iff (h : p.coeffs = [-0]) (hx : x.isFinite = true)
    (hy : y.isFinite = true) :
    (p.eval x).Same (p.eval y) ↔ x.isNegative = y.isNegative := by
  have hzeros : ¬ Same 0 (-0) := by rw [same_iff]; nofun
  cases hx' : x.isNegative <;> cases hy' : y.isNegative
  · rw [eval_negZero h hx hx', eval_negZero h hy hy']
    exact iff_of_true (.refl 0) rfl
  · rw [eval_negZero h hx hx']
    exact iff_of_false (fun hsame => hzeros (hsame.trans (same_eval h hy (.inl hy')))) nofun
  · rw [eval_negZero h hy hy']
    exact iff_of_false (fun hsame => hzeros (hsame.symm.trans (same_eval h hx (.inl hx')))) nofun
  · exact iff_of_true ((same_eval h hx (.inl hx')).trans (same_eval h hy (.inl hy')).symm) rfl

/-- **Where a constant polynomial has the same value.** -/
theorem same_eval_iff (h : p.degree = 0) : (p.eval x).Same (p.eval y) ↔ p.AgreesAt x y := by
  obtain ⟨c, hc⟩ := exists_coeffs_eq h
  rw [AgreesAt, hc]
  simp only [List.mem_singleton, exists_eq_left]
  cases hx : x.isFinite <;> cases hy : y.isFinite
  · have hsame : (p.eval x).Same (p.eval y) :=
      .inr ⟨isUndefined_eval hc hx, isUndefined_eval hc hy⟩
    simpa using hsame
  · simp [same_iff_of_isUndefined (isUndefined_eval hc hx), isUndefined_eval_of_isFinite hc hy]
  · rw [same_comm]
    simp [same_iff_of_isUndefined (isUndefined_eval hc hy), isUndefined_eval_of_isFinite hc hx]
  · by_cases hzero : c = -0
    · subst hzero
      have hdefined : (-0 : Double).isUndefined = false := rfl
      simpa [hdefined] using same_eval_negZero_iff hc hx hy
    · have hsame : (p.eval x).Same (p.eval y) :=
        (same_eval hc hx (.inr hzero)).trans (same_eval hc hy (.inr hzero)).symm
      simpa [Ne.symm hzero] using hsame

end Poly

/-! ### Constant trees -/

namespace Expr

variable {t : Expr Double} {x y : Double}

/-- A constant tree has a value everywhere, and the same one at two points at which the polynomials
in it have the same value. -/
theorem exists_same_eval (ht : t.isConstant = true)
    (hleaves : ∀ p, poly p ∈ t.nodes → p.AgreesAt x y) :
    ∃ a b, t.eval x = .ok a ∧ t.eval y = .ok b ∧ a.Same b := by
  induction t with
  | var name | error offset => contradiction
  | const c => exact ⟨c, c, rfl, rfl, .refl c⟩
  | poly p =>
    have hdegree : p.degree = 0 := eq_of_beq ht
    exact ⟨_, _, rfl, rfl, (Poly.same_eval_iff hdegree).mpr (hleaves p (List.mem_singleton_self _))⟩
  | unary op u ih =>
    obtain ⟨a, b, ha, hb, hsame⟩ :=
      ih ht fun p hmem => hleaves p (mem_nodes_unary.mpr (.inl hmem))
    refine ⟨op.apply a, op.apply b, ?_, ?_, hsame.unary op⟩
    · rw [eval, ha]
      rfl
    · rw [eval, hb]
      rfl
  | binary op l r ihl ihr =>
    obtain ⟨hl, hr⟩ := Bool.and_eq_true_iff.mp ht
    obtain ⟨a, b, ha, hb, hsame⟩ :=
      ihl hl fun p hmem => hleaves p (mem_nodes_binary.mpr (.inl hmem))
    obtain ⟨a', b', ha', hb', hsame'⟩ :=
      ihr hr fun p hmem => hleaves p (mem_nodes_binary.mpr (.inr (.inl hmem)))
    refine ⟨op.apply a a', op.apply b b', ?_, ?_, hsame.binary op hsame'⟩
    · rw [eval, ha, ha']
      rfl
    · rw [eval, hb, hb']
      rfl

/-- A constant tree looks at the point in its polynomials only. -/
theorem eval_eq_of_isConstant (ht : t.isConstant = true)
    (hleaves : ∀ p, poly p ∈ t.nodes → p.eval x = p.eval y) : t.eval x = t.eval y := by
  induction t with
  | var name => contradiction
  | poly p => exact congrArg Except.ok (hleaves p (List.mem_singleton_self _))
  | unary op u ih =>
    rw [eval, eval, ih ht fun p hmem => hleaves p (mem_nodes_unary.mpr (.inl hmem))]
  | binary op l r ihl ihr =>
    obtain ⟨hl, hr⟩ := Bool.and_eq_true_iff.mp ht
    rw [eval, eval, ihl hl fun p hmem => hleaves p (mem_nodes_binary.mpr (.inl hmem)),
      ihr hr fun p hmem => hleaves p (mem_nodes_binary.mpr (.inr (.inl hmem)))]
  | _ => rfl

/-- A constant tree that was read from a text has a single value, since no polynomial can be written
into a text. -/
theorem exists_eval_parse_eq (v text : String) (h : (parse v text : Expr Double).hasError = false)
    (hconstant : (parse v text : Expr Double).isConstant = true) :
    ∃ a, ∀ x, (parse v text : Expr Double).eval x = .ok a := by
  have hleaves : ∀ p, .poly p ∉ (parse v text : Expr Double).nodes :=
    fun _ hmem => nomatch (writable_parse h).of_mem_nodes hmem
  obtain ⟨a, -, ha, -⟩ :=
    exists_same_eval (x := 0) (y := 0) hconstant fun p hmem => absurd hmem (hleaves p)
  refine ⟨a, fun x => ?_⟩
  rw [← ha]
  exact eval_eq_of_isConstant hconstant fun p hmem => absurd hmem (hleaves p)

/-- **What the value of a constant tree depends on.** It exists at all points, and it is the same at
two points if each polynomial in the tree has the same value at both. A constant polynomial has the
same value at two points if and only if its constant is undefined, or neither point is finite, or
both are and the zeros that they turn into have the same sign or are lost in the constant. -/
theorem eval_same_of_isConstant (t : Expr Double) (ht : t.isConstant = true) (x y : Double) :
    ∃ a b, t.eval x = .ok a ∧ t.eval y = .ok b ∧
      ((∀ p, poly p ∈ t.nodes → p.AgreesAt x y) → a.Same b) ∧
      ∀ p, t = .poly p → (a.Same b ↔ p.AgreesAt x y) := by
  -- the values exist because there are points at which all polynomials agree, such as `x` and `x`
  have hvalue : ∀ z : Double, ∃ a, t.eval z = .ok a := by
    intro z
    obtain ⟨a, -, ha, -⟩ := exists_same_eval (x := z) (y := z) ht fun p _ => p.agreesAt_self z
    exact ⟨a, ha⟩
  obtain ⟨a, ha⟩ := hvalue x
  obtain ⟨b, hb⟩ := hvalue y
  refine ⟨a, b, ha, hb, fun hleaves => ?_, ?_⟩
  · obtain ⟨a', b', ha', hb', hsame⟩ := exists_same_eval ht hleaves
    obtain rfl : a = a' := Except.ok.inj (ha.symm.trans ha')
    obtain rfl : b = b' := Except.ok.inj (hb.symm.trans hb')
    exact hsame
  · rintro p rfl
    obtain rfl : p.eval x = a := Except.ok.inj ha
    obtain rfl : p.eval y = b := Except.ok.inj hb
    exact Poly.same_eval_iff (eq_of_beq ht)

/-- A product of a number and a polynomial has the same value at two numbers of different sign. -/
theorem eval_same_of_isConstant_product :
    (binary .times (.const 2) (.poly (.constant 3)) : Expr Double).isConstant = true ∧
      ∃ a b : Double, (binary .times (.const 2) (.poly (.constant 3))).eval 1 = .ok a ∧
        (binary .times (.const 2) (.poly (.constant 3))).eval (-1) = .ok b ∧ a.Same b := by
  obtain ⟨a, b, ha, hb, hsame, -⟩ :=
    eval_same_of_isConstant (binary .times (.const 2) (.poly (.constant 3))) rfl 1 (-1)
  refine ⟨rfl, a, b, ha, hb, hsame fun p hmem => .inr (.inr ⟨rfl, rfl, .inr ?_⟩)⟩
  obtain h | h | h := mem_nodes_binary.mp hmem
  · have h := List.mem_singleton.mp h
    contradiction
  · obtain rfl := Expr.poly.inj (List.mem_singleton.mp h)
    have hne : (-0 : Double) ≠ 3 := fun hzero => absurd (congrArg Double.bits hzero) (by decide)
    exact fun hzero => hne (List.mem_singleton.mp hzero)
  · contradiction

/-- **A constant tree that depends on the point.** When the number `1` is normalized it becomes a
polynomial, whose value is undefined at infinity. -/
theorem eval_not_same_of_isConstant :
    (Expr.const 1 : Expr Double).normalize.isConstant = true ∧
      ∃ a b : Double, (Expr.const 1).normalize.eval 2 = .ok a ∧
        (Expr.const 1).normalize.eval Double.infinity = .ok b ∧ ¬ a.Same b := by
  refine ⟨rfl, (Poly.constant 1).eval 2, (Poly.constant 1).eval Double.infinity, rfl, rfl, ?_⟩
  rw [Poly.same_eval_iff rfl]
  rintro (⟨c, hmem, hc⟩ | ⟨hfinite, -⟩ | ⟨-, hfinite, -⟩)
  · obtain rfl := List.mem_singleton.mp hmem
    contradiction
  · contradiction
  · contradiction

end Expr

end Univariate
