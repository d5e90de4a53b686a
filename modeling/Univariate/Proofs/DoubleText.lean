import Univariate.Proofs.Scientific
import Univariate.Proofs.Shortest
import Univariate.Proofs.Writable

/-!
# Doubles read back

A double without a sign is written as a literal that reads as the same double, or as `inf` if it is
infinite. The literal is that of the shortest decimal, which rounds to the double, and reading a
literal rounds a decimal. So doubles are numbers of the kind that trees have to be made of to be
read back.

## Main results

* `Double.literalValue_magnitude`: the text of a double reads back.
* `Double.text_eq_minus`, `Double.magnitude_neg`: how a number with a minus sign is written.
* the instance of `LawfulNumeral`.
-/

namespace Univariate

open Float.Model Float.Model.UnpackedFloat Univariate.Decimal

namespace Double

/-! ### Numbers without a sign -/

theorem isUnsigned_iff (x : Double) : IsUnsigned x ↔ IsPositive x.unpacked := by
  rw [isPositive_unpacked]
  exact ⟨fun h => ⟨h.not_negative, h.not_undefined⟩, fun h => ⟨h.1, h.2⟩⟩

theorem isUnsigned_ofScientific (n : ℕ) (negativeExponent : Bool) (p : ℕ) :
    IsUnsigned (OfScientific.ofScientific n negativeExponent p : Double) :=
  (isUnsigned_iff _).mpr (isPositive_ofScientific n negativeExponent p)

/-! ### Finite numbers -/

/-- A finite double without a sign is zero, or it stands for a number in canonical form. -/
theorem finite_cases {x : Double} (hx : IsUnsigned x) (hfinite : x.isFinite = true) :
    x = 0 ∨ ∃ m q, ∃ hm : 0 < m, x.unpacked = .finite .positive m q hm ∧ Canonical m q := by
  have hpositive := (isUnsigned_iff x).mp hx
  have hrepresentable := representable_unpack x.bits.toBitVec
  generalize hu : x.unpacked = u at hpositive
  change Representable x.unpacked at hrepresentable
  rw [hu] at hrepresentable
  cases u with
  | infinity s =>
    rw [isFinite_of_unpacked_infinity s hu] at hfinite
    contradiction
  | notANumber => exact hpositive.elim
  | zero s =>
    obtain rfl : s = .positive := hpositive
    exact .inl (eq_of_unpacked_eq hu (by simp))
  | finite s m q hm =>
    obtain rfl : s = .positive := hpositive
    exact .inr ⟨m, q, hm, rfl, hrepresentable.1⟩

/-- A number that is not finite is written by its name. -/
theorem magnitude_of_not_isFinite {x : Double} (hx : IsUnsigned x) (hfinite : x.isFinite = false) :
    x.magnitude = "inf" := by
  have hundefined : x.isUndefined = false := hx.not_undefined
  have hparts : x.parts? = none := by rw [parts?, if_neg (by simp [hfinite])]
  rw [magnitude, hparts]
  dsimp only
  rw [if_neg (by simp [hundefined])]

theorem toList_magnitude_zero : (0 : Double).magnitude.toList = ['0'] := by
  decide

/-- A finite number is written as a literal. -/
theorem isLiteralText_magnitude {x : Double} (hx : IsUnsigned x) (hfinite : x.isFinite = true) :
    IsLiteralText x.magnitude.toList := by
  rcases finite_cases hx hfinite with rfl | ⟨m, q, hm, hu, -⟩
  · rw [toList_magnitude_zero]
    exact .whole ⟨by simp, by simp⟩
  · obtain ⟨narrow, hmagnitude, -⟩ := magnitude_of_unpacked _ hu
    rw [hmagnitude]
    exact isLiteralText_positional _

/-- **The text of a finite double reads back.** -/
theorem literalValue_magnitude {x : Double} (hx : IsUnsigned x) (hfinite : x.isFinite = true) :
    literalValue x.magnitude.toList = x := by
  rcases finite_cases hx hfinite with rfl | ⟨m, q, hm, hu, hcanonical⟩
  · rw [toList_magnitude_zero]
    rfl
  · obtain ⟨narrow, hmagnitude, hnarrow⟩ := magnitude_of_unpacked _ hu
    obtain ⟨hrounds, hexponent⟩ := Decimal.shortest_spec hcanonical hnarrow.mpr
    rw [Decimal.value_eq] at hrounds
    rw [hmagnitude, literalValue_positional, eq_of_unpacked_eq hu (by simp)]
    refine congrArg mk ?_
    exact congrArg Float.Model.toBits (hrounds.ofScientific_eq hcanonical (by omega))

/-! ### Numbers with a sign -/

/-- A mask that leaves out the sign bit does not see a change of sign. -/
theorem xor_and_of_and_eq_zero {a b m : UInt64} (h : b &&& m = 0) : (a ^^^ b) &&& m = a &&& m := by
  refine UInt64.toNat_inj.mp ?_
  have h' : b.toNat &&& m.toNat = 0 := by
    rw [← UInt64.toNat_and, h]
    rfl
  rw [UInt64.toNat_and, UInt64.toNat_xor, Nat.and_xor_distrib_right, h', Nat.xor_zero,
    UInt64.toNat_and]

theorem exponentField_neg (x : Double) : (-x).exponentField = x.exponentField := by
  rw [exponentField, bits_neg, UInt64.shiftRight_xor, xor_and_of_and_eq_zero (by decide)]
  rfl

theorem fractionField_neg (x : Double) : (-x).fractionField = x.fractionField :=
  xor_and_of_and_eq_zero (by decide)

theorem isFinite_neg (x : Double) : (-x).isFinite = x.isFinite := by
  rw [isFinite, exponentField_neg, isFinite]

theorem isUndefined_neg (x : Double) : (-x).isUndefined = x.isUndefined := by
  rw [isUndefined, isFinite_neg, fractionField_neg, isUndefined]

theorem parts?_neg (x : Double) :
    (-x).parts? = x.parts?.map fun p => { p with negative := !p.negative } := by
  rw [parts?, parts?, isFinite_neg, exponentField_neg, fractionField_neg, isNegative_neg]
  split
  · dsimp only
    split <;> rfl
  · rfl

/-- The magnitude of a number does not depend on its sign. -/
theorem magnitude_neg (x : Double) : (-x).magnitude = x.magnitude := by
  rw [magnitude, magnitude, parts?_neg, isUndefined_neg]
  cases x.parts? <;> rfl

/-- The negative of a number with a minus sign is a number without one. -/
theorem isUnsigned_neg {x : Double} (hx : x.isNegative = true) (hfinite : x.isFinite = true) :
    IsUnsigned (-x) where
  not_negative := by
    show (-x).isNegative = false
    rw [isNegative_neg, hx]
    rfl
  not_undefined := by
    show (-x).isUndefined = false
    rw [isUndefined_neg, isUndefined, hfinite]
    rfl

/-- A finite number with a minus sign is written as a minus and its magnitude. -/
theorem text_eq_minus {x : Double} (hx : x.isNegative = true) (hfinite : x.isFinite = true) :
    Numeral.text x = "-" ++ x.magnitude := by
  refine if_pos ?_
  show (x.isNegative && !x.isUndefined) = true
  rw [hx, isUndefined, hfinite]
  rfl

/-! ### The number π -/

/-- Only one double is equal to a given number in canonical form. -/
theorem eq_of_compare {u : UnpackedFloat} {m : ℕ} {q : ℤ} {hm : 0 < m}
    (h : UnpackedFloat.compare u (.finite .positive m q hm) = some .eq) :
    u = .finite .positive m q hm := by
  cases u with
  | infinity s => cases s <;> simp [UnpackedFloat.compare] at h
  | notANumber => simp [UnpackedFloat.compare] at h
  | zero s => simp [UnpackedFloat.compare] at h
  | finite s m' q' hm' =>
    cases s with
    | negative => simp [UnpackedFloat.compare] at h
    | positive =>
      have h := Option.some.inj h
      rw [Ordering.then_eq_eq, Int.compare_eq_eq, Nat.compare_eq_eq] at h
      obtain ⟨rfl, rfl⟩ := h
      rfl

theorem unpack_toFloat (x : Double) : x.toFloat.toModel.unpack = x.unpacked :=
  unpack_pack (representable_unpack x.bits.toBitVec)

/-- Only π is taken for π. -/
theorem eq_pi_of_beq {x : Double} (h : (x == Numeral.pi) = true) : x = Numeral.pi := by
  have hcompare : UnpackedFloat.compare x.unpacked pi.unpacked = some .eq := by
    rw [← unpack_toFloat, ← unpack_toFloat]
    exact beq_iff_eq.mp h
  rcases finite_cases (x := pi) ⟨by decide, by decide⟩ (by decide) with hzero | ⟨m, q, hm, hpi, -⟩
  · exact absurd (congrArg bits hzero) (by decide)
  · rw [hpi] at hcompare
    rw [eq_of_unpacked_eq (eq_of_compare hcompare) (by simp)]
    exact (eq_of_unpacked_eq hpi (by simp)).symm

end Double

instance : LawfulNumeral Double where
  isUnsigned_ofScientific n p := Double.isUnsigned_ofScientific n true p
  isUnsigned_natCast n := Double.isUnsigned_ofScientific n false 0
  isUnsigned_zero := ⟨by decide, by decide⟩
  isUnsigned_one := ⟨by decide, by decide⟩
  isUnsigned_pi := ⟨by decide, by decide⟩
  isFinite_pi := by decide
  eq_pi_of_beq _ := Double.eq_pi_of_beq
  isLiteralText_magnitude _ := Double.isLiteralText_magnitude
  literalValue_magnitude _ := Double.literalValue_magnitude
  magnitude_of_not_isFinite _ := Double.magnitude_of_not_isFinite

end Univariate
