import Mathlib.Tactic.FieldSimp
import Univariate.Proofs.Packing

/-!
# Decimals as doubles

A decimal becomes a `Float` by one division or one multiplication, whose result is rounded once: by
operations on two numbers that are exact if the digits and the power of ten are small, and otherwise
by the model's own operations on natural numbers of any size. Both ways give the number in whose
interval the decimal lies.

## Main definitions

* `IsPowerOfTen`: whether an unpacked number is a given power of ten.

## Main results

* `isPositive_ofScientific`: a decimal without a sign becomes a number without a sign.
* `RoundsTo.ofScientific_eq`: a decimal becomes the number in whose interval it lies.
-/

namespace Univariate

open Float.Model Float.Model.UnpackedFloat

/-! ### Numbers without a sign -/

theorem isPositive_roundWithAccuracy (m : ℕ) (e : ℤ) (accuracy : Accuracy) :
    IsPositive (roundWithAccuracy Format.binary64 .positive m e accuracy) := by
  rw [roundWithAccuracy]
  dsimp only
  split <;> rfl

theorem isPositive_div {u : UnpackedFloat} (hu : IsPositive u) {m : ℕ} (e : ℤ) (hm : 0 < m) :
    IsPositive (div Format.binary64 u (.finite .positive m e hm)) := by
  cases u with
  | infinity s => obtain rfl : s = .positive := hu; rfl
  | notANumber => exact hu.elim
  | zero s => obtain rfl : s = .positive := hu; rfl
  | finite s m' e' hm' =>
    obtain rfl : s = .positive := hu
    exact isPositive_roundWithAccuracy _ _ _

theorem isPositive_mul {u : UnpackedFloat} (hu : IsPositive u) {m : ℕ} (e : ℤ) (hm : 0 < m) :
    IsPositive (mul Format.binary64 u (.finite .positive m e hm)) := by
  cases u with
  | infinity s => obtain rfl : s = .positive := hu; rfl
  | notANumber => exact hu.elim
  | zero s => obtain rfl : s = .positive := hu; rfl
  | finite s m' e' hm' =>
    obtain rfl : s = .positive := hu
    exact isPositive_roundWithAccuracy _ _ _

theorem isPositive_ofNat (n : ℕ) : IsPositive (UnpackedFloat.ofNat Format.binary64 n) := by
  rw [UnpackedFloat.ofNat, UnpackedFloat.ofInt, UnpackedFloat.normalize]
  split
  · rename_i h
    have := compare_lt_iff_lt.mp h
    omega
  · rfl
  · exact isPositive_roundWithAccuracy _ _ _

theorem isPositive_model_ofScientific (m : ℕ) (e : ℤ) :
    IsPositive (UnpackedFloat.ofScientific Format.binary64 m e) := by
  rw [UnpackedFloat.ofScientific]
  split
  · rfl
  · split
    · rfl
    · split
      · rfl
      · split
        · exact isPositive_roundWithAccuracy _ _ _
        · exact isPositive_roundWithAccuracy _ _ _

/-! ### Powers of ten -/

/-- Whether an unpacked number is a given power of ten. -/
def IsPowerOfTen (p : ℕ) : UnpackedFloat → Prop
  | .finite .positive m e _ => m * 2 ^ e.toNat = 10 ^ p * 2 ^ (-e).toNat
  | _ => False

instance (p : ℕ) : DecidablePred (IsPowerOfTen p) := fun u => by
  unfold IsPowerOfTen
  split <;> infer_instance

/-- The powers of ten that are looked up. -/
theorem isPowerOfTen_table (p : Fin 23) :
    IsPowerOfTen p (Float.exactlyRepresentablePowersOfTen[p]).toModel.unpack := by
  revert p
  decide +kernel

theorem IsPowerOfTen.exists_eq {p : ℕ} {u : UnpackedFloat} (h : IsPowerOfTen p u) :
    ∃ m e, ∃ hm : 0 < m, u = .finite .positive m e hm ∧ (m : ℚ) * 2 ^ e = 10 ^ p := by
  cases u with
  | infinity s => exact h.elim
  | notANumber => exact h.elim
  | zero s => exact h.elim
  | finite s m e hm =>
    cases s with
    | negative => exact h.elim
    | positive =>
      refine ⟨m, e, hm, rfl, ?_⟩
      have h : (m : ℚ) * 2 ^ e.toNat = 10 ^ p * 2 ^ (-e).toNat := by exact_mod_cast h
      have hexponent : e = (e.toNat : ℤ) - ((-e).toNat : ℤ) := by omega
      rw [hexponent, zpow_sub₀ two_ne_zero, zpow_natCast, zpow_natCast, mul_div_assoc', h,
        mul_div_cancel_right₀ _ (by positivity)]

/-- **A decimal without a sign becomes a number without a sign.** -/
theorem isPositive_ofScientific (n : ℕ) (negativeExponent : Bool) (p : ℕ) :
    IsPositive (Float.ofScientific n negativeExponent p).toModel.unpack := by
  rw [Float.ofScientific]
  split
  · rename_i h
    obtain ⟨m, e, hm, hten, -⟩ := (isPowerOfTen_table ⟨p, by omega⟩).exists_eq
    have hleft : IsPositive n.toUInt64.toFloat.toModel.unpack :=
      isPositive_unpack_pack (isPositive_ofNat n.toUInt64.toNat)
    cases negativeExponent with
    | true =>
      show IsPositive (UnpackedFloat.unpack Format.binary64 (UnpackedFloat.pack Format.binary64
        (div Format.binary64 n.toUInt64.toFloat.toModel.unpack
          (Float.exactlyRepresentablePowersOfTen[(⟨p, by omega⟩ : Fin 23)]).toModel.unpack)))
      rw [hten]
      exact isPositive_unpack_pack (isPositive_div hleft e hm)
    | false =>
      show IsPositive (UnpackedFloat.unpack Format.binary64 (UnpackedFloat.pack Format.binary64
        (mul Format.binary64 n.toUInt64.toFloat.toModel.unpack
          (Float.exactlyRepresentablePowersOfTen[(⟨p, by omega⟩ : Fin 23)]).toModel.unpack)))
      rw [hten]
      exact isPositive_unpack_pack (isPositive_mul hleft e hm)
  · exact isPositive_unpack_pack (isPositive_model_ofScientific n _)

/-! ### Rounding decimals -/

theorem RoundsTo.refl (m : ℕ) (q : ℤ) : RoundsTo m q m where
  low := by linarith
  high := by linarith
  narrow _ := by linarith
  odd _ := ⟨by linarith, by linarith⟩

/-- A natural number of at most fifty-three binary digits is exact. -/
theorem exists_ofNat_eq {n : ℕ} (hn : 0 < n) (hlt : n < 2 ^ 53) :
    ∃ (k : ℕ) (h : Canonical (n * 2 ^ k) (-k)),
      UnpackedFloat.ofNat Format.binary64 n = .finite .positive (n * 2 ^ k) (-k) h.pos := by
  have hlog : n.log2 < 53 := (Nat.log2_lt hn.ne').mpr hlt
  have hsize : n.log2 + (52 - n.log2) = 52 := by omega
  have hcanonical : Canonical (n * 2 ^ (52 - n.log2)) (-(52 - n.log2 : ℕ)) := by
    refine ⟨Nat.mul_pos hn (Nat.two_pow_pos _), ?_, by omega, .inl ?_⟩
    · calc n * 2 ^ (52 - n.log2)
          < 2 ^ (n.log2 + 1) * 2 ^ (52 - n.log2) :=
            Nat.mul_lt_mul_of_pos_right Nat.lt_log2_self (Nat.two_pow_pos _)
        _ = 2 ^ 53 := by rw [← pow_add]; congr 1; omega
    · calc 2 ^ 52 = 2 ^ n.log2 * 2 ^ (52 - n.log2) := by rw [← pow_add, hsize]
        _ ≤ n * 2 ^ (52 - n.log2) := Nat.mul_le_mul_right _ (Nat.log2_self_le hn.ne')
  refine ⟨52 - n.log2, hcanonical, ?_⟩
  have hcompare : compare (n : ℤ) 0 = .gt := compare_gt_iff_gt.mpr (by omega)
  have hshift : (0 - Format.binary64.targetExponent (totalExponent n 0)).toNat = 52 - n.log2 := by
    rw [targetExponent_binary64, totalExponent]
    omega
  rw [UnpackedFloat.ofNat, UnpackedFloat.ofInt, UnpackedFloat.normalize, hcompare]
  dsimp only
  rw [Int.toNat_natCast, UnpackedFloat.round, decreaseExponent, hshift]
  dsimp only
  rw [Nat.shiftLeft_eq]
  have hexponent : (0 : ℤ) - (52 - n.log2 : ℕ) = -(52 - n.log2 : ℕ) := zero_sub _
  rw [hexponent]
  refine (RoundsTo.refl _ _).roundWithAccuracy_eq hcanonical _ (locates_exact ?_) ?_
  · rw [sub_self, zpow_zero, mul_one]
  · have hdigits := log2_add_le_log2_shiftLeft hn.ne' (52 - n.log2)
    rw [Nat.shiftLeft_eq] at hdigits
    rw [targetExponent_binary64, totalExponent]
    omega

/-- Such a number is exact as a `Float`, too. -/
theorem exists_unpack_toFloat_eq {n : ℕ} (hn : 0 < n) (hlt : n < 2 ^ 53) :
    ∃ (k : ℕ) (h : Canonical (n * 2 ^ k) (-k)),
      n.toUInt64.toFloat.toModel.unpack = .finite .positive (n * 2 ^ k) (-k) h.pos := by
  obtain ⟨k, hk, hofNat⟩ := exists_ofNat_eq hn hlt
  refine ⟨k, hk, ?_⟩
  have hcast : n.toUInt64.toNat = n := by
    rw [Nat.toUInt64, UInt64.toNat_ofNat']
    omega
  have hmodel : n.toUInt64.toFloat.toModel.unpack =
      UnpackedFloat.unpack Format.binary64 (UnpackedFloat.pack Format.binary64
        (UnpackedFloat.ofNat Format.binary64 n.toUInt64.toNat)) := rfl
  rw [hmodel, hcast, hofNat]
  exact unpack_pack ⟨hk, by omega⟩

theorem RoundsTo.pos {m : ℕ} {q : ℤ} {y : ℚ} (hy : RoundsTo m q y) (hcanonical : Canonical m q) :
    0 < y := by
  have hm : (1 : ℚ) ≤ m := by exact_mod_cast hcanonical.pos
  linarith [hy.low]

/-- The model rounds a decimal to the number in whose interval it lies. -/
theorem RoundsTo.model_ofScientific_eq {m : ℕ} {q : ℤ} {n p : ℕ} (hn : 0 < n)
    (hy : RoundsTo m q (n / 10 ^ p * 2 ^ (-q))) (hcanonical : Canonical m q)
    (hp : p ≤ 2048 + n.log2) :
    UnpackedFloat.ofScientific Format.binary64 n (-(p : ℤ)) =
      .finite .positive m q hcanonical.pos := by
  have hrange : (2 : ℤ) ^ Format.binary64.exponentBits = 2048 := rfl
  rw [UnpackedFloat.ofScientific, dif_neg hn.ne', hrange, if_neg (by omega), if_neg (by omega)]
  split
  · -- there are no decimal places
    obtain rfl : p = 0 := by omega
    have hscale : ((n <<< 53 : ℕ) : ℚ) * (1 : ℕ) * 2 ^ (-53 + 0 - q) = n / 10 ^ 0 * 2 ^ (-q) := by
      have hcast : ((n <<< 53 : ℕ) : ℚ) = n * 2 ^ 53 := by
        rw [Nat.shiftLeft_eq]
        norm_cast
      have hexponent : (-53 + 0 - q : ℤ) = -(53 : ℕ) + -q := by omega
      rw [hcast, hexponent, zpow_add₀ two_ne_zero, zpow_neg, zpow_natCast, Nat.cast_one, mul_one,
        pow_zero, div_one]
      field_simp
    refine RoundsTo.mul_eq _ _ ?_ hcanonical ?_
    · exact hscale.symm ▸ hy
    · have hdigits := log2_add_le_log2_shiftLeft hn.ne' 53
      show -53 + 0 ≤ Format.binary64.targetExponent (totalExponent (n <<< 53 * 1) (-53 + 0))
      rw [mul_one, targetExponent_binary64, totalExponent]
      omega
  · have hplaces : (-(-(p : ℤ))).toNat = p := by omega
    simp only [hplaces]
    have hscale : (n : ℚ) / (10 ^ p : ℕ) * 2 ^ (0 - 0 - q) = n / 10 ^ p * 2 ^ (-q) := by
      rw [Nat.cast_pow, Nat.cast_ofNat, sub_self, zero_sub]
    refine RoundsTo.div_eq _ _ ?_ hcanonical
    rw [hscale]
    exact hy

/-- **A decimal becomes the number in whose interval it lies.** -/
theorem RoundsTo.ofScientific_eq {m : ℕ} {q : ℤ} {n p : ℕ}
    (hy : RoundsTo m q (n / 10 ^ p * 2 ^ (-q))) (hcanonical : Canonical m q)
    (hp : p ≤ 2048 + n.log2) :
    (Float.ofScientific n true p).toModel =
      Float.Model.pack (.finite .positive m q hcanonical.pos) := by
  have hn : 0 < n := by
    refine Nat.pos_of_ne_zero ?_
    intro hzero
    have hpos := hy.pos hcanonical
    rw [hzero, Nat.cast_zero, zero_div, zero_mul] at hpos
    exact lt_irrefl _ hpos
  rw [Float.ofScientific]
  split
  · -- both operands of the division are exact
    rename_i h
    obtain ⟨hlt, hp⟩ := h
    obtain ⟨k, hk, hleft⟩ := exists_unpack_toFloat_eq hn hlt
    obtain ⟨m', e', hm', hten, hvalue⟩ := (isPowerOfTen_table ⟨p, by omega⟩).exists_eq
    rw [if_pos rfl]
    show Float.Model.pack (div Format.binary64 n.toUInt64.toFloat.toModel.unpack
      (Float.exactlyRepresentablePowersOfTen[(⟨p, by omega⟩ : Fin 23)]).toModel.unpack) = _
    rw [hleft, hten]
    congr 1
    have hscale : ((n * 2 ^ k : ℕ) : ℚ) / m' * 2 ^ (-(k : ℤ) - e' - q) = n / 10 ^ p * 2 ^ (-q) := by
      have hm' : (m' : ℚ) ≠ 0 := by exact_mod_cast hm'.ne'
      have hcast : ((n * 2 ^ k : ℕ) : ℚ) = n * 2 ^ k := by norm_cast
      rw [hcast, ← hvalue, sub_eq_add_neg _ q, zpow_add₀ two_ne_zero, zpow_sub₀ two_ne_zero,
        zpow_neg, zpow_natCast]
      field_simp
    refine RoundsTo.div_eq _ _ ?_ hcanonical
    rw [hscale]
    exact hy
  · -- the model computes with natural numbers
    have hmodel : (Float.ofModel (Float.Model.ofScientific n (Int.negOfNat p))).toModel =
        Float.Model.pack (UnpackedFloat.ofScientific Format.binary64 n (Int.negOfNat p)) := rfl
    rw [if_pos rfl, hmodel, Int.negOfNat_eq, Int.ofNat_eq_natCast,
      hy.model_ofScientific_eq hn hcanonical hp]

end Univariate
