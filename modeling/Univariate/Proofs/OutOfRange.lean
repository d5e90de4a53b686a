import Mathlib.Data.Int.Log
import Mathlib.Data.Nat.Digits.Defs
import Univariate.Proofs.Scientific

/-!
# Decimals out of range

A decimal that is too small becomes zero, and one that is too large becomes infinite. Whoever reads
a decimal may tell that from the number of its digits and the place of its point, without computing
anything, and so an exponent of a thousand digits does no harm. That is right if rounding would have
the same result for every decimal beyond the bounds: half of the smallest double is more than
`10 ^ (-324)`, and every number from `10 ^ 309` on rounds to one whose exponent has no bit pattern.

## Main results

* `exists_roundsTo`: every number that is not too small rounds to a number in canonical form.
* `ofScientific_eq_zero`, `ofScientific_eq_infinity`: decimals out of range.
* `Double.ofDecimal_eq_ofScientific`: the shortcut agrees with rounding.
-/

namespace Univariate

open Float.Model Float.Model.UnpackedFloat

/-! ### Numbers that are too small -/

/-- A number that is not above half of the smallest place rounds to zero. -/
theorem Locates.roundWithAccuracy_eq_zero (sign : Sign) {m : ℕ} {e : ℤ} {accuracy : Accuracy}
    {y : ℚ} (h : Locates (.ofMantissaAndAccuracy m accuracy) (y * 2 ^ (-1074 - e)))
    (he : e ≤ Format.binary64.targetExponent (totalExponent m e)) (hy : y ≤ 1 / 2) :
    roundWithAccuracy Format.binary64 sign m e accuracy = .zero sign := by
  have hlow := h.mantissa_le
  have hhigh := h.lt_mantissa_add_one
  rw [mantissa_ofMantissaAndAccuracy] at hlow hhigh
  have hpos : (0 : ℚ) < 2 ^ (-1074 - e) := by positivity
  have hy₀ : 0 ≤ y := nonneg_of_mul_nonneg_left ((Nat.cast_nonneg m).trans hlow) hpos
  have hT : Format.binary64.targetExponent (totalExponent m e) = -1074 := by
    rw [targetExponent_binary64, totalExponent] at he ⊢
    by_cases hm : m = 0
    · rw [hm, Nat.log2_zero] at he ⊢
      omega
    · have hone : y < 2 ^ 0 := by linarith
      have hlog := lt_of_two_zpow_le ((two_zpow_bounds hlow hhigh).2 hm) hone
      omega
  obtain ⟨em, hfirst, hshifted⟩ := h.exists_shiftToTargetExponent hT (hT ▸ he)
  rw [sub_self, zpow_zero, mul_one] at hshifted
  have hround : em.roundedMantissa = 0 :=
    hshifted.roundedMantissa_eq (by norm_num; linarith) (by simpa using hy) (by simp)
  rw [roundWithAccuracy, hfirst]
  simp only [hround, shiftToTargetExponent_of_lt (Nat.two_pow_pos 53) le_rfl, dite_true]

/-- A quotient that is not above half of the smallest place rounds to zero. -/
theorem div_eq_zero {m₁ m₂ : ℕ} {e₁ e₂ : ℤ} (h₁ : 0 < m₁) (h₂ : 0 < m₂)
    (hle : (m₁ : ℚ) / m₂ * 2 ^ (e₁ - e₂) ≤ 2 ^ (-1075 : ℤ)) :
    div Format.binary64 (.finite .positive m₁ e₁ h₁) (.finite .positive m₂ e₂ h₂) =
      .zero .positive := by
  obtain ⟨m, T, accuracy, hcore, hlocates, he⟩ := locates_divCore e₁ e₂ (-1074) h₁ h₂
  have hsign : Sign.positive / Sign.positive = Sign.positive := rfl
  rw [UnpackedFloat.div, hcore, hsign]
  refine hlocates.roundWithAccuracy_eq_zero _ he ?_
  have hunit : (0 : ℚ) ≤ 2 ^ (1074 : ℤ) := by positivity
  calc (m₁ : ℚ) / m₂ * 2 ^ (e₁ - e₂ - -1074)
      = m₁ / m₂ * 2 ^ (e₁ - e₂) * 2 ^ (1074 : ℤ) := by
        rw [sub_neg_eq_add, zpow_add₀ two_ne_zero, mul_assoc]
    _ ≤ 2 ^ (-1075 : ℤ) * 2 ^ (1074 : ℤ) := mul_le_mul_of_nonneg_right hle hunit
    _ = 2 ^ (-1075 + 1074 : ℤ) := (zpow_add₀ two_ne_zero _ _).symm
    _ = 1 / 2 := by norm_num

theorem model_ofScientific_eq_zero {n p : ℕ} (hp : 0 < p)
    (hle : (n : ℚ) / 10 ^ p ≤ 2 ^ (-1075 : ℤ)) :
    UnpackedFloat.ofScientific Format.binary64 n (-(p : ℤ)) = .zero .positive := by
  rw [UnpackedFloat.ofScientific]
  split
  · rfl
  · have hrange : (2 : ℤ) ^ Format.binary64.exponentBits = 2048 := rfl
    have hplaces : (-(-(p : ℤ))).toNat = p := by omega
    rw [hrange, if_neg (by omega), if_neg (show ¬ 0 ≤ -(p : ℤ) by omega)]
    split
    · rfl
    · simp only [hplaces]
      refine div_eq_zero _ _ ?_
      rwa [sub_self, zpow_zero, mul_one, Nat.cast_pow, Nat.cast_ofNat]

/-- A decimal with few places is not too small, unless it is zero. -/
theorem eq_zero_of_le {n p : ℕ} (hp : p ≤ 22) (hle : (n : ℚ) / 10 ^ p ≤ 2 ^ (-1075 : ℤ)) :
    n = 0 := by
  by_contra hn
  have hone : (1 : ℚ) ≤ n := by exact_mod_cast Nat.pos_of_ne_zero hn
  have hten : (0 : ℚ) < 10 ^ p := by positivity
  have hplaces : (10 : ℚ) ^ p ≤ 10 ^ 22 := pow_le_pow_right₀ (by norm_num) hp
  have hsmall : (2 : ℚ) ^ (-1075 : ℤ) ≤ 2 ^ (-74 : ℤ) :=
    zpow_le_zpow_right₀ one_lt_two.le (by decide)
  have hle := (div_le_iff₀ hten).mp (hle.trans hsmall)
  norm_num at hle
  linarith

/-- **A decimal that is too small becomes zero.** -/
theorem ofScientific_eq_zero {n p : ℕ} (hle : (n : ℚ) / 10 ^ p ≤ 2 ^ (-1075 : ℤ)) :
    (Float.ofScientific n true p).toModel = Float.Model.pack (.zero .positive) := by
  rw [Float.ofScientific]
  split
  · rename_i hsmall
    obtain rfl := eq_zero_of_le hsmall.2 hle
    obtain ⟨m, e, hm, hten, -⟩ := (isPowerOfTen_table ⟨p, by omega⟩).exists_eq
    rw [if_pos rfl]
    show Float.Model.pack (div Format.binary64 (0 : ℕ).toUInt64.toFloat.toModel.unpack
      (Float.exactlyRepresentablePowersOfTen[(⟨p, by omega⟩ : Fin 23)]).toModel.unpack) = _
    rw [hten]
    rfl
  · rw [if_pos rfl]
    show Float.Model.pack (UnpackedFloat.ofScientific Format.binary64 n (Int.negOfNat p)) = _
    rw [Int.negOfNat_eq, Int.ofNat_eq_natCast]
    by_cases hp : p = 0
    · obtain rfl := eq_zero_of_le (hp.le.trans (by decide)) hle
      rw [hp]
      rfl
    · rw [model_ofScientific_eq_zero (Nat.pos_of_ne_zero hp) hle]

/-! ### Numbers that are too large -/

/-- The natural number to which a number is rounded. -/
theorem exists_nearest {y : ℚ} (hy : 0 ≤ y) :
    ∃ n : ℕ, (n : ℚ) - 1 / 2 ≤ y ∧ y ≤ n + 1 / 2 ∧
      (n % 2 = 1 → (n : ℚ) - 1 / 2 < y ∧ y < n + 1 / 2) := by
  have hle := Nat.floor_le hy
  have hlt := Nat.lt_floor_add_one y
  generalize ⌊y⌋₊ = k at hle hlt
  rcases lt_trichotomy y (k + 1 / 2) with h | h | h
  · exact ⟨k, by linarith, h.le, fun _ => ⟨by linarith, h⟩⟩
  · -- of the two nearest numbers, it is the even one
    by_cases heven : k % 2 = 0
    · exact ⟨k, by linarith, h.le, fun hodd => by omega⟩
    · refine ⟨k + 1, ?_, ?_, fun hodd => by omega⟩
      · push_cast
        linarith
      · push_cast
        linarith
  · refine ⟨k + 1, ?_, ?_, fun _ => ⟨?_, ?_⟩⟩
    all_goals push_cast; linarith

/-- **Every number that is not too small** lies in the interval of a number in canonical form. -/
theorem exists_roundsTo {x : ℚ} {q : ℤ} (hq : -1074 ≤ q) (hlow : (2 : ℚ) ^ (q + 52) ≤ x)
    (hhigh : x < 2 ^ (q + 53)) :
    ∃ m q', Canonical m q' ∧ q ≤ q' ∧ RoundsTo m q' (x * 2 ^ (-q')) := by
  have hscale : ∀ n : ℤ, (2 : ℚ) ^ (q + n) * 2 ^ (-q) = 2 ^ n := by
    intro n
    rw [← zpow_add₀ two_ne_zero]
    congr 1
    omega
  have hpos : (0 : ℚ) < 2 ^ (-q) := by positivity
  obtain ⟨y, hy⟩ : ∃ y, y = x * 2 ^ (-q) := ⟨_, rfl⟩
  have hlow : 2 ^ 52 ≤ y := by
    have := mul_le_mul_of_nonneg_right hlow hpos.le
    rwa [hscale, ← hy] at this
  have hhigh : y < 2 ^ 53 := by
    have := mul_lt_mul_of_pos_right hhigh hpos
    rwa [hscale, ← hy] at this
  obtain ⟨n, hn, hn', hodd⟩ := exists_nearest (le_trans (by positivity) hlow)
  have hmin : 2 ^ 52 ≤ n := by
    have : (2 : ℚ) ^ 52 < n + 1 := by linarith
    exact Nat.lt_succ_iff.mp (by exact_mod_cast this)
  have hmax : n ≤ 2 ^ 53 := by
    have : (n : ℚ) < 2 ^ 53 + 1 := by linarith
    exact Nat.lt_succ_iff.mp (by exact_mod_cast this)
  obtain hlt | hlast := hmax.lt_or_eq
  · refine ⟨n, q, ⟨by omega, hlt, hq, .inl hmin⟩, le_rfl, ?_⟩
    rw [← hy]
    refine ⟨hn, hn', fun hnarrow => ?_, hodd⟩
    rw [hnarrow.1]
    push_cast
    linarith
  · -- rounded up to a power of two, it has one place less
    refine ⟨2 ^ 52, q + 1, ⟨by norm_num, by norm_num, by omega, .inl le_rfl⟩, by omega, ?_⟩
    have hhalf : x * 2 ^ (-(q + 1)) = y / 2 := by
      rw [hy, neg_add, zpow_add₀ two_ne_zero, zpow_neg_one, ← mul_assoc, div_eq_mul_inv]
    have hn : (2 : ℚ) ^ 53 - 1 / 2 ≤ y := by
      rw [hlast] at hn
      exact_mod_cast hn
    rw [hhalf]
    refine ⟨?_, ?_, fun _ => ?_, fun hodd => absurd hodd (by decide)⟩
    all_goals push_cast; linarith

/-- A number with too large an exponent has the bit pattern of infinity. -/
theorem pack_eq_packedInfinity (s : Sign) {m : ℕ} {q : ℤ} (hm : 0 < m) (hq : 971 < q) :
    UnpackedFloat.pack Format.binary64 (.finite s m q hm) = packedInfinity Format.binary64 s := by
  have hexponent : q + (Format.binary64.exponentBias : ℤ) + (52 : ℕ) = q + 1075 := by
    rw [add_assoc]
    rfl
  rw [UnpackedFloat.pack]
  dsimp only
  rw [hexponent]
  refine if_pos ?_
  show 2 ^ 11 ≤ (q + 1075).toNat + 1
  omega

/-- **A decimal that is too large becomes infinite.** -/
theorem ofScientific_eq_infinity {n p : ℕ} (hle : 2 ^ (1024 : ℤ) ≤ (n : ℚ) / 10 ^ p) :
    (Float.ofScientific n true p).toModel = Float.Model.pack (.infinity .positive) := by
  have hx : (0 : ℚ) < n / 10 ^ p := lt_of_lt_of_le (by positivity) hle
  have hlog : 1024 ≤ Int.log 2 ((n : ℚ) / 10 ^ p) :=
    (Int.zpow_le_iff_le_log one_lt_two hx).mp (by rwa [Nat.cast_ofNat])
  have hlow := Int.zpow_log_le_self one_lt_two hx
  have hhigh := Int.lt_zpow_succ_log_self one_lt_two ((n : ℚ) / 10 ^ p)
  generalize Int.log 2 ((n : ℚ) / 10 ^ p) = k at hlog hlow hhigh
  obtain ⟨m, q, hcanonical, hq, hrounds⟩ :=
    exists_roundsTo (x := (n : ℚ) / 10 ^ p) (q := k - 52) (by omega)
      (by rwa [sub_add_cancel]) (by rwa [show k - 52 + 53 = k + 1 by omega])
  have hbeyond : 971 < q := by omega
  have hp : p ≤ n.log2 := by
    have hten : (0 : ℚ) < 10 ^ p := by positivity
    have hone : (1 : ℚ) ≤ 2 ^ (1024 : ℤ) := one_le_zpow₀ one_lt_two.le (by decide)
    have hn : (10 : ℚ) ^ p ≤ n := by simpa using (le_div_iff₀ hten).mp (hone.trans hle)
    have hn : 10 ^ p ≤ n := by exact_mod_cast hn
    have hpos : 0 < 10 ^ p := Nat.pow_pos (by decide)
    exact (Nat.le_log2 (by omega)).mpr ((Nat.pow_le_pow_left (by decide) p).trans hn)
  rw [hrounds.ofScientific_eq hcanonical (by omega)]
  simp only [Float.Model.pack, pack_eq_packedInfinity .positive hcanonical.pos hbeyond]
  rfl

/-! ### No decimal places -/

/-- A number that is exact is not changed by a division by one, nor by a multiplication. -/
theorem div_eq_mul_of_eq_one {n k m : ℕ} {e : ℤ} (h : Canonical (n * 2 ^ k) (-k)) (hm : 0 < m)
    (hone : (m : ℚ) * 2 ^ e = 1) :
    let x : UnpackedFloat := .finite .positive (n * 2 ^ k) (-k) h.pos
    div Format.binary64 x (.finite .positive m e hm) =
      mul Format.binary64 x (.finite .positive m e hm) := by
  intro x
  have hdiv : ((n * 2 ^ k : ℕ) : ℚ) / m * 2 ^ (-(k : ℤ) - e - -k) = (n * 2 ^ k : ℕ) := by
    rw [show -(k : ℤ) - e - -k = -e by omega, zpow_neg, ← div_eq_mul_inv, div_div, hone, div_one]
  have hmul : ((n * 2 ^ k : ℕ) : ℚ) * m * 2 ^ (-(k : ℤ) + e - -k) = (n * 2 ^ k : ℕ) := by
    rw [show -(k : ℤ) + e - -k = e by omega, mul_assoc, hone, mul_one]
  have hdigits : 52 ≤ (n * 2 ^ k * m).log2 := by
    have hnormal : 2 ^ 52 ≤ n * 2 ^ k := by
      refine h.normal.resolve_right fun hmin => ?_
      have hn : 0 < n := Nat.pos_of_mul_pos_right h.pos
      have hle : 2 ^ 53 ≤ 2 ^ k := Nat.pow_le_pow_right (by decide) (by omega)
      exact absurd (hle.trans (Nat.le_mul_of_pos_left _ hn)) (Nat.not_le.mpr h.lt)
    have hle := hnormal.trans (Nat.le_mul_of_pos_right (n * 2 ^ k) hm)
    exact (Nat.le_log2 (by omega)).mpr hle
  rw [RoundsTo.div_eq h.pos hm (hdiv.symm ▸ RoundsTo.refl _ _) h,
    RoundsTo.mul_eq h.pos hm (hmul.symm ▸ RoundsTo.refl _ _) h]
  rw [targetExponent_binary64, totalExponent]
  omega

theorem ofScientific_zero_places (n : ℕ) :
    Float.ofScientific n true 0 = Float.ofScientific n false 0 := by
  rw [Float.ofScientific, Float.ofScientific]
  split
  · rename_i hsmall
    obtain ⟨m, e, hm, hten, hvalue⟩ := (isPowerOfTen_table 0).exists_eq
    have hone : (m : ℚ) * 2 ^ e = 1 := by simpa using hvalue
    suffices h : div Format.binary64 n.toUInt64.toFloat.toModel.unpack
        (Float.exactlyRepresentablePowersOfTen[(0 : Fin 23)]).toModel.unpack =
          mul Format.binary64 n.toUInt64.toFloat.toModel.unpack
            (Float.exactlyRepresentablePowersOfTen[(0 : Fin 23)]).toModel.unpack from
      congrArg Float.ofModel (congrArg Float.Model.pack h)
    rw [hten]
    obtain rfl | hn := n.eq_zero_or_pos
    · rfl
    · obtain ⟨k, hk, hleft⟩ := exists_unpack_toFloat_eq hn hsmall.1
      rw [hleft]
      exact div_eq_mul_of_eq_one hk hm hone
  · rfl

/-! ### Reading decimals -/

/-- A number has as many digits as its size tells. -/
theorem ten_pow_length_toDigits {n : ℕ} (hn : 0 < n) :
    10 ^ ((Nat.toDigits 10 n).length - 1) ≤ n ∧ n < 10 ^ (Nat.toDigits 10 n).length := by
  induction n using Nat.strongRecOn with
  | ind n ih =>
    by_cases hlt : n < 10
    · rw [Nat.toDigits_of_lt_base hlt]
      simpa using ⟨hn, hlt⟩
    · rw [Nat.toDigits_of_base_le (by decide) (by omega), List.length_append,
        List.length_singleton, Nat.add_sub_cancel]
      obtain ⟨hle, hlt'⟩ := ih (n / 10) (by omega) (by omega)
      have hlength : 0 < (Nat.toDigits 10 (n / 10)).length :=
        List.length_pos_iff.mpr Nat.toDigits_ne_nil
      have hsplit : 10 ^ (Nat.toDigits 10 (n / 10)).length =
          10 ^ ((Nat.toDigits 10 (n / 10)).length - 1) * 10 := by
        rw [← pow_succ, Nat.sub_add_cancel hlength]
      rw [pow_succ]
      omega

namespace Double

/-- **The shortcut agrees with rounding.** -/
theorem ofDecimal_eq_ofScientific (n p : ℕ) :
    ofDecimal ⟨n, -(p : ℤ)⟩ = OfScientific.ofScientific n true p := by
  have hzero : (n : ℚ) / 10 ^ p ≤ 2 ^ (-1075 : ℤ) →
      (0 : Double) = OfScientific.ofScientific n true p := fun hle =>
    congrArg mk (congrArg Float.Model.toBits (ofScientific_eq_zero hle)).symm
  have hinfinity : 2 ^ (1024 : ℤ) ≤ (n : ℚ) / 10 ^ p →
      infinity = OfScientific.ofScientific n true p := fun hle =>
    congrArg mk (congrArg Float.Model.toBits (ofScientific_eq_infinity hle)).symm
  rw [ofDecimal]
  dsimp only
  split
  · rename_i hn
    refine hzero ?_
    rw [hn, Nat.cast_zero, zero_div]
    positivity
  · rename_i hn
    obtain ⟨hlow, hhigh⟩ := ten_pow_length_toDigits (Nat.pos_of_ne_zero hn)
    have hten : (0 : ℚ) < 10 ^ p := by positivity
    split
    · rename_i hsmall
      have hle : n * 2 ^ 1075 ≤ 10 ^ p :=
        calc n * 2 ^ 1075 ≤ 10 ^ (Nat.toDigits 10 n).length * 10 ^ 324 :=
              Nat.mul_le_mul hhigh.le (by decide +kernel)
          _ = 10 ^ ((Nat.toDigits 10 n).length + 324) := (pow_add ..).symm
          _ ≤ 10 ^ p := Nat.pow_le_pow_right (by decide) (by omega)
      refine hzero ((div_le_iff₀ hten).mpr ?_)
      rw [zpow_neg, inv_mul_eq_div, le_div_iff₀ (by positivity), zpow_ofNat]
      exact_mod_cast hle
    · split
      · rename_i hlarge
        have hle : 2 ^ 1024 * 10 ^ p ≤ n :=
          calc 2 ^ 1024 * 10 ^ p ≤ 10 ^ 309 * 10 ^ p :=
                Nat.mul_le_mul_right _ (by decide +kernel)
            _ = 10 ^ (309 + p) := (pow_add ..).symm
            _ ≤ 10 ^ ((Nat.toDigits 10 n).length - 1) :=
              Nat.pow_le_pow_right (by decide) (by omega)
            _ ≤ n := hlow
        refine hinfinity ((le_div_iff₀ hten).mpr ?_)
        rw [zpow_ofNat]
        exact_mod_cast hle
      · obtain rfl | hp := p.eq_zero_or_pos
        · exact congrArg (fun x : Float => mk x.toBits) (ofScientific_zero_places n).symm
        · rw [decide_eq_true (by omega), Int.natAbs_neg, Int.natAbs_natCast]

end Double

end Univariate
