import Mathlib

/-!
# Rounding to nearest

`Float` computes with a model of binary floating point that rounds to the nearest number, ties to
even. What that means for the numbers that round to a given one is shown here: if the exact result
of an operation lies in the interval that belongs to a number in canonical form, the model rounds it
to that number.

The model approximates an exact result from below, by a mantissa, a bit for half of the last place,
and a bit that tells whether anything is left. `Locates` says in one place what these know about the
exact result. It is preserved when the mantissa is shifted to the right, so it holds at the place
where the result is rounded.

## Main definitions

* `Locates`: what an extended mantissa knows about a number.
* `Canonical`: the form of the finite numbers other than zero.
* `RoundsTo`: the interval of the numbers that round to a given one, in units of its last place.

## Main results

* `Locates.roundedMantissa_eq`: a located number rounds to the nearest natural number.
* `RoundsTo.roundWithAccuracy_eq`: the numbers of the interval round to the number it belongs to.
-/

namespace Univariate

open Float.Model Float.Model.UnpackedFloat

/-! ### Located numbers -/

/-- What an extended mantissa knows about a number: it is the mantissa, or up to half of a unit
above it, or just half a unit above it, or more than that and less than a whole unit. -/
inductive Locates : ExtendedMantissa → ℚ → Prop
  | exact {m : ℕ} {x : ℚ} : x = m → Locates ⟨m, false, false⟩ x
  | belowHalf {m : ℕ} {x : ℚ} : m < x → x < m + 1 / 2 → Locates ⟨m, false, true⟩ x
  | half {m : ℕ} {x : ℚ} : x = m + 1 / 2 → Locates ⟨m, true, false⟩ x
  | aboveHalf {m : ℕ} {x : ℚ} : m + 1 / 2 < x → x < m + 1 → Locates ⟨m, true, true⟩ x

theorem Locates.mantissa_le {em : ExtendedMantissa} {x : ℚ} (h : Locates em x) :
    (em.mantissa : ℚ) ≤ x := by
  cases h <;> dsimp only <;> linarith

theorem Locates.lt_mantissa_add_one {em : ExtendedMantissa} {x : ℚ} (h : Locates em x) :
    x < em.mantissa + 1 := by
  cases h <;> dsimp only <;> linarith

/-- Shifting to the right halves the number. -/
theorem Locates.shiftRightOne {em : ExtendedMantissa} {x : ℚ} (h : Locates em x) :
    Locates em.shiftRightOne (x / 2) := by
  obtain ⟨m, r, s⟩ := em
  obtain ⟨k, rfl | rfl⟩ := Nat.even_or_odd' m
  · -- the last bit of the mantissa is zero, and the round bit becomes part of the rest
    have hdiv : 2 * k / 2 = k := by omega
    have hmod : (2 * k % 2 != 0) = false := by simp
    rw [ExtendedMantissa.shiftRightOne, hdiv, hmod]
    cases h with
    | exact h =>
      push_cast at h
      exact .exact (by linarith)
    | belowHalf h h' =>
      push_cast at h h'
      exact .belowHalf (by linarith) (by linarith)
    | half h =>
      push_cast at h
      exact .belowHalf (by linarith) (by linarith)
    | aboveHalf h h' =>
      push_cast at h h'
      exact .belowHalf (by linarith) (by linarith)
  · have hdiv : (2 * k + 1) / 2 = k := by omega
    have hmod : ((2 * k + 1) % 2 != 0) = true := by simp
    rw [ExtendedMantissa.shiftRightOne, hdiv, hmod]
    cases h with
    | exact h =>
      push_cast at h
      exact .half (by linarith)
    | belowHalf h h' =>
      push_cast at h h'
      exact .aboveHalf (by linarith) (by linarith)
    | half h =>
      push_cast at h
      exact .aboveHalf (by linarith) (by linarith)
    | aboveHalf h h' =>
      push_cast at h h'
      exact .aboveHalf (by linarith) (by linarith)

/-- Shifting to the right by several places divides by a power of two. -/
theorem Locates.shiftRight {em : ExtendedMantissa} {x : ℚ} (h : Locates em x) (n : ℕ) :
    Locates (em >>> n) (x / 2 ^ n) := by
  induction n with
  | zero => simpa [HShiftRight.hShiftRight, Nat.repeat] using h
  | succ n ih =>
    have hshift : em >>> (n + 1) = (em >>> n).shiftRightOne := rfl
    have hpow : x / 2 ^ (n + 1) = x / 2 ^ n / 2 := by rw [pow_succ, div_div]
    rw [hshift, hpow]
    exact ih.shiftRightOne

/-- A located number is rounded to the nearest natural number, and to the even one if it lies half
way between two of them. -/
theorem Locates.roundedMantissa_eq {em : ExtendedMantissa} {x : ℚ} (h : Locates em x) {n : ℕ}
    (hlow : (n : ℚ) - 1 / 2 ≤ x) (hhigh : x ≤ n + 1 / 2)
    (hodd : n % 2 = 1 → (n : ℚ) - 1 / 2 < x ∧ x < n + 1 / 2) : em.roundedMantissa = n := by
  cases h with
  | @exact m _ h =>
    have hle : (n : ℚ) < m + 1 := by linarith
    have hge : (m : ℚ) < n + 1 := by linarith
    norm_cast at hle hge
    show m = n
    omega
  | @belowHalf m _ h h' =>
    have hle : (n : ℚ) < m + 1 := by linarith
    have hge : (m : ℚ) < n + 1 := by linarith
    norm_cast at hle hge
    show m = n
    omega
  | @half m _ h =>
    have hle : (n : ℚ) ≤ m + 1 := by linarith
    have hge : (m : ℚ) ≤ n := by linarith
    norm_cast at hle hge
    -- of the two nearest numbers, an odd one is not what the tie is broken to
    have heven : n % 2 ≠ 1 := by
      intro hn
      obtain ⟨hlt, hgt⟩ := hodd hn
      have hlt' : (n : ℚ) < m + 1 := by linarith
      have hgt' : (m : ℚ) < n := by linarith
      norm_cast at hlt' hgt'
      omega
    show m + m % 2 = n
    omega
  | @aboveHalf m _ h h' =>
    have hle : (n : ℚ) < m + 2 := by linarith
    have hge : (m : ℚ) < n := by linarith
    norm_cast at hle hge
    show m + 1 = n
    omega

/-! ### The numbers that round to a given one -/

/-- The canonical form of a finite number other than zero: the mantissa has fifty-three binary
digits, unless the exponent is the smallest one. -/
structure Canonical (m : ℕ) (q : ℤ) : Prop where
  /-- The number is not zero. -/
  pos : 0 < m
  /-- The mantissa has at most fifty-three digits. -/
  lt : m < 2 ^ 53
  /-- The exponent is not too small. -/
  le : -1074 ≤ q
  /-- The mantissa has fifty-three digits, or the exponent is the smallest one. -/
  normal : 2 ^ 52 ≤ m ∨ q = -1074

/-- Whether the gap below a number is half as wide as the one above it. -/
def IsNarrow (m : ℕ) (q : ℤ) : Prop :=
  m = 2 ^ 52 ∧ -1074 < q

/-- The number `y`, in units of the last place of `m * 2 ^ q`, lies in the interval of the numbers
that round to `m`. -/
structure RoundsTo (m : ℕ) (q : ℤ) (y : ℚ) : Prop where
  /-- The lower end. -/
  low : (m : ℚ) - 1 / 2 ≤ y
  /-- The upper end. -/
  high : y ≤ m + 1 / 2
  /-- The lower end is nearer if the gap below is narrow. -/
  narrow : IsNarrow m q → (m : ℚ) - 1 / 4 ≤ y
  /-- The ends belong to the interval of an even number only. -/
  odd : m % 2 = 1 → (m : ℚ) - 1 / 2 < y ∧ y < m + 1 / 2

theorem targetExponent_binary64 (e : ℤ) :
    Format.binary64.targetExponent e = max (e - 53) (-1074) := rfl

theorem lt_of_two_pow_le {n : ℕ} {k : ℤ} {y : ℚ} (h : (2 : ℚ) ^ n ≤ y) (h' : y < 2 ^ k) :
    (n : ℤ) < k := by
  rw [← zpow_natCast] at h
  exact (zpow_lt_zpow_iff_right₀ one_lt_two).mp (h.trans_lt h')

theorem lt_of_two_zpow_le {n : ℕ} {k : ℤ} {y : ℚ} (h : (2 : ℚ) ^ k ≤ y) (h' : y < 2 ^ n) :
    k < (n : ℤ) := by
  rw [← zpow_natCast] at h'
  exact (zpow_lt_zpow_iff_right₀ one_lt_two).mp (h.trans_lt h')

/-- A mantissa in front of a number bounds it by powers of two. -/
theorem two_zpow_bounds {m : ℕ} {e q : ℤ} {y : ℚ} (hlow : (m : ℚ) ≤ y * 2 ^ (q - e))
    (hhigh : y * 2 ^ (q - e) < m + 1) :
    y < 2 ^ ((m.log2 : ℤ) + 1 + e - q) ∧ (m ≠ 0 → (2 : ℚ) ^ ((m.log2 : ℤ) + e - q) ≤ y) := by
  have hpos : (0 : ℚ) < 2 ^ (q - e) := by positivity
  have hscale : ∀ n : ℕ, (2 : ℚ) ^ ((n : ℤ) + e - q) * 2 ^ (q - e) = 2 ^ n := by
    intro n
    rw [← zpow_add₀ two_ne_zero, ← zpow_natCast]
    congr 1
    omega
  constructor
  · have hm : (m : ℚ) + 1 ≤ 2 ^ (m.log2 + 1) := by exact_mod_cast Nat.lt_log2_self
    refine lt_of_mul_lt_mul_right (hhigh.trans_le (hm.trans_eq ?_)) hpos.le
    rw [← hscale, Nat.cast_add, Nat.cast_one]
  · intro hm
    have hm : (2 : ℚ) ^ m.log2 ≤ m := by exact_mod_cast Nat.log2_self_le hm
    refine le_of_mul_le_mul_right ?_ hpos
    rw [hscale]
    exact hm.trans hlow

/-- The exponent that a located number is shifted to. It is the one of the number that it rounds to,
except for numbers that are rounded up to a power of two. -/
theorem RoundsTo.targetExponent_eq {m₀ : ℕ} {q : ℤ} {y : ℚ} (hy : RoundsTo m₀ q y)
    (hcanonical : Canonical m₀ q) {m : ℕ} {e : ℤ} (hlow : (m : ℚ) ≤ y * 2 ^ (q - e))
    (hhigh : y * 2 ^ (q - e) < m + 1)
    (he : e ≤ Format.binary64.targetExponent (totalExponent m e)) :
    Format.binary64.targetExponent (totalExponent m e) = q ∨
      Format.binary64.targetExponent (totalExponent m e) = q - 1 ∧ IsNarrow m₀ q ∧ y < 2 ^ 52 := by
  obtain ⟨hupper, hlower⟩ := two_zpow_bounds hlow hhigh
  rw [targetExponent_binary64, totalExponent] at he ⊢
  have hq := hcanonical.le
  have hzero : m = 0 → m.log2 = 0 := fun hm => by rw [hm]; rfl
  rcases le_or_gt (2 ^ 52) y with hnormal | hsmall
  · -- the number has as many digits as the one that it rounds to
    left
    have hm₀ : (m₀ : ℚ) + 1 ≤ 2 ^ 53 := by exact_mod_cast hcanonical.lt
    have hy53 : y < 2 ^ 53 := by linarith [hy.high]
    have hlog := lt_of_two_pow_le hnormal hupper
    by_cases hm : m = 0
    · rw [hzero hm] at hlog he ⊢
      omega
    · have hlog' := lt_of_two_zpow_le (hlower hm) hy53
      omega
  · by_cases hmin : q = -1074
    · left
      by_cases hm : m = 0
      · rw [hzero hm] at he ⊢
        omega
      · have hlog := lt_of_two_zpow_le (hlower hm) hsmall
        omega
    · -- only the numbers just below a power of two are that small
      right
      have hm₀ := hcanonical.normal.resolve_right hmin
      have hle : (m₀ : ℚ) < 2 ^ 52 + 1 := by linarith [hy.low]
      have hle : m₀ < 2 ^ 52 + 1 := by exact_mod_cast hle
      have hnarrow : IsNarrow m₀ q := ⟨by omega, by omega⟩
      have hm₀ : (m₀ : ℚ) = 2 ^ 52 := by exact_mod_cast hnarrow.1
      have hy51 : (2 : ℚ) ^ 51 ≤ y := by linarith [hy.narrow hnarrow]
      refine ⟨?_, hnarrow, hsmall⟩
      have hlog := lt_of_two_pow_le hy51 hupper
      by_cases hm : m = 0
      · rw [hzero hm] at hlog he ⊢
        omega
      · have hlog' := lt_of_two_zpow_le (hlower hm) hsmall
        omega

/-- A mantissa that fits into fifty-three digits stays as it is. -/
theorem shiftToTargetExponent_of_lt {m : ℕ} {q : ℤ} (hm : m < 2 ^ 53) (hq : -1074 ≤ q) :
    shiftToTargetExponent Format.binary64 m q .exact = (⟨m, false, false⟩, q) := by
  have hlog : m.log2 ≤ 52 := by
    by_cases hzero : m = 0
    · rw [hzero]
      decide
    · have := (Nat.log2_lt hzero).mpr hm
      omega
  have hshift : (Format.binary64.targetExponent (totalExponent m q) - q).toNat = 0 := by
    rw [targetExponent_binary64, totalExponent]
    omega
  rw [shiftToTargetExponent, shiftToExponent, hshift]
  simp [HShiftRight.hShiftRight, Nat.repeat, ExtendedMantissa.ofMantissaAndAccuracy]

/-- A mantissa of fifty-four digits that is a power of two loses its last digit. -/
theorem shiftToTargetExponent_two_pow {q : ℤ} (hq : -1074 ≤ q) :
    shiftToTargetExponent Format.binary64 (2 ^ 53) q .exact = (⟨2 ^ 52, false, false⟩, q + 1) := by
  have hshift : (Format.binary64.targetExponent (totalExponent (2 ^ 53) q) - q).toNat = 1 := by
    rw [targetExponent_binary64, totalExponent, Nat.log2_two_pow]
    omega
  rw [shiftToTargetExponent, shiftToExponent, hshift]
  simp [HShiftRight.hShiftRight, Nat.repeat, ExtendedMantissa.ofMantissaAndAccuracy,
    ExtendedMantissa.shiftRightOne]

theorem mantissa_ofMantissaAndAccuracy (m : ℕ) (accuracy : Accuracy) :
    (ExtendedMantissa.ofMantissaAndAccuracy m accuracy).mantissa = m := by
  cases accuracy with
  | exact => rfl
  | inexact o => cases o <;> rfl

/-- A number is shifted to the place where it is rounded. There it is located, too. -/
theorem Locates.exists_shiftToTargetExponent {m : ℕ} {e q : ℤ} {accuracy : Accuracy} {y : ℚ}
    (h : Locates (.ofMantissaAndAccuracy m accuracy) (y * 2 ^ (q - e))) {T : ℤ}
    (hT : Format.binary64.targetExponent (totalExponent m e) = T) (he : e ≤ T) :
    ∃ em, shiftToTargetExponent Format.binary64 m e accuracy = (em, T) ∧
      Locates em (y * 2 ^ (q - T)) := by
  refine ⟨(ExtendedMantissa.ofMantissaAndAccuracy m accuracy) >>> (T - e).toNat, ?_, ?_⟩
  · rw [shiftToTargetExponent, shiftToExponent, hT]
    congr 1
    omega
  · have hscale : y * 2 ^ (q - e) / 2 ^ (T - e).toNat = y * 2 ^ (q - T) := by
      have hexponent : q - e = q - T + ((T - e).toNat : ℤ) := by omega
      rw [hexponent, zpow_add₀ two_ne_zero, zpow_natCast, ← mul_assoc,
        mul_div_cancel_right₀ _ (by positivity)]
    rw [← hscale]
    exact h.shiftRight _

/-- **The numbers of the interval round to the number it belongs to.** -/
theorem RoundsTo.roundWithAccuracy_eq {m₀ : ℕ} {q : ℤ} {y : ℚ} (hy : RoundsTo m₀ q y)
    (hcanonical : Canonical m₀ q) (sign : Sign) {m : ℕ} {e : ℤ} {accuracy : Accuracy}
    (hlocates : Locates (.ofMantissaAndAccuracy m accuracy) (y * 2 ^ (q - e)))
    (he : e ≤ Format.binary64.targetExponent (totalExponent m e)) :
    roundWithAccuracy Format.binary64 sign m e accuracy = .finite sign m₀ q hcanonical.pos := by
  have hlow := hlocates.mantissa_le
  have hhigh := hlocates.lt_mantissa_add_one
  rw [mantissa_ofMantissaAndAccuracy] at hlow hhigh
  generalize hT : Format.binary64.targetExponent (totalExponent m e) = T at he
  have htarget := hy.targetExponent_eq hcanonical hlow hhigh (hT ▸ he)
  rw [hT] at htarget
  -- the number in units of the place where it is rounded
  obtain ⟨em, hfirst, hshifted⟩ := hlocates.exists_shiftToTargetExponent hT he
  rw [roundWithAccuracy, hfirst]
  dsimp only
  rcases htarget with rfl | ⟨rfl, hnarrow, hsmall⟩
  · have hround := hshifted.roundedMantissa_eq (n := m₀) (by simpa using hy.low)
      (by simpa using hy.high) (by simpa using hy.odd)
    simp only [hround, shiftToTargetExponent_of_lt hcanonical.lt hcanonical.le, hcanonical.pos.ne',
      dite_false]
  · -- the number is rounded up to a power of two, which then loses its last digit
    have hm₀ : (m₀ : ℚ) = 2 ^ 52 := by exact_mod_cast hnarrow.1
    have hdouble : y * 2 ^ (q - (q - 1)) = 2 * y := by
      rw [sub_sub_cancel, zpow_one, mul_comm]
    rw [hdouble] at hshifted
    have hround := hshifted.roundedMantissa_eq (n := 2 ^ 53)
      (by push_cast; linarith [hy.narrow hnarrow]) (by push_cast; linarith)
      (fun h => absurd h (by decide))
    have hq : -1074 ≤ q - 1 := by have := hnarrow.2; omega
    simp only [hround, shiftToTargetExponent_two_pow hq, hnarrow.1, sub_add_cancel]
    simp

/-! ### Operations on positive numbers -/

theorem locates_exact {m : ℕ} {x : ℚ} (h : x = m) :
    Locates (.ofMantissaAndAccuracy m .exact) x :=
  .exact h

/-- What a division with remainder knows about the quotient. -/
theorem locates_div (n : ℕ) {d : ℕ} (hd : 0 < d) :
    Locates (.ofMantissaAndAccuracy (n / d) (accuracyOfFraction (n % d) d)) (n / d) := by
  have hd' : (0 : ℚ) < d := by exact_mod_cast hd
  have hquotient : (n : ℚ) / d = (n / d : ℕ) + (n % d : ℕ) / d := by
    rw [eq_comm, ← mul_right_inj' hd'.ne', mul_add, mul_div_cancel₀ _ hd'.ne',
      mul_div_cancel₀ _ hd'.ne']
    exact_mod_cast Nat.div_add_mod n d
  have hlt : ((n % d : ℕ) : ℚ) / d < 1 := by
    rw [div_lt_one hd']
    exact_mod_cast Nat.mod_lt n hd
  rw [accuracyOfFraction]
  split
  · rename_i hzero
    refine .exact ?_
    rw [hquotient, hzero, Nat.cast_zero, zero_div, add_zero]
  · rename_i hzero
    have hpos : (0 : ℚ) < (n % d : ℕ) / d := by
      have hremainder : (0 : ℚ) < (n % d : ℕ) := by exact_mod_cast Nat.pos_of_ne_zero hzero
      exact div_pos hremainder hd'
    -- the remainder is compared with half of the divisor
    rcases lt_trichotomy (2 * (n % d)) d with h | h | h
    · rw [compare_lt_iff_lt.mpr h]
      have h : 2 * ((n % d : ℕ) : ℚ) < d := by exact_mod_cast h
      have hhalf : ((n % d : ℕ) : ℚ) / d < 1 / 2 := by
        rw [div_lt_iff₀ hd']
        linarith
      exact .belowHalf (by linarith) (by linarith)
    · rw [compare_eq_iff_eq.mpr h]
      have h : 2 * ((n % d : ℕ) : ℚ) = d := by exact_mod_cast h
      have hhalf : ((n % d : ℕ) : ℚ) / d = 1 / 2 := by
        rw [div_eq_iff hd'.ne']
        linarith
      exact .half (by linarith)
    · rw [compare_gt_iff_gt.mpr h]
      have h : (d : ℚ) < 2 * (n % d : ℕ) := by exact_mod_cast h
      have hhalf : 1 / 2 < ((n % d : ℕ) : ℚ) / d := by
        rw [lt_div_iff₀ hd']
        linarith
      exact .aboveHalf (by linarith) (by linarith)

/-- The number of binary digits of a quotient. -/
theorem log2_le_log2_div (n : ℕ) {d : ℕ} (hd : d ≠ 0) : n.log2 ≤ (n / d).log2 + d.log2 + 1 := by
  by_cases hn : n = 0
  · rw [hn]
    exact Nat.zero_le _
  · have hquotient : n / d + 1 ≤ 2 ^ ((n / d).log2 + 1) := Nat.lt_log2_self
    have hdivisor : d < 2 ^ (d.log2 + 1) := Nat.lt_log2_self
    have hlt : n < 2 ^ ((n / d).log2 + d.log2 + 2) :=
      calc n < (n / d + 1) * d := by
            rw [Nat.succ_mul]
            have := Nat.div_add_mod n d
            have := Nat.mod_lt n (Nat.pos_of_ne_zero hd)
            rw [Nat.mul_comm]
            omega
        _ ≤ 2 ^ ((n / d).log2 + 1) * 2 ^ (d.log2 + 1) := Nat.mul_le_mul hquotient hdivisor.le
        _ = 2 ^ ((n / d).log2 + d.log2 + 2) := by rw [← pow_add]; congr 1; omega
    have := (Nat.log2_lt hn).mpr hlt
    omega

theorem log2_add_le_log2_shiftLeft {n : ℕ} (hn : n ≠ 0) (k : ℕ) : n.log2 + k ≤ (n <<< k).log2 := by
  have hpos : n * 2 ^ k ≠ 0 := Nat.mul_ne_zero hn (Nat.two_pow_pos k).ne'
  rw [Nat.shiftLeft_eq, Nat.le_log2 hpos, pow_add]
  exact Nat.mul_le_mul_right _ (Nat.log2_self_le hn)

theorem targetExponent_mono {e e' : ℤ} (h : e ≤ e') :
    Format.binary64.targetExponent e ≤ Format.binary64.targetExponent e' := by
  rw [targetExponent_binary64, targetExponent_binary64]
  omega

/-- A division with remainder locates the quotient, with digits enough to round it. -/
theorem locates_divCore {m₁ m₂ : ℕ} (e₁ e₂ q : ℤ) (h₁ : 0 < m₁) (h₂ : 0 < m₂) :
    ∃ m T accuracy, divCore Format.binary64 m₁ e₁ m₂ e₂ = (m, T, accuracy) ∧
      Locates (.ofMantissaAndAccuracy m accuracy)
        (m₁ / m₂ * 2 ^ (e₁ - e₂ - q) * 2 ^ (q - T)) ∧
      T ≤ Format.binary64.targetExponent (totalExponent m T) := by
  refine ⟨_, _, _, rfl, ?_⟩
  generalize hT : min (e₁ - e₂)
    (Format.binary64.targetExponent (totalExponent m₁ e₁ - totalExponent m₂ e₂)) = T
  have hle : T ≤ e₁ - e₂ := by omega
  generalize hk : (e₁ - e₂ - T).toNat = k
  constructor
  · have hscale : (m₁ : ℚ) / m₂ * 2 ^ (e₁ - e₂ - q) * 2 ^ (q - T) = (m₁ <<< k : ℕ) / m₂ := by
      rw [mul_assoc, ← zpow_add₀ two_ne_zero, Nat.shiftLeft_eq, Nat.cast_mul, Nat.cast_pow,
        Nat.cast_ofNat, ← zpow_natCast]
      have hexponent : e₁ - e₂ - q + (q - T) = k := by omega
      rw [hexponent, div_mul_eq_mul_div]
    rw [hscale]
    exact locates_div _ h₂
  · -- the quotient has enough digits
    have hlog := log2_add_le_log2_shiftLeft h₁.ne' k
    have hdiv := log2_le_log2_div (m₁ <<< k) h₂.ne'
    have htotal : totalExponent m₁ e₁ - totalExponent m₂ e₂ ≤ totalExponent (m₁ <<< k / m₂) T := by
      rw [totalExponent, totalExponent, totalExponent]
      omega
    have := targetExponent_mono htotal
    omega

/-- **A quotient of positive numbers rounds to the number whose interval it lies in.** -/
theorem RoundsTo.div_eq {m₀ : ℕ} {q : ℤ} {m₁ m₂ : ℕ} {e₁ e₂ : ℤ} (h₁ : 0 < m₁) (h₂ : 0 < m₂)
    (hy : RoundsTo m₀ q (m₁ / m₂ * 2 ^ (e₁ - e₂ - q))) (hcanonical : Canonical m₀ q) :
    div Format.binary64 (.finite .positive m₁ e₁ h₁) (.finite .positive m₂ e₂ h₂) =
      .finite .positive m₀ q hcanonical.pos := by
  have hsign : Sign.positive / Sign.positive = Sign.positive := rfl
  obtain ⟨m, T, accuracy, hcore, hlocates, he⟩ := locates_divCore e₁ e₂ q h₁ h₂
  rw [UnpackedFloat.div, hcore, hsign]
  exact hy.roundWithAccuracy_eq hcanonical _ hlocates he

/-- **A product of positive numbers rounds to the number whose interval it lies in**, if it has
enough digits. -/
theorem RoundsTo.mul_eq {m₀ : ℕ} {q : ℤ} {m₁ m₂ : ℕ} {e₁ e₂ : ℤ} (h₁ : 0 < m₁) (h₂ : 0 < m₂)
    (hy : RoundsTo m₀ q (m₁ * m₂ * 2 ^ (e₁ + e₂ - q))) (hcanonical : Canonical m₀ q)
    (he : e₁ + e₂ ≤ Format.binary64.targetExponent (totalExponent (m₁ * m₂) (e₁ + e₂))) :
    mul Format.binary64 (.finite .positive m₁ e₁ h₁) (.finite .positive m₂ e₂ h₂) =
      .finite .positive m₀ q hcanonical.pos := by
  have hsign : Sign.positive * Sign.positive = Sign.positive := rfl
  rw [UnpackedFloat.mul, hsign]
  refine hy.roundWithAccuracy_eq hcanonical _ (locates_exact ?_) he
  rw [mul_assoc, ← zpow_add₀ two_ne_zero]
  simp

end Univariate
