import Mathlib
import Univariate.Double.Text
import Univariate.Proofs.Rounding

/-!
# Bit patterns

The bits of a double are a sign, an exponent and a fraction. The model of `Float` puts a number
together from these and takes it apart again, and a `Double` is looked at in the same way. Each
pattern of bits comes from exactly one sign, exponent and fraction, so all that has to be known
about packing and unpacking is said for these three.

## Main definitions

* `Representable`: the unpacked numbers that have a bit pattern of their own.
* `IsPositive`: the unpacked numbers without a sign.
* `Double.ofComponents`: the double with a given sign, exponent and fraction.

## Main results

* `unpack_pack`, `pack_unpack`: packing and unpacking are inverse to each other.
* `Double.exists_components`: every double has a sign, an exponent and a fraction.
* `Double.parts_ofComponents`, `unpack_components`: what they say about the number.
-/

namespace Univariate

open Float.Model Float.Model.UnpackedFloat

/-! ### Packing -/

variable (s : Sign) (e : BitVec 11) (f : BitVec 52)

/-- The bit pattern with a given sign, exponent and fraction. -/
abbrev components : BitVec 64 :=
  packComponents Format.binary64 s e f

theorem toNat_components :
    (components s e f).toNat = s.toBitVec.toNat * 2 ^ 63 + e.toNat * 2 ^ 52 + f.toNat := by
  have hhigh : (s.toBitVec ++ e).toNat = s.toBitVec.toNat * 2 ^ 11 + e.toNat := by
    rw [BitVec.toNat_append, ← Nat.shiftLeft_add_eq_or_of_lt e.isLt, Nat.shiftLeft_eq]
  have hall : (components s e f).toNat = (s.toBitVec ++ e).toNat * 2 ^ 52 + f.toNat := by
    show ((s.toBitVec ++ e) ++ f).toNat = _
    rw [BitVec.toNat_append, ← Nat.shiftLeft_add_eq_or_of_lt f.isLt, Nat.shiftLeft_eq]
  rw [hall, hhigh]
  omega

/-- Every bit pattern has a sign, an exponent and a fraction. -/
theorem exists_components (b : BitVec 64) : ∃ s e f, b = components s e f := by
  have hsign : ∃ s : Sign, s.toBitVec.toNat = b.toNat / 2 ^ 63 := by
    have := b.isLt
    obtain h | h : b.toNat / 2 ^ 63 = 0 ∨ b.toNat / 2 ^ 63 = 1 := by omega
    · exact ⟨.positive, h.symm⟩
    · exact ⟨.negative, h.symm⟩
  obtain ⟨s, hs⟩ := hsign
  refine ⟨s, BitVec.ofNat 11 (b.toNat / 2 ^ 52), BitVec.ofNat 52 b.toNat, BitVec.eq_of_toNat_eq ?_⟩
  rw [toNat_components, hs, BitVec.toNat_ofNat, BitVec.toNat_ofNat]
  omega

@[simp] theorem unpackSign_components :
    @unpackSign Format.binary64 (components s e f) = s.toBitVec := by
  have he := e.isLt
  have hf := f.isLt
  refine BitVec.eq_of_toNat_eq ?_
  simp only [unpackSign, BitVec.toNat_cast, BitVec.extractLsb_toNat, toNat_components,
    Nat.shiftRight_eq_div_pow]
  have hs := s.toBitVec.isLt
  omega

/-- What an exponent and a fraction stand for. -/
theorem unpack_components :
    UnpackedFloat.unpack Format.binary64 (components s e f) =
      if e.toNat = 2047 then if f = 0#52 then .infinity s else .notANumber
      else if e.toNat = 0 then
        if h : f = 0#52 then .zero s
        else .finite s f.toNat (-1074) (by simpa [BitVec.toNat_pos, BitVec.pos_iff_ne_zero] using h)
      else .finite s (2 ^ 52 + f.toNat) (e.toNat - 1075) (by omega) := by
  have hsign : Sign.ofBitVec s.toBitVec = s := by cases s <;> rfl
  have htop : e = -1#11 ↔ e.toNat = 2047 := by rw [← BitVec.toNat_inj]; rfl
  have hbottom : e = 0#11 ↔ e.toNat = 0 := by rw [← BitVec.toNat_inj]; rfl
  have hleading : (1#1 ++ f).toNat = 2 ^ 52 + f.toNat := by
    rw [BitVec.toNat_append, ← Nat.shiftLeft_add_eq_or_of_lt f.isLt]
    rfl
  have hbias : (Format.binary64.exponentBias : ℤ) +
      Format.binary64.mantissaBitsWithoutImplicit = 1075 := rfl
  unfold UnpackedFloat.unpack
  simp only [unpackMantissa_packComponents, unpackExponent_packComponents, unpackSign_components,
    hsign, htop, hbottom, hleading, hbias]
  split
  · rfl
  · split
    · rename_i hzero
      simp [hzero]
    · rfl

/-! ### Packing and unpacking -/

/-- The unpacked numbers that have a bit pattern of their own: the finite ones are in canonical form
and not too large. -/
def Representable : UnpackedFloat → Prop
  | .finite _ m q _ => Canonical m q ∧ q ≤ 971
  | _ => True

theorem pack_normal {m : ℕ} {q : ℤ} (hm : 0 < m) (hlow : 2 ^ 52 ≤ m) (hhigh : m < 2 ^ 53)
    (hq : -1074 ≤ q) (hq' : q ≤ 971) :
    UnpackedFloat.pack Format.binary64 (.finite s m q hm) =
      components s (BitVec.ofNat 11 (q + 1075).toNat) (BitVec.ofNat 52 m) := by
  have hlog : m.log2 + 1 = Format.binary64.mantissaBits := by
    rw [(Nat.log2_eq_iff hm.ne').mpr ⟨hlow, hhigh⟩]
    rfl
  have hexponent : q + (Format.binary64.exponentBias : ℤ) + (52 : ℕ) = q + 1075 := by
    rw [add_assoc]
    rfl
  rw [UnpackedFloat.pack]
  dsimp only
  rw [hexponent, if_neg (by omega), if_pos hlog]

theorem pack_subnormal {m : ℕ} (hm : 0 < m) (hhigh : m < 2 ^ 52) :
    UnpackedFloat.pack Format.binary64 (.finite s m (-1074) hm) =
      components s 0#11 (BitVec.ofNat 52 m) := by
  have hlog : m.log2 + 1 ≠ Format.binary64.mantissaBits := by
    have hlt := (Nat.log2_lt hm.ne').mpr hhigh
    show m.log2 + 1 ≠ 53
    omega
  rw [UnpackedFloat.pack]
  dsimp only
  rw [if_neg (by decide), if_neg hlog]

/-- **A number with a bit pattern of its own is what its bit pattern stands for.** -/
theorem unpack_pack {u : UnpackedFloat} (hu : Representable u) :
    UnpackedFloat.unpack Format.binary64 (UnpackedFloat.pack Format.binary64 u) = u := by
  cases u with
  | infinity s => cases s <;> rfl
  | notANumber => rfl
  | zero s => cases s <;> rfl
  | finite s m q hm =>
    obtain ⟨hcanonical, hq⟩ := hu
    have hlt := hcanonical.lt
    have hle := hcanonical.le
    by_cases hnormal : 2 ^ 52 ≤ m
    · have hexponent : (BitVec.ofNat 11 (q + 1075).toNat).toNat = (q + 1075).toNat := by
        rw [BitVec.toNat_ofNat]
        omega
      have hfraction : 2 ^ 52 + (BitVec.ofNat 52 m).toNat = m := by
        rw [BitVec.toNat_ofNat]
        omega
      have hcast : ((q + 1075).toNat : ℤ) - 1075 = q := by omega
      rw [pack_normal s hm hnormal hlt hle hq, unpack_components, if_neg (by omega),
        if_neg (by omega)]
      simp only [hexponent, hfraction, hcast]
    · obtain rfl := hcanonical.normal.resolve_left hnormal
      have hfraction : (BitVec.ofNat 52 m).toNat = m := by
        rw [BitVec.toNat_ofNat]
        omega
      have hzero : BitVec.ofNat 52 m ≠ 0#52 := by
        rw [ne_eq, ← BitVec.toNat_inj, hfraction]
        exact hm.ne'
      rw [pack_subnormal s hm (by omega), unpack_components, if_neg (by decide), if_pos (by decide),
        dif_neg hzero]
      simp only [hfraction]

theorem representable_unpack (b : BitVec 64) :
    Representable (UnpackedFloat.unpack Format.binary64 b) := by
  obtain ⟨s, e, f, rfl⟩ := exists_components b
  have he := e.isLt
  have hf := f.isLt
  rw [unpack_components]
  split
  · split <;> trivial
  · split
    · split
      · trivial
      · rename_i hzero
        have hpos : 0 < f.toNat := by simpa [BitVec.toNat_pos, BitVec.pos_iff_ne_zero] using hzero
        exact ⟨⟨hpos, by omega, le_refl _, .inr rfl⟩, by norm_num⟩
    · exact ⟨⟨by omega, by omega, by omega, .inl (by omega)⟩, by omega⟩

/-- **The bit pattern of a number can be recovered from it.** -/
theorem pack_unpack {b : BitVec 64} (hb : UnpackedFloat.unpack Format.binary64 b ≠ .notANumber) :
    UnpackedFloat.pack Format.binary64 (UnpackedFloat.unpack Format.binary64 b) = b := by
  obtain ⟨s, e, f, rfl⟩ := exists_components b
  have he := e.isLt
  have hf := f.isLt
  rw [unpack_components] at hb ⊢
  split
  · rename_i htop
    by_cases hzero : f = 0#52
    · have he : e = -1#11 := BitVec.eq_of_toNat_eq htop
      rw [if_pos hzero, hzero, he]
      rfl
    · rw [if_pos htop, if_neg hzero] at hb
      exact absurd rfl hb
  · split
    · rename_i hbottom
      have he : e = 0#11 := BitVec.eq_of_toNat_eq hbottom
      split
      · rename_i hzero
        rw [hzero, he]
        rfl
      · rw [pack_subnormal s _ hf, BitVec.ofNat_toNat, BitVec.setWidth_eq, he]
    · have hexponent : BitVec.ofNat 11 ((e.toNat : ℤ) - 1075 + 1075).toNat = e := by
        rw [sub_add_cancel, Int.toNat_natCast, BitVec.ofNat_toNat, BitVec.setWidth_eq]
      have hfraction : BitVec.ofNat 52 (2 ^ 52 + f.toNat) = f := by
        refine BitVec.eq_of_toNat_eq ?_
        rw [BitVec.toNat_ofNat]
        omega
      rw [pack_normal s _ (by omega) (by omega) (by omega) (by omega), hexponent, hfraction]

/-! ### Numbers without a sign -/

/-- The unpacked numbers without a sign. -/
def IsPositive : UnpackedFloat → Prop
  | .infinity s => s = .positive
  | .zero s => s = .positive
  | .finite s _ _ _ => s = .positive
  | .notANumber => False

/-- Packing keeps a number without a sign, although it may become infinite. -/
theorem isPositive_unpack_pack {u : UnpackedFloat} (hu : IsPositive u) :
    IsPositive (UnpackedFloat.unpack Format.binary64 (UnpackedFloat.pack Format.binary64 u)) := by
  have hcomponents : ∀ (e : BitVec 11) (f : BitVec 52), e.toNat ≠ 2047 →
      IsPositive (UnpackedFloat.unpack Format.binary64 (components .positive e f)) := by
    intro e f he
    rw [unpack_components, if_neg he]
    split
    · split <;> rfl
    · rfl
  cases u with
  | infinity s =>
    rw [unpack_pack (u := .infinity s) trivial]
    exact hu
  | notANumber => exact hu.elim
  | zero s =>
    rw [unpack_pack (u := .zero s) trivial]
    exact hu
  | finite s m q hm =>
    obtain rfl : s = .positive := hu
    rw [UnpackedFloat.pack]
    dsimp only
    split
    · exact (unpack_pack (u := .infinity .positive) trivial).symm ▸ rfl
    · rename_i hsmall
      split
      · refine hcomponents _ _ ?_
        rw [BitVec.toNat_ofNat]
        omega
      · exact hcomponents _ _ (by decide)

/-! ### Doubles -/

namespace Double

/-- The double with a given sign, exponent and fraction. -/
def ofComponents : Double :=
  ⟨UInt64.ofBitVec (components s e f)⟩

/-- The number that the bits of a double stand for. -/
def unpacked (x : Double) : UnpackedFloat :=
  UnpackedFloat.unpack Format.binary64 x.bits.toBitVec

/-- Every double has a sign, an exponent and a fraction. -/
theorem exists_components (x : Double) : ∃ s e f, x = ofComponents s e f := by
  obtain ⟨s, e, f, h⟩ := Univariate.exists_components x.bits.toBitVec
  exact ⟨s, e, f, congrArg mk (by rw [← h])⟩

theorem toNat_bits_ofComponents :
    (ofComponents s e f).bits.toNat = s.toBitVec.toNat * 2 ^ 63 + e.toNat * 2 ^ 52 + f.toNat :=
  toNat_components s e f

theorem toNat_exponentField_ofComponents : (ofComponents s e f).exponentField.toNat = e.toNat := by
  have he := e.isLt
  have hf := f.isLt
  have hmask : (0x7FF : UInt64).toNat = 2 ^ 11 - 1 := rfl
  rw [exponentField, UInt64.toNat_and, hmask, Nat.and_two_pow_sub_one_eq_mod,
    UInt64.toNat_shiftRight, toNat_bits_ofComponents]
  show (_ >>> 52) % _ = _
  rw [Nat.shiftRight_eq_div_pow]
  omega

theorem toNat_fractionField_ofComponents : (ofComponents s e f).fractionField.toNat = f.toNat := by
  have hf := f.isLt
  have hmask : (0xFFFFFFFFFFFFF : UInt64).toNat = 2 ^ 52 - 1 := rfl
  rw [fractionField, UInt64.toNat_and, hmask, Nat.and_two_pow_sub_one_eq_mod,
    toNat_bits_ofComponents]
  omega

theorem isNegative_ofComponents : (ofComponents s e f).isNegative = true ↔ s = .negative := by
  have he := e.isLt
  have hf := f.isLt
  have hone : (1 : UInt64).toNat = 1 := rfl
  rw [isNegative, beq_iff_eq, ← UInt64.toNat_inj, UInt64.toNat_shiftRight, toNat_bits_ofComponents]
  show (_ >>> 63) = 1 ↔ _
  rw [Nat.shiftRight_eq_div_pow]
  cases s with
  | positive =>
    have hzero : Sign.positive.toBitVec.toNat = 0 := rfl
    simp only [hzero, reduceCtorEq, iff_false]
    omega
  | negative =>
    have hone : Sign.negative.toBitVec.toNat = 1 := rfl
    simp only [hone, iff_true]
    omega

theorem isFinite_ofComponents : (ofComponents s e f).isFinite = true ↔ e.toNat ≠ 2047 := by
  rw [isFinite, bne_iff_ne, ne_eq, ← UInt64.toNat_inj, toNat_exponentField_ofComponents]
  rfl

theorem isUndefined_ofComponents :
    (ofComponents s e f).isUndefined = true ↔ e.toNat = 2047 ∧ f.toNat ≠ 0 := by
  rw [isUndefined, Bool.and_eq_true, Bool.not_eq_true', ← Bool.not_eq_true, isFinite_ofComponents,
    not_not, bne_iff_ne, ne_eq, ← UInt64.toNat_inj, toNat_fractionField_ofComponents]
  rfl

theorem unpacked_ofComponents :
    (ofComponents s e f).unpacked = UnpackedFloat.unpack Format.binary64 (components s e f) := rfl

/-- A double without a sign stands for a number without a sign. -/
theorem isPositive_unpacked (x : Double) :
    IsPositive x.unpacked ↔ x.isNegative = false ∧ x.isUndefined = false := by
  obtain ⟨s, e, f, rfl⟩ := x.exists_components
  rw [← Bool.not_eq_true, ← Bool.not_eq_true, isNegative_ofComponents, isUndefined_ofComponents,
    unpacked_ofComponents, unpack_components]
  have hsign : s = .positive ↔ ¬ s = .negative := by cases s <;> simp
  have hzero : f = 0#52 ↔ f.toNat = 0 := by rw [← BitVec.toNat_inj]; rfl
  by_cases htop : e.toNat = 2047
  · rw [if_pos htop]
    by_cases hf : f = 0#52
    · rw [if_pos hf]
      simp [IsPositive, hsign, htop, hf]
    · rw [if_neg hf]
      simp [IsPositive, htop, ← hzero, hf]
  · rw [if_neg htop]
    split
    · split <;> simp [IsPositive, hsign, htop]
    · simp [IsPositive, hsign, htop]

/-- The double with a given bit pattern, if it stands for a number. -/
theorem eq_of_unpacked_eq {x : Double} {u : UnpackedFloat} (h : x.unpacked = u)
    (hu : u ≠ .notANumber) :
    x = ⟨UInt64.ofBitVec (UnpackedFloat.pack Format.binary64 u)⟩ := by
  subst h
  exact congrArg mk (congrArg UInt64.ofBitVec (pack_unpack hu).symm)

/-- The parts that a double is written from. -/
theorem parts_of_unpacked {x : Double} {m : ℕ} {q : ℤ} {hm : 0 < m}
    (h : x.unpacked = .finite s m q hm) :
    ∃ narrow, x.parts? = some ⟨x.isNegative, m, q, narrow⟩ ∧ (narrow = true ↔ IsNarrow m q) := by
  obtain ⟨s', e, f, rfl⟩ := x.exists_components
  rw [unpacked_ofComponents, unpack_components] at h
  have hf := f.isLt
  by_cases htop : e.toNat = 2047
  · rw [if_pos htop] at h
    split at h <;> cases h
  · rw [if_neg htop] at h
    have hfinite : (ofComponents s' e f).isFinite = true := (isFinite_ofComponents s' e f).mpr htop
    rw [parts?, if_pos hfinite]
    dsimp only
    rw [toNat_exponentField_ofComponents, toNat_fractionField_ofComponents]
    by_cases hbottom : e.toNat = 0
    · rw [if_pos hbottom] at h ⊢
      split at h
      · cases h
      · cases h
        exact ⟨false, rfl, by simp [IsNarrow]⟩
    · rw [if_neg hbottom] at h ⊢
      cases h
      refine ⟨_, rfl, ?_⟩
      rw [Bool.and_eq_true, beq_iff_eq, decide_eq_true_eq, IsNarrow]
      omega

/-- A finite number other than zero is written by its shortest decimal. -/
theorem magnitude_of_unpacked {x : Double} {m : ℕ} {q : ℤ} {hm : 0 < m}
    (h : x.unpacked = .finite s m q hm) :
    ∃ narrow, x.magnitude = (Decimal.shortest m q narrow).positional ∧
      (narrow = true ↔ IsNarrow m q) := by
  obtain ⟨narrow, hparts, hnarrow⟩ := parts_of_unpacked s h
  refine ⟨narrow, ?_, hnarrow⟩
  rw [magnitude, hparts]
  exact if_neg hm.ne'

theorem isFinite_of_unpacked_infinity {x : Double} (h : x.unpacked = .infinity s) :
    x.isFinite = false := by
  obtain rfl := eq_of_unpacked_eq h (by simp)
  cases s <;> decide

end Double

end Univariate
