import Mathlib.Algebra.Order.Floor.Ring
import Mathlib.Data.Rat.Floor
import Univariate.Number

/-!
# Exact rational numbers

The rational numbers as numbers of an expression. All of the arithmetic is exact, and so are the
functions that map rational numbers to rational numbers: powers with whole exponents, rounding down
and the absolute value. The other functions have hardly any rational values; they are zero here, and
nothing is stated about them.

## Main results

* `pow_intCast`, `pow_eq_of_toNat?`: powers with whole and with natural exponents.
-/

namespace Univariate

/-- Rational numbers are written as fractions. The number that is written `pi` is the double next to
π. -/
instance : Numeral ℚ where
  pi := 884279719003555 / 2 ^ 48
  isNegative c := decide (c < 0)
  isFinite _ := true
  isUndefined _ := false
  magnitude c := if c.den = 1 then c.num.natAbs.repr else c.num.natAbs.repr ++ "/" ++ c.den.repr
  toNat? c := if c.den = 1 ∧ 0 ≤ c.num then some c.num.toNat else none

/-- Functions on rational numbers. Where a function has no rational value it is zero. -/
instance : Elementary ℚ where
  pow a b := if b.den = 1 then a ^ b.num else 0
  sin _ := 0
  cos _ := 0
  tan _ := 0
  asin _ := 0
  acos _ := 0
  atan _ := 0
  log10 _ := 0
  ln _ := 0
  exp _ := 0
  floor c := (⌊c⌋ : ℤ)
  sqrt _ := 0
  abs c := |c|

/-- A power whose exponent is a whole number. -/
theorem pow_intCast (a : ℚ) (n : ℤ) : Elementary.pow a (n : ℚ) = a ^ n := by
  have hpow : Elementary.pow a (n : ℚ) = a ^ (n : ℚ).num := if_pos (Rat.den_intCast n)
  rw [hpow, Rat.num_intCast]

/-- A power with a natural exponent is a product of that many factors. -/
theorem pow_eq_of_toNat? (a k : ℚ) (n : ℕ) (h : Numeral.toNat? k = some n) :
    Elementary.pow a k = a ^ n := by
  obtain ⟨⟨hden, hnum⟩, hn⟩ : (k.den = 1 ∧ 0 ≤ k.num) ∧ k.num.toNat = n := by
    simpa [Numeral.toNat?] using h
  have hpow : Elementary.pow a k = a ^ k.num := if_pos hden
  rw [hpow, ← Int.toNat_of_nonneg hnum, hn, zpow_natCast]

end Univariate
