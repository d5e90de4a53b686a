import Mathlib.Tactic.Ring
import Univariate.Decimal.Shortest
import Univariate.Proofs.Lexing
import Univariate.Proofs.Rounding

/-!
# The shortest decimal reads back

The shortest decimal of a binary number is searched for on ever finer grids. Whatever the search
finds lies in the interval of the numbers that round to that binary number, and it does find
something: the number itself is a point of the last grid. Its text is a literal, and the digits of
the literal are those of the decimal again.

## Main definitions

* `Decimal.value`: the number that a decimal stands for.

## Main results

* `Decimal.isLiteralText_positional`, `Decimal.literalValue_positional`: the text of a decimal is a
  literal that reads as that decimal.
* `Interval.roundsTo_of_holds`: the points of the interval round to the number it belongs to.
* `Decimal.shortest_spec`: the shortest decimal is such a point, and has not too many places.
-/

namespace Univariate

/-! ### Digits -/

namespace Decimal

open Nat (toDigits ofDigitChars)

theorem digitsValue_eq (cs : List Char) : digitsValue cs = ofDigitChars 10 cs 0 := rfl

theorem isDigits_toDigits (n : ℕ) : IsDigits (toDigits 10 n) :=
  ⟨Nat.toDigits_ne_nil, fun _ hc => Nat.isDigit_of_mem_toDigits (by decide) (by decide) hc⟩

theorem isDigit_of_mem_replicate {n : ℕ} {c : Char} (hc : c ∈ List.replicate n '0') :
    c.isDigit = true := by
  rw [List.eq_of_mem_replicate hc]
  decide

/-- Zeros behind the digits multiply by a power of ten. -/
theorem digitsValue_append_zeros (n k : ℕ) :
    digitsValue (toDigits 10 n ++ List.replicate k '0') = n * 10 ^ k := by
  rw [digitsValue_eq, Nat.ofDigitChars_append, Nat.ofDigitChars_ten_toDigits,
    Nat.ofDigitChars_replicate_zero, Nat.mul_comm]

/-- Zeros in front of the digits change nothing. -/
theorem digitsValue_zeros_append (n k : ℕ) :
    digitsValue (List.replicate k '0' ++ toDigits 10 n) = n := by
  rw [digitsValue_eq, Nat.ofDigitChars_append, Nat.ofDigitChars_replicate_zero, Nat.mul_zero,
    Nat.ofDigitChars_ten_toDigits]

theorem literalValue_whole {R : Type} [OfScientific R] {cs : List Char}
    (h : ∀ c ∈ cs, c.isDigit = true) :
    (literalValue cs : R) = OfScientific.ofScientific (digitsValue cs) true 0 := by
  obtain ⟨htake, hdrop⟩ := @span_isDigit cs [] h rfl
  rw [List.append_nil] at htake hdrop
  rw [literalValue, htake, hdrop]
  simp

theorem literalValue_places {R : Type} [OfScientific R] {cs ds : List Char}
    (h : ∀ c ∈ cs, c.isDigit = true) :
    (literalValue (cs ++ '.' :: ds) : R) =
      OfScientific.ofScientific (digitsValue (cs ++ ds)) true ds.length := by
  obtain ⟨htake, hdrop⟩ := @span_isDigit cs ('.' :: ds) h rfl
  rw [literalValue, htake, hdrop]
  rfl

/-- The text of a decimal: its digits, or digits in front of a point and digits behind it. -/
theorem positional_cases (d : Decimal) :
    (0 ≤ d.exponent ∧ IsDigits d.positional.toList ∧
        digitsValue d.positional.toList = d.digits * 10 ^ d.exponent.toNat) ∨
      ∃ cs ds, d.positional.toList = cs ++ '.' :: ds ∧ IsDigits cs ∧ IsDigits ds ∧
        digitsValue (cs ++ ds) = d.digits ∧ (ds.length : ℤ) = -d.exponent := by
  by_cases hexponent : 0 ≤ d.exponent
  · left
    have htext : d.positional.toList =
        toDigits 10 d.digits ++ List.replicate d.exponent.toNat '0' := by
      rw [positional, if_pos hexponent, String.toList_ofList]
    rw [htext]
    refine ⟨hexponent, ⟨List.append_ne_nil_of_left_ne_nil Nat.toDigits_ne_nil _, fun c hc => ?_⟩,
      digitsValue_append_zeros ..⟩
    rcases List.mem_append.mp hc with hc | hc
    · exact (isDigits_toDigits d.digits).2 c hc
    · exact isDigit_of_mem_replicate hc
  · right
    generalize hplaces : (-d.exponent).toNat = places
    generalize hpadded : List.replicate (places + 1 - (toDigits 10 d.digits).length) '0' ++
      toDigits 10 d.digits = padded
    have hlength : places < padded.length := by
      rw [← hpadded, List.length_append, List.length_replicate]
      omega
    have hdigit : ∀ c ∈ padded, c.isDigit = true := by
      intro c hc
      rw [← hpadded] at hc
      rcases List.mem_append.mp hc with hc | hc
      · exact isDigit_of_mem_replicate hc
      · exact (isDigits_toDigits d.digits).2 c hc
    refine ⟨padded.take (padded.length - places), padded.drop (padded.length - places), ?_,
      ⟨?_, ?_⟩, ⟨?_, ?_⟩, ?_, ?_⟩
    · rw [positional, if_neg hexponent, String.toList_ofList, hplaces, hpadded]
    · rw [← List.length_pos_iff, List.length_take]
      omega
    · exact fun c hc => hdigit c (List.mem_of_mem_take hc)
    · rw [← List.length_pos_iff, List.length_drop]
      omega
    · exact fun c hc => hdigit c (List.mem_of_mem_drop hc)
    · rw [List.take_append_drop, ← hpadded, digitsValue_zeros_append]
    · rw [List.length_drop]
      omega

/-- **The text of a decimal is a literal.** -/
theorem isLiteralText_positional (d : Decimal) : IsLiteralText d.positional.toList := by
  rcases d.positional_cases with ⟨-, h, -⟩ | ⟨cs, ds, h, hcs, hds, -, -⟩
  · exact .whole h
  · rw [h]
    exact .places hcs hds

/-- **The text of a decimal reads as that decimal.** -/
theorem literalValue_positional {R : Type} [OfScientific R] (d : Decimal) :
    (literalValue d.positional.toList : R) =
      OfScientific.ofScientific (d.digits * 10 ^ d.exponent.toNat) true (-d.exponent).toNat := by
  rcases d.positional_cases with ⟨hexponent, h, hvalue⟩ | ⟨cs, ds, h, hcs, hds, hvalue, hlength⟩
  · have hplaces : (-d.exponent).toNat = 0 := by omega
    rw [literalValue_whole h.2, hvalue, hplaces]
  · have hzero : d.exponent.toNat = 0 := by
      have := List.length_pos_iff.mpr hds.1
      omega
    have hplaces : (-d.exponent).toNat = ds.length := by omega
    rw [h, literalValue_places hcs.2, hvalue, hzero, hplaces, pow_zero, mul_one]

/-- The number that a decimal stands for. -/
def value (d : Decimal) : ℚ :=
  d.digits * 10 ^ d.exponent

/-- The digits and the places that a decimal is written with. -/
theorem value_eq (d : Decimal) :
    d.value = (d.digits * 10 ^ d.exponent.toNat : ℕ) / 10 ^ (-d.exponent).toNat := by
  have hexponent : d.exponent = (d.exponent.toNat : ℤ) - (-d.exponent).toNat := by omega
  have hpow : (10 : ℚ) ^ d.exponent = 10 ^ d.exponent.toNat / 10 ^ (-d.exponent).toNat := by
    conv_lhs => rw [hexponent]
    rw [zpow_sub₀ (by norm_num), zpow_natCast, zpow_natCast]
  rw [value, hpow]
  push_cast
  rw [mul_div_assoc]

end Decimal

/-! ### The interval -/

namespace Interval

variable {m : ℕ} {q : ℤ} {narrow : Bool}

/-- A grid point in units of the last place of a binary number. -/
def gridPoint (k : ℕ) (e q : ℤ) : ℚ :=
  k * 10 ^ e * 2 ^ (-q)

/-- Grid points are compared with the ends of the interval in quarters of the last place. -/
theorem point_eq (k : ℕ) (e q : ℤ) :
    ((k * 10 ^ e.toNat * 2 ^ (2 - q).toNat : ℕ) : ℚ) =
      4 * gridPoint k e q * (2 ^ (q - 2).toNat * 10 ^ (-e).toNat : ℕ) := by
  have hten : (10 : ℚ) ^ e * 10 ^ (-e).toNat = 10 ^ e.toNat := by
    rw [← zpow_natCast, ← zpow_natCast, ← zpow_add₀ (by norm_num)]
    congr 1
    omega
  have htwo : 4 * (2 : ℚ) ^ (-q) * 2 ^ (q - 2).toNat = 2 ^ (2 - q).toNat := by
    have hfour : (4 : ℚ) = 2 ^ (2 : ℤ) := by norm_num
    rw [hfour, ← zpow_natCast, ← zpow_natCast, ← zpow_add₀ (by norm_num), ← zpow_add₀ (by norm_num)]
    congr 1
    omega
  rw [gridPoint]
  push_cast
  rw [← hten, ← htwo]
  ring

theorem unit_pos (e q : ℤ) : (0 : ℚ) < (2 ^ (q - 2).toNat * 10 ^ (-e).toNat : ℕ) := by
  exact_mod_cast Nat.mul_pos (Nat.two_pow_pos _) (Nat.pow_pos (by decide))

theorem le_point_iff {a k : ℕ} {e q : ℤ} :
    a * 2 ^ (q - 2).toNat * 10 ^ (-e).toNat ≤ k * 10 ^ e.toNat * 2 ^ (2 - q).toNat ↔
      (a : ℚ) ≤ 4 * gridPoint k e q := by
  rw [← mul_le_mul_iff_of_pos_right (unit_pos e q), ← point_eq, ← Nat.cast_mul, Nat.cast_le,
    Nat.mul_assoc a]

theorem point_le_iff {a k : ℕ} {e q : ℤ} :
    k * 10 ^ e.toNat * 2 ^ (2 - q).toNat ≤ a * 2 ^ (q - 2).toNat * 10 ^ (-e).toNat ↔
      4 * gridPoint k e q ≤ a := by
  rw [← mul_le_mul_iff_of_pos_right (unit_pos e q), ← point_eq, ← Nat.cast_mul, Nat.cast_le,
    Nat.mul_assoc a]

/-- What a point in the interval is known to be. -/
theorem holds_iff {k : ℕ} {e : ℤ} :
    (ofBinary m q narrow).holds k e = true ↔
      if m % 2 = 0 then
        ((if narrow then 4 * m - 1 else 4 * m - 2 : ℕ) : ℚ) ≤ 4 * gridPoint k e q ∧
          4 * gridPoint k e q ≤ (4 * m + 2 : ℕ)
      else
        ((if narrow then 4 * m - 1 else 4 * m - 2 : ℕ) : ℚ) < 4 * gridPoint k e q ∧
          4 * gridPoint k e q < (4 * m + 2 : ℕ) := by
  rw [← not_le (a := 4 * gridPoint k e q), ← not_le (b := 4 * gridPoint k e q)]
  rw [← le_point_iff, ← point_le_iff, ← le_point_iff, ← point_le_iff, not_le, not_le, holds,
    ofBinary]
  dsimp only
  by_cases hm : m % 2 = 0
  · rw [if_pos (beq_iff_eq.mpr hm), if_pos hm, Bool.and_eq_true, decide_eq_true_eq,
      decide_eq_true_eq]
    exact Iff.rfl
  · rw [if_neg (by simpa using hm), if_neg hm, Bool.and_eq_true, decide_eq_true_eq,
      decide_eq_true_eq]
    exact Iff.rfl

/-- **The points of the interval round to the number it belongs to.** -/
theorem roundsTo_of_holds (hm : 0 < m) (hnarrow : IsNarrow m q → narrow = true) {k : ℕ} {e : ℤ}
    (h : (ofBinary m q narrow).holds k e = true) : RoundsTo m q (gridPoint k e q) := by
  rw [holds_iff] at h
  generalize gridPoint k e q = y at h ⊢
  have htwo : ((4 * m - 2 : ℕ) : ℚ) = 4 * m - 2 := by
    rw [Nat.cast_sub (by omega)]
    push_cast
    rfl
  have hone : ((4 * m - 1 : ℕ) : ℚ) = 4 * m - 1 := by
    rw [Nat.cast_sub (by omega)]
    push_cast
    rfl
  have hhigh : ((4 * m + 2 : ℕ) : ℚ) = 4 * m + 2 := by
    push_cast
    rfl
  have hlow : (4 * m - 2 : ℚ) ≤ ((if narrow then 4 * m - 1 else 4 * m - 2 : ℕ) : ℚ) := by
    cases narrow
    · exact htwo.ge
    · rw [if_pos rfl, hone]
      linarith
  rw [hhigh] at h
  split at h
  · -- the ends belong to the interval, but the number is even
    rename_i heven
    obtain ⟨hlow', hhigh'⟩ := h
    refine ⟨by linarith, by linarith, ?_, by omega⟩
    intro hn
    rw [hnarrow hn, if_pos rfl, hone] at hlow'
    linarith
  · obtain ⟨hlow', hhigh'⟩ := h
    refine ⟨by linarith, by linarith, ?_, ?_⟩
    · intro hn
      rw [hnarrow hn, if_pos rfl, hone] at hlow'
      linarith
    · intro hodd
      constructor <;> linarith

/-! ### The search -/

theorem holds_of_nearest {i : Interval} {e : ℤ} {d : Decimal} (h : i.nearest? e = some d) :
    i.holds d.digits d.exponent = true ∧ d.exponent = e := by
  rw [nearest?] at h
  split at h
  · rename_i hbelow habove
    split at h
    · cases h
      exact ⟨hbelow, rfl⟩
    · cases h
      exact ⟨habove, rfl⟩
  · rename_i hbelow _
    cases h
    exact ⟨hbelow, rfl⟩
  · rename_i _ habove
    cases h
    exact ⟨habove, rfl⟩
  · cases h

theorem isSome_nearest_of_holds {i : Interval} {e : ℤ}
    (h : i.holds (i.value * 10 ^ (-e).toNat / (10 ^ e.toNat * i.denominator)) e = true) :
    (i.nearest? e).isSome = true := by
  rw [nearest?]
  split
  · split <;> rfl
  · rfl
  · rfl
  · rename_i hbelow _
    exact absurd (h.symm.trans hbelow) (by decide)

/-- The number itself is a point of every fine grid. -/
theorem isSome_nearest (hm : 0 < m) {e : ℤ} (he : e ≤ 0) (hq : e ≤ q) :
    ((ofBinary m q narrow).nearest? e).isSome = true := by
  have hdvd : 10 ^ e.toNat * 2 ^ (2 - q).toNat ∣ 4 * m * 2 ^ (q - 2).toNat * 10 ^ (-e).toNat := by
    have hzero : e.toNat = 0 := by omega
    have hpow : 2 ^ (2 - q).toNat ∣ 2 ^ (2 + (-e).toNat) := pow_dvd_pow 2 (by omega)
    have hten : 4 * 10 ^ (-e).toNat = 2 ^ (2 + (-e).toNat) * 5 ^ (-e).toNat := by
      rw [pow_add, mul_assoc, ← mul_pow]
      rfl
    have hvalue : 4 * m * 2 ^ (q - 2).toNat * 10 ^ (-e).toNat =
        4 * 10 ^ (-e).toNat * (m * 2 ^ (q - 2).toNat) := by ring
    rw [hzero, pow_zero, one_mul, hvalue, hten, mul_assoc]
    exact hpow.mul_right _
  have hpoint := Nat.div_mul_cancel hdvd
  generalize hbelow : 4 * m * 2 ^ (q - 2).toNat * 10 ^ (-e).toNat /
    (10 ^ e.toNat * 2 ^ (2 - q).toNat) = below at hpoint
  rw [← mul_assoc] at hpoint
  have hgrid : 4 * gridPoint below e q = (4 * m : ℕ) :=
    le_antisymm (point_le_iff.mp hpoint.le) (le_point_iff.mp hpoint.ge)
  have hlow : (if narrow then 4 * m - 1 else 4 * m - 2) < 4 * m := by
    split <;> omega
  refine isSome_nearest_of_holds ?_
  show (ofBinary m q narrow).holds (4 * m * 2 ^ (q - 2).toNat * 10 ^ (-e).toNat /
    (10 ^ e.toNat * 2 ^ (2 - q).toNat)) e = true
  rw [hbelow, holds_iff, hgrid, Nat.cast_le, Nat.cast_le, Nat.cast_lt, Nat.cast_lt]
  split <;> omega

/-- The search finds a point of the interval, if the last grid has one. -/
theorem holds_search {i : Interval} {steps : ℕ} {e : ℤ}
    (h : (i.nearest? (e - steps)).isSome = true) :
    i.holds (i.search steps e).digits (i.search steps e).exponent = true ∧
      e - steps ≤ (i.search steps e).exponent := by
  induction steps generalizing e with
  | zero =>
    obtain ⟨d, hd⟩ := Option.isSome_iff_exists.mp h
    rw [Nat.cast_zero, sub_zero] at hd
    obtain ⟨hholds, hexponent⟩ := holds_of_nearest hd
    rw [search, hd, Option.getD_some]
    exact ⟨hholds, by omega⟩
  | succ steps ih =>
    rw [search]
    split
    · rename_i d hd
      obtain ⟨hholds, hexponent⟩ := holds_of_nearest hd
      exact ⟨hholds, by omega⟩
    · have hlast : e - (steps + 1 : ℕ) = e - 1 - steps := by omega
      rw [hlast] at h ⊢
      exact ih h

end Interval

/-- **The shortest decimal rounds to the number it is the shortest decimal of**, and it has not too
many places. -/
theorem Decimal.shortest_spec {m : ℕ} {q : ℤ} (hcanonical : Canonical m q) {narrow : Bool}
    (hnarrow : IsNarrow m q → narrow = true) :
    RoundsTo m q ((shortest m q narrow).value * 2 ^ (-q)) ∧
      -1074 ≤ (shortest m q narrow).exponent := by
  have hq := hcanonical.le
  generalize hstart : exponentAbove m q = start
  have hlow : -1074 ≤ start := by
    rw [← hstart, exponentAbove]
    omega
  generalize hsteps : (start - min q 0).toNat = steps
  have hsome : ((Interval.ofBinary m q narrow).nearest? (start - steps)).isSome = true :=
    Interval.isSome_nearest hcanonical.pos (by omega) (by omega)
  obtain ⟨hholds, hexponent⟩ := Interval.holds_search hsome
  have hshortest : shortest m q narrow = (Interval.ofBinary m q narrow).search steps start := by
    rw [shortest, hstart, hsteps]
  rw [hshortest]
  exact ⟨Interval.roundsTo_of_holds hcanonical.pos hnarrow hholds, by omega⟩

end Univariate
