import Mathlib.Algebra.Polynomial.BigOperators
import Univariate.Proofs.Canonical
import Univariate.Proofs.ExpandedNames
import Univariate.Proofs.Rational

/-!
# Repeated squaring

A power of a polynomial is not computed factor by factor. A loop goes through the binary digits of
the exponent, squares one polynomial over and over, and multiplies another one by it where a digit
is one. What it computes is the power all the same: convolving the coefficients of the base with
themselves, as often as the exponent says, gives the same list.

## Why no zero divisors

Every product is trimmed. That does not disturb the loop if the product of two leading coefficients
is not zero, because then nothing is ever cut off. So the polynomials of the loop have exactly the
coefficients of a power, and not only up to zeros at the end of the list, which is what makes it
possible to count how long they are.

## Why the loop does not overshoot

Before each turn, the power that is built up and the power that is squared make up the exponent
together: the one is `base ^ i`, the other `base ^ m`, and `i + m * rest` is the exponent. As long
as `rest` is not zero, `m` is at most the exponent. The square would be beyond it after the last
turn, and there it is not taken again.

## Main definitions

* `convolution`, `convolutionPower`: products and powers of coefficient lists, by their sums.
* `Squaring`, `Squaring.turn`: the state of the loop, and one turn of it.
* `Squaring.Holds`: the invariant.

## Main results

* `convolve_eq_convolution`: the coefficients of a product.
* `Squaring.Holds.turn`, `Squaring.exists_holds_iterate`: the invariant is kept.
* `Poly.coeffs_pow_eq_convolutionPower`: powers, and the degrees on the way to them.
-/

namespace Univariate

open Polynomial

variable {R : Type} [CommRing R]

/-! ### Convolution -/

/-- The product of two coefficient lists. Its entry `n` is the sum of the products of those entries
whose places add up to `n`. -/
def convolution (as bs : List R) : List R :=
  (List.range (as.length + bs.length - 1)).map fun n =>
    ∑ ij ∈ Finset.HasAntidiagonal.antidiagonal n, as.getD ij.1 0 * bs.getD ij.2 0

theorem map_addFront {S : Type} [CommRing S] (f : R →+* S) (sums cs : List R) :
    (addFront sums cs).map f = addFront (sums.map f) (cs.map f) := by
  fun_induction addFront sums cs <;> simp_all [addFront]

theorem map_addMultiples {S : Type} [CommRing S] (f : R →+* S) (as bs sums : List R) :
    (addMultiples as bs sums).map f = addMultiples (as.map f) (bs.map f) (sums.map f) := by
  induction as generalizing sums with
  | nil => rfl
  | cons a as ih =>
    have hfront : addFront (sums.map f) ((bs.map f).map (f a * ·)) =
        (addFront sums (bs.map (a * ·))).map f := by
      simp [map_addFront, Function.comp_def]
    rw [List.map_cons, addMultiples, addMultiples, hfront]
    cases addFront sums (bs.map (a * ·)) with
    | nil => rfl
    | cons s rest => rw [List.map_cons, List.map_cons, ih]

/-- It does not matter whether the numbers are mapped before or behind a convolution. -/
theorem map_convolve {S : Type} [CommRing S] (f : R →+* S) (as bs : List R) :
    (convolve as bs).map f = convolve (as.map f) (bs.map f) := by
  simp [convolve, map_addMultiples]

theorem polynomialOf_eq_horner (cs : List R) : polynomialOf cs = horner (cs.map C) X := by
  induction cs with
  | nil => rfl
  | cons c cs ih => rw [polynomialOf, List.map_cons, horner_cons, ih]

theorem polynomialOf_convolve (as bs : List R) :
    polynomialOf (convolve as bs) = polynomialOf as * polynomialOf bs := by
  simp only [polynomialOf_eq_horner, map_convolve, horner_convolve]

/-- **The coefficients of a product.** -/
theorem convolve_eq_convolution (as bs : List R) : convolve as bs = convolution as bs := by
  refine List.ext_getElem (by simp [convolution]) fun n hn _ => ?_
  rw [← List.getD_eq_getElem _ 0 hn, ← coeff_polynomialOf, polynomialOf_convolve, coeff_mul]
  simp [convolution, coeff_polynomialOf]

/-! ### Powers of coefficient lists -/

/-- A coefficient list, multiplied by itself `k` times. -/
def convolutionPower (cs : List R) : ℕ → List R
  | 0 => [1]
  | k + 1 => convolution (convolutionPower cs k) cs

theorem length_convolutionPower {cs : List R} (hcs : cs ≠ []) (k : ℕ) :
    (convolutionPower cs k).length = k * (cs.length - 1) + 1 := by
  have hpos := List.length_pos_iff.mpr hcs
  induction k with
  | zero => simp [convolutionPower]
  | succ k ih =>
    rw [convolutionPower, ← convolve_eq_convolution, length_convolve, ih, Nat.succ_mul]
    omega

theorem polynomialOf_convolutionPower (cs : List R) (k : ℕ) :
    polynomialOf (convolutionPower cs k) = polynomialOf cs ^ k := by
  induction k with
  | zero => simp [convolutionPower, polynomialOf]
  | succ k ih =>
    rw [convolutionPower, ← convolve_eq_convolution, polynomialOf_convolve, ih, pow_succ]

/-- Lists of one length are equal if they are the coefficients of one polynomial. -/
theorem eq_of_polynomialOf_eq {as bs : List R} (hlength : as.length = bs.length)
    (h : polynomialOf as = polynomialOf bs) : as = bs := by
  refine List.ext_getElem hlength fun n hn hn' => ?_
  rw [← List.getD_eq_getElem _ 0 hn, ← List.getD_eq_getElem _ 0 hn', ← coeff_polynomialOf,
    ← coeff_polynomialOf, h]

/-- **The product of two powers.** -/
theorem convolve_convolutionPower {cs : List R} (hcs : cs ≠ []) (i j : ℕ) :
    convolve (convolutionPower cs i) (convolutionPower cs j) = convolutionPower cs (i + j) := by
  refine eq_of_polynomialOf_eq ?_ ?_
  · rw [length_convolve, length_convolutionPower hcs, length_convolutionPower hcs,
      length_convolutionPower hcs, Nat.add_mul]
    omega
  · rw [polynomialOf_convolve, polynomialOf_convolutionPower, polynomialOf_convolutionPower,
      polynomialOf_convolutionPower, pow_add]

variable [BEq R]

/-- The last entry of a power is a power of the last entry, so that there is nothing to trim. -/
theorem isTrimmed_convolutionPower [LawfulBEq R] [NoZeroDivisors R] {cs : List R}
    (hcs : IsTrimmed cs) (k : ℕ) : IsTrimmed (convolutionPower cs k) := by
  have hlength := length_convolutionPower hcs.1 k
  refine ⟨List.length_pos_iff.mp (by omega), fun hlt c hc => ?_⟩
  have hdegree : 0 < k * (cs.length - 1) := by omega
  have hlong : 1 < cs.length := by
    have := Nat.pos_of_mul_pos_left hdegree
    omega
  have hlast : c = cs[cs.length - 1] ^ k := by
    have hbound : (polynomialOf cs).natDegree ≤ cs.length - 1 := by
      refine natDegree_le_iff_coeff_eq_zero.mpr fun n hn => ?_
      rw [coeff_polynomialOf, List.getD_eq_default _ _ (by omega)]
    have hcoeff := coeff_pow_of_natDegree_le (m := k) hbound
    rw [← polynomialOf_convolutionPower, coeff_polynomialOf, coeff_polynomialOf,
      List.getD_eq_getElem _ _ (by omega), List.getD_eq_getElem _ _ (by omega)] at hcoeff
    rw [List.getLast?_eq_getElem?, Option.mem_def, List.getElem?_eq_some_iff] at hc
    obtain ⟨hn, rfl⟩ := hc
    simpa [hlength] using hcoeff
  have hmem : cs[cs.length - 1] ∈ cs.getLast? := by
    rw [List.getLast?_eq_getElem?]
    exact List.getElem?_eq_getElem _
  have hne := hcs.2 hlong _ hmem
  rw [beq_eq_false_iff_ne] at hne ⊢
  rw [hlast]
  exact pow_ne_zero k hne

/-! ### The loop -/

/-- What the loop has in its hands: the power that it builds up, the power that it squares, and the
part of the exponent whose digits are still to be used. -/
structure Squaring (R : Type) [Zero R] [BEq R] where
  /-- The power that is built up. -/
  result : Poly R
  /-- The power that is squared. -/
  square : Poly R
  /-- What is left of the exponent. -/
  rest : ℕ

namespace Squaring

/-- The loop before its first turn. -/
def start (p : Poly R) (k : ℕ) : Squaring R :=
  ⟨.ofCoeffs p.name [1], p, k⟩

@[simp] theorem square_start (p : Poly R) (k : ℕ) : (start p k).square = p := rfl

@[simp] theorem rest_start (p : Poly R) (k : ℕ) : (start p k).rest = k := rfl

/-- One turn of the loop, which uses up the last digit. Nothing changes if there is none. -/
def turn (s : Squaring R) : Squaring R where
  result := if s.rest % 2 = 1 then s.result.mul s.square else s.result
  square := if s.rest / 2 = 0 then s.square else s.square.mul s.square
  rest := s.rest / 2

@[simp] theorem rest_turn (s : Squaring R) : s.turn.rest = s.rest / 2 := rfl

theorem turn_of_rest_eq_zero {s : Squaring R} (h : s.rest = 0) : s.turn = s := by
  obtain ⟨result, square, rest⟩ := s
  obtain rfl : rest = 0 := h
  simp [turn]

/-- A turn does not change what the loop computes. -/
theorem powAux_turn (s : Squaring R) :
    Poly.powAux s.turn.result s.turn.square s.turn.rest =
      Poly.powAux s.result s.square s.rest := by
  by_cases hrest : s.rest = 0
  · rw [turn_of_rest_eq_zero hrest]
  · conv_rhs => rw [Poly.powAux, if_neg hrest]
    by_cases hlast : s.rest / 2 = 0
    · simp [turn, hlast, Poly.powAux]
    · simp [turn, hlast]

/-- **The loop ends.** What it has built up by then is what it computes. -/
theorem exists_iterate_turn (s : Squaring R) :
    ∃ n, (turn^[n] s).rest = 0 ∧
      (turn^[n] s).result = Poly.powAux s.result s.square s.rest := by
  induction hk : s.rest using Nat.strongRecOn generalizing s with
  | ind k ih =>
    by_cases hzero : k = 0
    · refine ⟨0, hk.trans hzero, ?_⟩
      rw [hzero, Poly.powAux, if_pos rfl, Function.iterate_zero_apply]
    · have hless : s.turn.rest < k := by
        rw [← hk, rest_turn]
        omega
      obtain ⟨n, hrest, hresult⟩ := ih s.turn.rest hless s.turn rfl
      refine ⟨n + 1, ?_, ?_⟩
      · rwa [Function.iterate_succ_apply]
      · rw [Function.iterate_succ_apply, hresult, powAux_turn, hk]

/-! ### The invariant -/

/-- The invariant of the loop for `p` and the exponent `k`. Two powers of `p` are in its hands, with
exponents that make up `k` together with what is left. The one that is squared is not beyond the
exponent, or it is still `p` itself. -/
structure Holds (p : Poly R) (k i m : ℕ) (s : Squaring R) : Prop where
  /-- The power that is built up. -/
  result : s.result.coeffs = convolutionPower p.coeffs i
  /-- The power that is squared. -/
  square : s.square.coeffs = convolutionPower p.coeffs m
  /-- What the exponent is made up of. -/
  exponent : i + m * s.rest = k
  /-- The square does not overshoot. -/
  bound : s.square = p ∨ m ≤ k

variable {p : Poly R} {k i m : ℕ} {s : Squaring R}

theorem holds_start (p : Poly R) (k : ℕ) : (start p k).Holds p k 0 1 where
  result := rfl
  square := by
    refine (eq_of_polynomialOf_eq ?_ ?_).symm
    · have := List.length_pos_iff.mpr p.isTrimmed.1
      rw [length_convolutionPower p.isTrimmed.1, square_start]
      omega
    · rw [polynomialOf_convolutionPower, pow_one, square_start]
  exponent := by rw [rest_start, Nat.zero_add, Nat.one_mul]
  bound := .inl rfl

/-- The degree of a power. -/
theorem degree_of_coeffs_eq {q : Poly R} (h : q.coeffs = convolutionPower p.coeffs i) :
    q.degree = p.degree * i := by
  rw [Poly.degree, h, length_convolutionPower p.isTrimmed.1, Nat.add_sub_cancel, Nat.mul_comm,
    Poly.degree]

variable [LawfulBEq R] [NoZeroDivisors R]

/-- The product of two powers is a power, and trimming does not change it. -/
theorem coeffs_mul_of_coeffs_eq {a b : Poly R} (ha : a.coeffs = convolutionPower p.coeffs i)
    (hb : b.coeffs = convolutionPower p.coeffs m) :
    (a.mul b).coeffs = convolutionPower p.coeffs (i + m) := by
  rw [Poly.mul, Poly.coeffs_ofCoeffs, ha, hb, convolve_convolutionPower p.isTrimmed.1]
  exact trimZeros_eq_self (isTrimmed_convolutionPower p.isTrimmed _)

/-- **One turn keeps the invariant.** The digit that is used up moves the square into the result,
and the square is taken only if there are digits left for it. -/
theorem Holds.turn (h : s.Holds p k i m) : ∃ i' m', s.turn.Holds p k i' m' := by
  have hdigits : s.rest = 2 * (s.rest / 2) + s.rest % 2 := (Nat.div_add_mod s.rest 2).symm
  have hexponent : i + m * (s.rest % 2) + 2 * (m * (s.rest / 2)) = k := by
    rw [← h.exponent]
    conv_rhs => rw [hdigits]
    ring
  have hresult : s.turn.result.coeffs = convolutionPower p.coeffs (i + m * (s.rest % 2)) := by
    rw [Squaring.turn]
    split
    · next hodd =>
      rw [hodd, Nat.mul_one]
      exact coeffs_mul_of_coeffs_eq h.result h.square
    · next heven =>
      rw [show s.rest % 2 = 0 by omega]
      exact h.result
  by_cases hlast : s.rest / 2 = 0
  · have hsquare : s.turn.square = s.square := if_pos hlast
    refine ⟨_, m, hresult, ?_, ?_, ?_⟩
    · rw [hsquare, h.square]
    · rw [rest_turn, hlast, ← hexponent, hlast, Nat.mul_zero, Nat.mul_zero]
    · rw [hsquare]
      exact h.bound
  · have hsquare : s.turn.square = s.square.mul s.square := if_neg hlast
    refine ⟨_, m + m, hresult, ?_, ?_, .inr ?_⟩
    · rw [hsquare, coeffs_mul_of_coeffs_eq h.square h.square]
    · rw [rest_turn, ← hexponent]
      ring
    · have := Nat.le_mul_of_pos_right m (Nat.pos_of_ne_zero hlast)
      omega

/-- **Every turn of the loop has the invariant.** -/
theorem exists_holds_iterate (p : Poly R) (k n : ℕ) :
    ∃ i m, (Squaring.turn^[n] (start p k)).Holds p k i m := by
  induction n with
  | zero => exact ⟨0, 1, holds_start p k⟩
  | succ n ih =>
    obtain ⟨i, m, h⟩ := ih
    rw [Function.iterate_succ_apply']
    exact h.turn

omit [LawfulBEq R] [NoZeroDivisors R] in
theorem Holds.result_degree_le (h : s.Holds p k i m) : s.result.degree ≤ p.degree * k := by
  rw [degree_of_coeffs_eq h.result]
  exact Nat.mul_le_mul_left _ (by rw [← h.exponent]; exact Nat.le_add_right ..)

omit [LawfulBEq R] [NoZeroDivisors R] in
theorem Holds.square_degree_le (h : s.Holds p k i m) :
    s.square = p ∨ s.square.degree ≤ p.degree * k := by
  refine h.bound.imp_right fun hm => ?_
  rw [degree_of_coeffs_eq h.square]
  exact Nat.mul_le_mul_left _ hm

end Squaring

/-! ### Powers -/

/-- **Repeated squaring is repeated multiplication.** A power has the coefficients and the name that
it would have if the base were multiplied by itself one factor at a time. The loop comes to its end
with that power, and on the way there no polynomial has a larger degree than the power, or than the
base if the exponent is zero. So nothing that is built for a power within the bound on the degree is
beyond that bound. -/
theorem Poly.coeffs_pow_eq_convolutionPower [LawfulBEq R] [NoZeroDivisors R] (p : Poly R)
    (k : ℕ) :
    (p.pow k).coeffs = convolutionPower p.coeffs k ∧ (p.pow k).name = p.name ∧
      (∃ n, (Squaring.turn^[n] (.start p k)).rest = 0 ∧
        (Squaring.turn^[n] (.start p k)).result = p.pow k) ∧
      (∀ n, (Squaring.turn^[n] (.start p k)).result.degree ≤ p.degree * max k 1 ∧
        (Squaring.turn^[n] (.start p k)).square.degree ≤ p.degree * max k 1) ∧
      ∀ q, Expr.expandPower? p k = some q → q = p.pow k ∧ ∀ n,
        (Squaring.turn^[n] (.start p k)).result.degree ≤ maxDegree ∧
          ((Squaring.turn^[n] (.start p k)).square = p ∨
            (Squaring.turn^[n] (.start p k)).square.degree ≤ maxDegree) := by
  obtain ⟨n, hrest, hresult⟩ := Squaring.exists_iterate_turn (.start p k)
  have hpow : (Squaring.turn^[n] (.start p k)).result = p.pow k := hresult
  have hmax : p.degree * k ≤ p.degree * max k 1 := Nat.mul_le_mul_left _ (Nat.le_max_left ..)
  refine ⟨?_, name_pow p k, ⟨n, hrest, hpow⟩, fun n => ?_, fun q hq => ?_⟩
  · obtain ⟨i, m, h⟩ := Squaring.exists_holds_iterate p k n
    have hi : i = k := by
      have := h.exponent
      rwa [hrest] at this
    rw [← hpow, h.result, hi]
  · obtain ⟨i, m, h⟩ := Squaring.exists_holds_iterate p k n
    refine ⟨h.result_degree_le.trans hmax, ?_⟩
    obtain hsquare | hsquare := h.square_degree_le
    · rw [hsquare]
      exact Nat.le_mul_of_pos_right _ (by omega)
    · exact hsquare.trans hmax
  · rw [Expr.expandPower?, Option.ite_none_right_eq_some] at hq
    obtain ⟨hbound, hq⟩ := hq
    refine ⟨(Option.some.inj hq).symm, fun n => ?_⟩
    obtain ⟨i, m, h⟩ := Squaring.exists_holds_iterate p k n
    exact ⟨h.result_degree_le.trans hbound, h.square_degree_le.imp_right (·.trans hbound)⟩

/-- The seventh power of `x + 1`, on the way to which no square has a larger degree. -/
theorem Poly.coeffs_pow_eq_convolutionPower_seventh :
    let p : Poly ℚ := .ofCoeffs "x" [1, 1]
    (p.pow 7).coeffs = [1, 7, 21, 35, 35, 21, 7, 1] ∧ (p.pow 7).name = "x" ∧
      ∀ n, (Squaring.turn^[n] (.start p 7)).square.degree ≤ 7 := by
  intro p
  obtain ⟨hcoeffs, hname, -, hdegree, -⟩ := coeffs_pow_eq_convolutionPower p 7
  have hpower : convolutionPower p.coeffs 7 = [1, 7, 21, 35, 35, 21, 7, 1] := by
    decide +kernel
  have hone : p.degree * max 7 1 = 7 := by
    decide +kernel
  exact ⟨hcoeffs.trans hpower, hname, fun n => (hdegree n).2.trans hone.le⟩

end Univariate
