import Mathlib.Tactic.LinearCombination
import Mathlib.Tactic.Ring
import Univariate.Poly.Arithmetic

/-!
# Values of polynomials

Over a commutative ring whose zero test is exact, the arithmetic of polynomials is that of their
values: trimming changes no value, and the value of a sum, difference, product or power is the sum,
difference, product or power of the values.

## Why one lemma for all paddings

Sums and differences pad the shorter operand with zeros. What makes both of them agree with the
values is the same fact about the operation, that it acts on the two parts of `a * x + b`
separately. `horner_zipPadded` is stated for every such operation.

## The invariant of a convolution

A product is built up in a list of sums, which starts out as zeros. While the multiples by the
entries of `as` are added, the value of the sums grows by the value of `as` times that of `bs`. The
sums must be long enough for the last multiple, or its end would be lost; that is the only place
where the length chosen by `convolve` matters.

## Main results

* `Poly.eval_neg`, `Poly.eval_add`, `Poly.eval_sub`, `Poly.eval_mul`, `Poly.eval_pow`.
* `Poly.eval_constant`, `Poly.eval_monomial`.
-/

namespace Univariate

variable {R : Type} [CommRing R]

/-! ### Horner's rule on coefficient lists -/

/-- The value of a coefficient list at `x`, by Horner's rule. -/
def horner (cs : List R) (x : R) : R :=
  cs.foldr (fun c value => value * x + c) 0

@[simp] theorem horner_nil (x : R) : horner ([] : List R) x = 0 := rfl

@[simp] theorem horner_cons (c : R) (cs : List R) (x : R) :
    horner (c :: cs) x = horner cs x * x + c := rfl

theorem horner_map_mul (a : R) (cs : List R) (x : R) :
    horner (cs.map (a * ·)) x = a * horner cs x := by
  induction cs with
  | nil => simp
  | cons c cs ih =>
    rw [List.map_cons, horner_cons, horner_cons, ih]
    ring

theorem horner_map_neg (cs : List R) (x : R) : horner (cs.map fun c => -c) x = -horner cs x := by
  induction cs with
  | nil => simp
  | cons c cs ih =>
    rw [List.map_cons, horner_cons, horner_cons, ih]
    ring

/-- A list of zeros with one more entry at its end is a single term. -/
theorem horner_replicate_append (n : ℕ) (c x : R) :
    horner (List.replicate n 0 ++ [c]) x = c * x ^ n := by
  induction n with
  | zero => simp
  | succ n ih =>
    rw [List.replicate_succ, List.cons_append, horner_cons, ih]
    ring

@[simp] theorem horner_replicate_zero (n : ℕ) (x : R) : horner (List.replicate n 0) x = 0 := by
  induction n with
  | zero => rfl
  | succ n ih => rw [List.replicate_succ, horner_cons, ih, zero_mul, zero_add]

/-- Padding with zeros does no harm to an operation that acts on the two parts of `a * x + b`
separately. -/
theorem horner_zipPadded {op : R → R → R} {x : R} (hzero : op 0 0 = 0)
    (hop : ∀ a b c d, op (a * x + b) (c * x + d) = op a c * x + op b d) (as bs : List R) :
    horner (zipPadded op as bs) x = op (horner as x) (horner bs x) := by
  have hleft : ∀ cs : List R, horner (cs.map (op 0)) x = op 0 (horner cs x) := by
    intro cs
    induction cs with
    | nil => exact hzero.symm
    | cons c cs ih =>
      have h := hop 0 0 (horner cs x) c
      rw [zero_mul, zero_add] at h
      rw [List.map_cons, horner_cons, horner_cons, ih, h]
  have hright : ∀ cs : List R, horner (cs.map fun c => op c 0) x = op (horner cs x) 0 := by
    intro cs
    induction cs with
    | nil => exact hzero.symm
    | cons c cs ih =>
      have h := hop (horner cs x) c 0 0
      rw [zero_mul, zero_add] at h
      rw [List.map_cons, horner_cons, horner_cons, ih, h]
  induction as generalizing bs with
  | nil => rw [zipPadded, hleft, horner_nil]
  | cons a as ih =>
    cases bs with
    | nil => rw [zipPadded, hright, horner_nil]
    | cons b bs => rw [zipPadded, horner_cons, horner_cons, horner_cons, ih, hop]

/-! ### Convolution -/

/-- Nothing is lost if the sums are at least as long as what is added to them. -/
theorem horner_addFront {sums cs : List R} (hle : cs.length ≤ sums.length) (x : R) :
    horner (addFront sums cs) x = horner sums x + horner cs x := by
  induction cs generalizing sums with
  | nil => cases sums <;> simp [addFront]
  | cons c cs ih =>
    cases sums with
    | nil => simp at hle
    | cons s sums =>
      rw [addFront, horner_cons, horner_cons, horner_cons, ih (Nat.le_of_succ_le_succ hle)]
      ring

/-- **The invariant of a convolution.** Adding the multiples of `bs` by the entries of `as` adds the
product of the two values. -/
theorem horner_addMultiples {as bs sums : List R}
    (hle : as.length + bs.length ≤ sums.length + 1) (x : R) :
    horner (addMultiples as bs sums) x = horner sums x + horner as x * horner bs x := by
  induction as generalizing sums with
  | nil => simp [addMultiples]
  | cons a as ih =>
    rw [List.length_cons] at hle
    have hfront : horner (addFront sums (bs.map (a * ·))) x = horner sums x + a * horner bs x := by
      rw [horner_addFront (by rw [List.length_map]; omega), horner_map_mul]
    have hlength := length_addFront sums (bs.map (a * ·))
    rw [addMultiples]
    cases hsums : addFront sums (bs.map (a * ·)) with
    | nil =>
      -- no sums at all, so that `bs` has no entries either
      rw [hsums, List.length_nil] at hlength
      obtain rfl : bs = [] := List.eq_nil_of_length_eq_zero (by omega)
      obtain rfl : sums = [] := List.eq_nil_of_length_eq_zero hlength.symm
      simp
    | cons s rest =>
      rw [hsums, List.length_cons] at hlength
      rw [hsums, horner_cons] at hfront
      rw [horner_cons, horner_cons, ih (by omega)]
      linear_combination hfront

theorem horner_convolve (as bs : List R) (x : R) :
    horner (convolve as bs) x = horner as x * horner bs x := by
  rw [convolve, horner_addMultiples (by rw [List.length_replicate]; omega),
    horner_replicate_zero, zero_add]

/-! ### Trimming -/

variable [BEq R] [LawfulBEq R]

theorem horner_dropZeros (cs : List R) (x : R) : horner (dropZeros cs) x = horner cs x := by
  induction cs with
  | nil => rfl
  | cons c cs ih =>
    rw [dropZeros, horner_cons, ← ih]
    cases dropZeros cs with
    | nil =>
      by_cases hc : c = 0
      · simp [hc]
      · simp [hc]
    | cons d ds => rfl

theorem horner_trimZeros (cs : List R) (x : R) : horner (trimZeros cs) x = horner cs x := by
  cases cs with
  | nil => simp [trimZeros]
  | cons c cs => rw [trimZeros, horner_cons, horner_cons, horner_dropZeros]

/-! ### Polynomials -/

namespace Poly

omit [LawfulBEq R] in
theorem eval_eq_horner (p : Poly R) (x : R) : p.eval x = horner p.coeffs x := rfl

@[simp] theorem eval_ofCoeffs (name : String) (cs : List R) (x : R) :
    (ofCoeffs name cs).eval x = horner cs x :=
  horner_trimZeros cs x

theorem eval_constant (c x : R) : (constant c).eval x = c := by
  simp [constant]

theorem eval_monomial (name : String) (power : ℕ) (c x : R) :
    (monomial name power c).eval x = c * x ^ power := by
  rw [monomial, eval_ofCoeffs, horner_replicate_append]

theorem eval_neg (p : Poly R) (x : R) : p.neg.eval x = -p.eval x := by
  rw [neg, eval_ofCoeffs, horner_map_neg, eval_eq_horner]

theorem eval_add (p q : Poly R) (x : R) : (p.add q).eval x = p.eval x + q.eval x := by
  rw [add, eval_ofCoeffs, horner_zipPadded (add_zero 0) (fun a b c d => by ring)]
  rfl

theorem eval_sub (p q : Poly R) (x : R) : (p.sub q).eval x = p.eval x - q.eval x := by
  rw [sub, eval_ofCoeffs, horner_zipPadded (sub_zero 0) (fun a b c d => by ring)]
  rfl

theorem eval_mul (p q : Poly R) (x : R) : (p.mul q).eval x = p.eval x * q.eval x := by
  rw [mul, eval_ofCoeffs, horner_convolve]
  rfl

/-- What one round of repeated squaring preserves: `result * square ^ k`. -/
theorem eval_powAux (result square : Poly R) (k : ℕ) (x : R) :
    (powAux result square k).eval x = result.eval x * square.eval x ^ k := by
  induction k using Nat.strong_induction_on generalizing result square with
  | _ k ih =>
    rw [powAux]
    split
    · next hk => rw [hk, pow_zero, mul_one]
    · next hk =>
      have hdigits : k = 2 * (k / 2) + k % 2 := (Nat.div_add_mod k 2).symm
      have hdigit : (if k % 2 = 1 then result.mul square else result).eval x =
          result.eval x * square.eval x ^ (k % 2) := by
        split
        · next hodd => rw [eval_mul, hodd, pow_one]
        · next heven => rw [show k % 2 = 0 by omega, pow_zero, mul_one]
      dsimp only
      split
      · next hlast => rw [hdigit, show k % 2 = k by omega]
      · rw [ih (k / 2) (by omega), eval_mul, hdigit]
        conv_rhs => rw [hdigits]
        ring

theorem eval_pow (p : Poly R) (k : ℕ) (x : R) : (p.pow k).eval x = p.eval x ^ k := by
  rw [pow, eval_powAux, eval_ofCoeffs]
  simp

end Poly

end Univariate
