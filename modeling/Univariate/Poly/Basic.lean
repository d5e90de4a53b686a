import Univariate.Number

/-!
# Polynomials in one variable

A polynomial is stored as the list of its coefficients, the constant term first. The list is kept
*trimmed*: it is not empty, and above the constant term its last entry is not a zero. So the length
of the list tells the degree, and a coefficient list that has lost its leading terms by cancellation
is never seen.

What counts as a zero is decided by `==`, which may be coarser than equality.

## Main definitions

* `trimZeros`, `IsTrimmed`: the stored form of a coefficient list.
* `Poly`: a polynomial with the name of its variable.
* `Poly.ofCoeffs`, `Poly.constant`, `Poly.monomial`: the ways to build one.
* `Poly.degree`, `Poly.termCount`, `Poly.eval`.
-/

namespace Univariate

variable {R : Type} [Zero R] [BEq R]

/-! ### Trimmed coefficient lists -/

/-- The list without the zeros at its end. -/
def dropZeros : List R → List R
  | [] => []
  | c :: cs =>
    match dropZeros cs with
    | [] => if c == 0 then [] else [c]
    | d :: ds => c :: d :: ds

/-- The list without the zeros at its end, except that the first entry always stays, and that the
empty list becomes a single zero. -/
def trimZeros : List R → List R
  | [] => [0]
  | c :: cs => c :: dropZeros cs

/-- A coefficient list as it is stored: not empty, and without a zero at its end unless that is
the constant term. -/
def IsTrimmed (cs : List R) : Prop :=
  cs ≠ [] ∧ (1 < cs.length → ∀ c ∈ cs.getLast?, (c == 0) = false)

/-- What is left of a list does not end in a zero. -/
theorem getLast?_dropZeros (cs : List R) : ∀ c ∈ (dropZeros cs).getLast?, (c == 0) = false := by
  induction cs with
  | nil => simp [dropZeros]
  | cons c cs ih =>
    rw [dropZeros]
    split
    · split
      · simp
      · rename_i hc
        simpa using hc
    · rename_i d ds hd
      rw [hd] at ih
      simpa [List.getLast?_cons_cons] using ih

theorem isTrimmed_trimZeros (cs : List R) : IsTrimmed (trimZeros cs) := by
  cases cs with
  | nil => exact ⟨by simp [trimZeros], by simp [trimZeros]⟩
  | cons c cs =>
    refine ⟨by simp [trimZeros], fun hlength => ?_⟩
    rw [trimZeros] at hlength ⊢
    cases hd : dropZeros cs with
    | nil => simp [hd] at hlength
    | cons d ds =>
      have h := getLast?_dropZeros cs
      rw [hd] at h
      simpa [List.getLast?_cons_cons] using h

/-- A list that does not end in a zero stays as it is. -/
theorem dropZeros_eq_self (cs : List R) (h : ∀ c ∈ cs.getLast?, (c == 0) = false) :
    dropZeros cs = cs := by
  induction cs with
  | nil => rfl
  | cons c cs ih =>
    cases cs with
    | nil => simp [dropZeros, h c (by simp)]
    | cons d ds => rw [dropZeros, ih fun e he => h e (by simpa [List.getLast?_cons_cons] using he)]

/-- What is dropped are zeros, and what is left is a prefix. -/
theorem exists_append_dropZeros (cs : List R) :
    ∃ zeros, cs = dropZeros cs ++ zeros ∧ ∀ c ∈ zeros, (c == 0) = true := by
  induction cs with
  | nil => exact ⟨[], rfl, by simp⟩
  | cons c cs ih =>
    obtain ⟨zeros, hcs, hzeros⟩ := ih
    rw [dropZeros]
    split
    · next hnil =>
      rw [hnil, List.nil_append] at hcs
      subst hcs
      split
      · next hc => exact ⟨c :: cs, rfl, List.forall_mem_cons.mpr ⟨hc, hzeros⟩⟩
      · exact ⟨cs, rfl, hzeros⟩
    · next d ds hcons =>
      refine ⟨zeros, ?_, hzeros⟩
      rw [← hcons, List.cons_append, ← hcs]

/-- A list in its stored form stays as it is. -/
theorem trimZeros_eq_self {cs : List R} (h : IsTrimmed cs) : trimZeros cs = cs := by
  obtain ⟨hne, hlast⟩ := h
  cases cs with
  | nil => exact absurd rfl hne
  | cons c cs =>
    cases cs with
    | nil => rfl
    | cons d ds =>
      rw [trimZeros, dropZeros_eq_self]
      intro e he
      exact hlast (by simp) e (by simpa [List.getLast?_cons_cons] using he)

/-! ### Polynomials -/

/-- A polynomial in one variable. -/
structure Poly (R : Type) [Zero R] [BEq R] where
  /-- The name of the variable. It is empty if the polynomial was made from constants only. -/
  name : String
  /-- The coefficients, the constant term first. -/
  coeffs : List R
  /-- The coefficients are in their stored form. -/
  isTrimmed : IsTrimmed coeffs

namespace Poly

/-- The polynomial with the given coefficients, the constant term first. -/
def ofCoeffs (name : String) (cs : List R) : Poly R :=
  ⟨name, trimZeros cs, isTrimmed_trimZeros cs⟩

@[simp] theorem name_ofCoeffs (name : String) (cs : List R) : (ofCoeffs name cs).name = name := rfl

@[simp] theorem coeffs_ofCoeffs (name : String) (cs : List R) :
    (ofCoeffs name cs).coeffs = trimZeros cs := rfl

/-- A constant, which mentions no variable. -/
def constant (c : R) : Poly R :=
  ofCoeffs "" [c]

/-- The polynomial `c * name ^ power`. -/
def monomial (name : String) (power : Nat) (c : R) : Poly R :=
  ofCoeffs name (List.replicate power 0 ++ [c])

/-- The degree, where every constant has degree zero. -/
def degree (p : Poly R) : Nat :=
  p.coeffs.length - 1

/-- The number of terms that are not zero. -/
def termCount (p : Poly R) : Nat :=
  p.coeffs.countP fun c => !(c == 0)

/-- The value at a point, by Horner's rule. -/
def eval [Add R] [Mul R] (p : Poly R) (x : R) : R :=
  p.coeffs.foldr (fun c value => value * x + c) 0

end Poly

end Univariate
