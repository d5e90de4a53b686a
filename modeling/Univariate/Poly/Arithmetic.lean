import Univariate.Poly.Basic

/-!
# Arithmetic of polynomials

Sums and differences are taken term by term after padding the shorter operand with zeros, products
by convolving the coefficients, and powers by repeated squaring. Every result is trimmed.

The sum of products behind a coefficient is built up in a fixed order, by adding the multiples of
the right operand one after the other to a list of zeros. With rounded arithmetic that order is part
of the result.

## Main definitions

* `Poly.neg`, `Poly.add`, `Poly.sub`, `Poly.mul`, `Poly.pow`.
* `convolve`: the coefficients of a product.
* `Poly.derivative`: the derivative, coefficient by coefficient.
-/

namespace Univariate

variable {R : Type}

/-! ### Coefficient lists -/

/-- Combines two lists entry by entry, after padding the shorter one with zeros. -/
def zipPadded [Zero R] (op : R → R → R) : List R → List R → List R
  | [], bs => bs.map (op 0)
  | a :: as, [] => (a :: as).map fun a => op a 0
  | a :: as, b :: bs => op a b :: zipPadded op as bs

/-- Adds the second list to the front of the first, entry by entry. -/
def addFront [Add R] : List R → List R → List R
  | sums, [] => sums
  | [], _ :: _ => []
  | s :: sums, x :: xs => (s + x) :: addFront sums xs

/-- Adds to a list of sums the multiples of `bs` by the entries of `as`, each one place further on
than the one before. -/
def addMultiples [Add R] [Mul R] : List R → List R → List R → List R
  | [], _, sums => sums
  | a :: as, bs, sums =>
    match addFront sums (bs.map (a * ·)) with
    | [] => []
    | s :: rest => s :: addMultiples as bs rest

/-- The coefficients of a product. -/
def convolve [Zero R] [Add R] [Mul R] (as bs : List R) : List R :=
  addMultiples as bs (List.replicate (as.length + bs.length - 1) 0)

theorem length_zipPadded [Zero R] (op : R → R → R) (as bs : List R) :
    (zipPadded op as bs).length = max as.length bs.length := by
  fun_induction zipPadded op as bs <;> simp_all

theorem length_addFront [Add R] (sums xs : List R) : (addFront sums xs).length = sums.length := by
  fun_induction addFront sums xs <;> simp_all

/-- Adding the multiples does not change the number of sums. -/
theorem length_addMultiples [Add R] [Mul R] (as bs sums : List R) :
    (addMultiples as bs sums).length = sums.length := by
  induction as generalizing sums with
  | nil => rfl
  | cons a as ih =>
    have h := length_addFront sums (bs.map (a * ·))
    rw [addMultiples]
    split
    · rename_i hnil
      rw [← h, hnil]
    · rename_i s rest hcons
      rw [← h, hcons, List.length_cons, List.length_cons, ih]

@[simp] theorem length_convolve [Zero R] [Add R] [Mul R] (as bs : List R) :
    (convolve as bs).length = as.length + bs.length - 1 := by
  simp [convolve, length_addMultiples]

/-! ### Polynomials -/

namespace Poly

variable [Zero R] [BEq R]

/-- The name of the variable of a combination: that of the operand of larger degree, and the left
one if the degrees agree. The missing name of a left operand made from constants never wins. -/
def combinedName (p q : Poly R) : String :=
  if p.degree < q.degree || p.name.isEmpty then q.name else p.name

/-- The negated polynomial. -/
def neg [Neg R] (p : Poly R) : Poly R :=
  ofCoeffs p.name (p.coeffs.map fun c => -c)

/-- The sum of two polynomials. -/
def add [Add R] (p q : Poly R) : Poly R :=
  ofCoeffs (combinedName p q) (zipPadded (· + ·) p.coeffs q.coeffs)

/-- The difference of two polynomials. -/
def sub [Sub R] (p q : Poly R) : Poly R :=
  ofCoeffs (combinedName p q) (zipPadded (· - ·) p.coeffs q.coeffs)

/-- The product of two polynomials. -/
def mul [Add R] [Mul R] (p q : Poly R) : Poly R :=
  ofCoeffs (combinedName p q) (convolve p.coeffs q.coeffs)

/-- Multiplies `result` by the power `k` of `square`, with one squaring per binary digit of `k`. The
square is not taken again once the last digit is used up. -/
def powAux [Add R] [Mul R] (result square : Poly R) (k : Nat) : Poly R :=
  if k = 0 then result
  else
    let result := if k % 2 = 1 then result.mul square else result
    if k / 2 = 0 then result else powAux result (square.mul square) (k / 2)
  termination_by k

/-- The polynomial raised to a natural power. -/
def pow [One R] [Add R] [Mul R] (p : Poly R) (k : Nat) : Poly R :=
  powAux (ofCoeffs p.name [1]) p k

/-- The derivative: each coefficient is multiplied by its power and moves down by one. -/
def derivative [NatCast R] [Mul R] (p : Poly R) : Poly R :=
  ofCoeffs p.name ((p.coeffs.zipIdx.drop 1).map fun (c, power) => (power : R) * c)

end Poly

end Univariate
