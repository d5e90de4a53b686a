/-!
# Double precision numbers

The numbers a session computes with are IEEE doubles: a sign bit, eleven bits for the exponent and
fifty-two for the fraction. They are given by these bits and not as `Float`, because an undefined
number has a sign too, which shows where a number is printed and which `Float` does not tell.

Arithmetic is that of `Float`, and only an undefined result needs a rule of its own. If an operand
is undefined, the result is the first such operand, so that its sign is passed on. Otherwise the
result is newly undefined, and it carries a minus sign. To change a sign is to change the sign bit
alone, of an undefined number as of any other.

## Main definitions

* `Double`: the numbers.
* `Double.isNegative`, `Double.isFinite`, `Double.isUndefined`: what the bits tell.
* `Double.parts?`: a finite double as a sign and a number `m * 2 ^ q`.
* `Double.ofResult`: the double that an operation on `Float` results in.
-/

namespace Univariate

/-- An IEEE double, as its bits. -/
structure Double where
  /-- The sign bit, the biased exponent and the fraction, the sign bit being the highest. -/
  bits : UInt64

namespace Double

/-! ### Looking at the bits -/

/-- The exponent as it is stored, which is 1075 more than the power of two that belongs to the last
place of a number, except that the smallest numbers share the power of the exponent one. -/
def exponentField (x : Double) : UInt64 :=
  x.bits >>> 52 &&& 0x7FF

/-- The fraction, which leaves out the leading binary digit. -/
def fractionField (x : Double) : UInt64 :=
  x.bits &&& 0xFFFFFFFFFFFFF

/-- Whether the sign bit is set. -/
def isNegative (x : Double) : Bool :=
  x.bits >>> 63 == 1

/-- Whether the number is neither infinite nor undefined. -/
def isFinite (x : Double) : Bool :=
  x.exponentField != 0x7FF

/-- Whether the number is the result of an operation outside its domain. -/
def isUndefined (x : Double) : Bool :=
  !x.isFinite && x.fractionField != 0

/-- A finite number `± m * 2 ^ q`. -/
structure Parts where
  /-- Whether the sign bit is set. -/
  negative : Bool
  /-- The significand. -/
  m : Nat
  /-- The power of two the significand is multiplied by. -/
  q : Int
  /-- Whether the gap to the next smaller magnitude is half the gap to the next greater one. -/
  narrow : Bool

/-- Sign, significand and exponent of a finite number. -/
def parts? (x : Double) : Option Parts :=
  if x.isFinite then
    let exponent := x.exponentField.toNat
    let fraction := x.fractionField.toNat
    if exponent = 0 then some ⟨x.isNegative, fraction, -1074, false⟩
    else
      some ⟨x.isNegative, 0x10000000000000 + fraction, (exponent : Int) - 1075,
        fraction == 0 && 1 < exponent⟩
  else none

/-- The natural number a double equals. Both zeros equal the natural zero. -/
def toNat? (x : Double) : Option Nat :=
  match x.parts? with
  | none => none
  | some p =>
    let scaled := p.m * Nat.pow 2 p.q.toNat
    let unit := Nat.pow 2 (-p.q).toNat
    if (p.negative && p.m != 0) || scaled % unit != 0 then none else some (scaled / unit)

/-! ### Particular numbers -/

/-- Infinity. -/
def infinity : Double := ⟨0x7FF0000000000000⟩

/-- The undefined number without a sign. -/
def undefined : Double := ⟨0x7FF8000000000000⟩

/-- The double nearest to π. -/
def pi : Double := ⟨0x400921FB54442D18⟩

instance : Zero Double where
  zero := ⟨0⟩

instance : One Double where
  one := ⟨0x3FF0000000000000⟩

/-- Counts become numbers by rounding to nearest. -/
instance : NatCast Double where
  natCast n := ⟨(Float.ofNat n).toBits⟩

/-- Decimals become numbers by rounding to nearest. -/
instance : OfScientific Double where
  ofScientific digits negativeExponent exponent :=
    ⟨(Float.ofScientific digits negativeExponent exponent).toBits⟩

/-! ### Operations -/

/-- The number with the other sign. -/
instance : Neg Double where
  neg x := ⟨x.bits ^^^ 0x8000000000000000⟩

@[simp] theorem bits_neg (x : Double) : (-x).bits = x.bits ^^^ 0x8000000000000000 := rfl

/-- Changing the sign twice changes nothing. -/
theorem neg_neg (x : Double) : - -x = x :=
  congrArg mk (by rw [bits_neg, UInt64.xor_assoc, UInt64.xor_self, UInt64.xor_zero])

/-- Changing the sign changes the sign bit. -/
theorem isNegative_neg (x : Double) : (-x).isNegative = !x.isNegative := by
  have hbit : x.bits >>> 63 = 0 ∨ x.bits >>> 63 = 1 := by
    have hlt : (x.bits >>> 63).toNat < 2 := by
      rw [UInt64.toNat_shiftRight, Nat.shiftRight_eq_div_pow]
      have := x.bits.toNat_lt
      exact Nat.div_lt_of_lt_mul (by simpa using this)
    obtain h | h : (x.bits >>> 63).toNat = 0 ∨ (x.bits >>> 63).toNat = 1 := by omega
    · exact Or.inl (UInt64.toNat_inj.mp h)
    · exact Or.inr (UInt64.toNat_inj.mp h)
  obtain h | h := hbit <;> simp [isNegative, UInt64.shiftRight_xor, h] <;> decide

/-- The number without its sign. -/
def abs (x : Double) : Double :=
  ⟨x.bits &&& 0x7FFFFFFFFFFFFFFF⟩

/-- The same number as a `Float`. -/
def toFloat (x : Double) : Float :=
  Float.ofBits x.bits

/-- The result of an operation on some operands, from what it is as a `Float`. -/
def ofResult (operands : List Double) (result : Float) : Double :=
  if result.isNaN then (operands.find? isUndefined).getD (-undefined) else ⟨result.toBits⟩

/-- An operation on one operand. -/
def map (f : Float → Float) (x : Double) : Double :=
  ofResult [x] (f x.toFloat)

/-- An operation on two operands. -/
def map₂ (f : Float → Float → Float) (x y : Double) : Double :=
  ofResult [x, y] (f x.toFloat y.toFloat)

instance : Add Double where
  add := map₂ (· + ·)

instance : Sub Double where
  sub := map₂ (· - ·)

instance : Mul Double where
  mul := map₂ (· * ·)

instance : Div Double where
  div := map₂ (· / ·)

/-- Both zeros are equal, and an undefined number equals nothing, not even itself. -/
instance : BEq Double where
  beq x y := x.toFloat == y.toFloat

end Double

end Univariate
