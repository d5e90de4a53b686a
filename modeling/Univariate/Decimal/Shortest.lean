/-!
# Shortest decimals

A binary number `m * 2 ^ q` of limited precision stands for all the real numbers that round to it.
Its shortest decimal is the one with the fewest digits among them, and the nearest to the number
itself where several are equally short. It is found by trying ever finer decimal grids: the first
grid with a point in the interval wins, and of two points on that grid the nearer one, the upper
one if both are equally near.

## Main definitions

* `Decimal`: a number `digits * 10 ^ exponent`.
* `Decimal.positional`: its text without an exponent.
* `Interval`: the numbers that round to a binary number.
* `Interval.shortest`: the shortest decimal in it.

## Implementation notes

The ends of the interval and the number itself are naturals over one common denominator, so that
all comparisons are exact. The search needs no bound on the number of digits: the number itself
lies on the grid `10 ^ min q 0`, so the search ends there at the latest. Powers are written with
`Nat.pow`, since what `^` stands for depends on which algebraic structures are in scope.
-/

namespace Univariate

/-- The number `digits * 10 ^ exponent`. -/
structure Decimal where
  /-- The digits, read as one natural number. -/
  digits : Nat
  /-- The power of ten the digits are multiplied by. -/
  exponent : Int

/-- The text of a decimal without an exponent: zeros fill the places between the digits and the
point, and a point is written only in front of a digit. -/
def Decimal.positional (d : Decimal) : String :=
  let digits := Nat.toDigits 10 d.digits
  if 0 ≤ d.exponent then
    String.ofList (digits ++ List.replicate d.exponent.toNat '0')
  else
    let places := (-d.exponent).toNat
    let padded := List.replicate (places + 1 - digits.length) '0' ++ digits
    String.ofList
      (padded.take (padded.length - places) ++ '.' :: padded.drop (padded.length - places))

/-- The real numbers that round to a positive binary number. The three fields `low`, `value` and
`high` are numerators over `denominator`. -/
structure Interval where
  /-- The lower end. -/
  low : Nat
  /-- The number itself. -/
  value : Nat
  /-- The upper end. -/
  high : Nat
  /-- The common denominator. -/
  denominator : Nat
  /-- Whether the two ends belong to the interval. -/
  closed : Bool

/-- The interval of `m * 2 ^ q`: it reaches half way to the two neighbours. The neighbour below is
only half as far away if `narrow` holds. Numbers half way between two others go to the even one, so
the ends belong to the interval if `m` is even. -/
def Interval.ofBinary (m : Nat) (q : Int) (narrow : Bool) : Interval :=
  let scale := Nat.pow 2 (q - 2).toNat
  { low := (if narrow then 4 * m - 1 else 4 * m - 2) * scale
    value := 4 * m * scale
    high := (4 * m + 2) * scale
    denominator := Nat.pow 2 (2 - q).toNat
    closed := m % 2 == 0 }

/-- Whether `k * 10 ^ e` lies in the interval. -/
def Interval.holds (i : Interval) (k : Nat) (e : Int) : Bool :=
  let point := k * Nat.pow 10 e.toNat * i.denominator
  let low := i.low * Nat.pow 10 (-e).toNat
  let high := i.high * Nat.pow 10 (-e).toNat
  if i.closed then low ≤ point && point ≤ high else low < point && point < high

/-- The point of the grid `10 ^ e` that lies in the interval and is nearest to its value, if there
is one. Only the two grid points around the value have to be looked at. -/
def Interval.nearest? (i : Interval) (e : Int) : Option Decimal :=
  let value := i.value * Nat.pow 10 (-e).toNat
  let step := Nat.pow 10 e.toNat * i.denominator
  let below := value / step
  match i.holds below e, i.holds (below + 1) e with
  | true, true =>
    if 2 * value < (2 * below + 1) * step then some ⟨below, e⟩ else some ⟨below + 1, e⟩
  | true, false => some ⟨below, e⟩
  | false, true => some ⟨below + 1, e⟩
  | false, false => none

/-- The nearest point on the coarsest of the grids `10 ^ e`, `10 ^ (e - 1)`, ... that has one, after
`steps` refinements at the latest. -/
def Interval.search (i : Interval) : Nat → Int → Decimal
  | 0, e =>
    (i.nearest? e).getD
      ⟨i.value * Nat.pow 10 (-e).toNat / (Nat.pow 10 e.toNat * i.denominator), e⟩
  | steps + 1, e =>
    match i.nearest? e with
    | some d => d
    | none => i.search steps (e - 1)

/-- An exponent `e` with `m * 2 ^ q < 10 ^ (e - 1)`, from the number of binary digits of `m`; the
factor is a little more than the logarithm of two to base ten. -/
def exponentAbove (m : Nat) (q : Int) : Int :=
  (Nat.log2 m + 1 + q) * 30103 / 100000 + 2

/-- The shortest decimal that rounds to the positive number `m * 2 ^ q`. -/
def Decimal.shortest (m : Nat) (q : Int) (narrow : Bool) : Decimal :=
  let start := exponentAbove m q
  (Interval.ofBinary m q narrow).search (start - min q 0).toNat start

end Univariate
