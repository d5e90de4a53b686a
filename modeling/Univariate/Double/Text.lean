import Univariate.Number
import Univariate.Decimal.Literal
import Univariate.Decimal.Shortest
import Univariate.Double.Basic

/-!
# Double precision numbers as text

Doubles are written with the fewest digits that read back to the same double, always without an
exponent. They are read from the usual notations, which for the point of an evaluation include an
exponent, the infinities and the undefined number.

## Main definitions

* `Double.magnitude`: the text of a double without its sign.
* `Double.read?`: the number a text stands for.
* instances of `Numeral` and `Elementary`.
-/

namespace Univariate

namespace Double

/-- The text of a double without its sign. -/
def magnitude (x : Double) : String :=
  match x.parts? with
  | none => if x.isUndefined then "NaN" else "inf"
  | some p => if p.m = 0 then "0" else (Decimal.shortest p.m p.q p.narrow).positional

/-- The double nearest to `digits * 10 ^ exponent`. Below `10 ^ (-324)` that is zero and from
`10 ^ 309` on it is infinite, so that an exponent beyond these bounds costs no computation. -/
def ofDecimal (d : Decimal) : Double :=
  if d.digits = 0 then 0
  else
    let top := (Nat.toDigits 10 d.digits).length + d.exponent
    if top ≤ -324 then 0
    else if 309 < top then infinity
    else OfScientific.ofScientific d.digits (d.exponent < 0) d.exponent.natAbs

/-- An exponent: nothing, or the letter `e`, an optional sign and some digits. -/
def readExponent? (cs : List Char) : Option Int :=
  let digits? (ds : List Char) : Option Nat :=
    if !ds.isEmpty && ds.all Char.isDigit then some (Decimal.digitsValue ds) else none
  match cs with
  | [] => some 0
  | e :: rest =>
    if e == 'e' || e == 'E' then
      match rest with
      | '+' :: ds => (digits? ds).map Int.ofNat
      | '-' :: ds => (digits? ds).map fun n => -Int.ofNat n
      | ds => (digits? ds).map Int.ofNat
    else none

/-- A decimal without its sign: digits with at most one point among them, at least one digit, and
an optional exponent. -/
def readDecimal? (cs : List Char) : Option Decimal :=
  let whole := cs.takeWhile Char.isDigit
  let rest := cs.dropWhile Char.isDigit
  let (places, rest) := match rest with
    | '.' :: r => (r.takeWhile Char.isDigit, r.dropWhile Char.isDigit)
    | r => ([], r)
  if (whole ++ places).isEmpty then none
  else (readExponent? rest).map fun e =>
    ⟨Decimal.digitsValue (whole ++ places), e - places.length⟩

/-- A number without its sign: infinity and the undefined number by name, in any case, or a
decimal. -/
def readMagnitude? (cs : List Char) : Option Double :=
  let name := String.ofList (cs.map Char.toLower)
  if name == "inf" || name == "infinity" then some infinity
  else if name == "nan" then some undefined
  else (readDecimal? cs).map ofDecimal

/-- The number a text stands for: an optional sign, then a magnitude, and nothing else. The sign of
an undefined number counts too. -/
def read? (cs : List Char) : Option Double :=
  match cs with
  | '+' :: rest => readMagnitude? rest
  | '-' :: rest => (readMagnitude? rest).map fun x => -x
  | _ => readMagnitude? cs

end Double

instance : Numeral Double where
  pi := Double.pi
  isNegative := Double.isNegative
  isFinite := Double.isFinite
  isUndefined := Double.isUndefined
  magnitude := Double.magnitude
  toNat? := Double.toNat?

instance : Elementary Double where
  pow := Double.map₂ Float.pow
  sin := Double.map Float.sin
  cos := Double.map Float.cos
  tan := Double.map Float.tan
  asin := Double.map Float.asin
  acos := Double.map Float.acos
  atan := Double.map Float.atan
  log10 := Double.map Float.log10
  ln := Double.map Float.log
  exp := Double.map Float.exp
  floor := Double.map Float.floor
  sqrt := Double.map Float.sqrt
  abs := Double.abs

end Univariate
