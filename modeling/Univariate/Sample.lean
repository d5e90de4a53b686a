import Univariate.Eval

/-!
# Sampling

A graph is drawn from the values of an expression at evenly spaced points. Points without a finite
value are left out, so that gaps in the samples show gaps in the domain.

## Main definitions

* `samplePoint`: the evenly spaced points of an interval.
* `Expr.sample`: the points of a graph.
-/

namespace Univariate

variable {R : Type} [Zero R] [One R] [NatCast R] [Add R] [Sub R] [Mul R] [Div R] [Neg R] [BEq R]
  [Numeral R] [Elementary R]

/-- The point number `i` when an interval is divided into the given number of steps. Without steps
there is only the first end. -/
def samplePoint (first last : R) (steps i : Nat) : R :=
  let step := if steps = 0 then 0 else (last - first) / (steps : R)
  first + step * (i : R)

/-- The points of the graph at `steps + 1` evenly spaced places from `first` to `last`, as pairs of
the place and the value there. The leftmost error leaf is reported if there is one. -/
def Expr.sample (t : Expr R) (first last : R) (steps : Nat) : Except Diagnostic (List (R × R)) :=
  match t.errorOffsets with
  | offset :: _ => .error (.errorReached offset)
  | [] => do
    let points ← (List.range (steps + 1)).mapM fun i => do
      let x := samplePoint first last steps i
      return (x, ← t.eval x)
    return points.filter fun (_, y) => Numeral.isFinite y

end Univariate
