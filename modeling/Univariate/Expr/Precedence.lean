import Univariate.Expr.Basic

/-!
# Precedence and grouping

How tightly the text of a tree binds decides where parentheses are needed. The constructors of this
file add them while a tree is built, so that its plain text reads back as the same tree.

## Main definitions

* `Precedence`: the levels, from the loosest to the tightest.
* `Expr.precedence`: the level of the text of a tree.
* `Expr.binaryGrouped`, `Expr.negated`: constructors that add parentheses.
-/

namespace Univariate

/-- How tightly an operation binds, from the loosest to the tightest. -/
inductive Precedence where
  /-- Sums and differences. -/
  | term
  /-- Products and quotients. -/
  | factor
  /-- Negation. -/
  | neg
  /-- Powers. -/
  | exp
  /-- Everything that brings its own delimiters, and single names and numbers. -/
  | primary
  deriving DecidableEq, Repr

/-- The position of a level among all levels. -/
def Precedence.rank : Precedence → Nat
  | .term => 0
  | .factor => 1
  | .neg => 2
  | .exp => 3
  | .primary => 4

instance : LE Precedence where
  le p q := p.rank ≤ q.rank

instance : LT Precedence where
  lt p q := p.rank < q.rank

instance (p q : Precedence) : Decidable (p ≤ q) :=
  inferInstanceAs (Decidable (p.rank ≤ q.rank))

instance (p q : Precedence) : Decidable (p < q) :=
  inferInstanceAs (Decidable (p.rank < q.rank))

/-- The level of a binary operation. -/
def BinaryOp.precedence : BinaryOp → Precedence
  | .plus | .minus => .term
  | .times | .div => .factor
  | .pow => .exp

namespace Expr

variable {R : Type} [Zero R] [BEq R] [Numeral R]

/-- How tightly the plain text of a polynomial binds: as a sum if it has several terms, as a product
if it mentions the variable, and otherwise as its constant term, whose sign is a negation. -/
def polyPrecedence (p : Poly R) : Precedence :=
  if 1 < p.termCount then .term
  else if 0 < p.degree then .factor
  else if p.coeffs.head?.any fun c => Numeral.hasMinus c && !(c == 0) then .neg
  else .primary

/-- How tightly the plain text of a tree binds. The sign of a number is a negation, for the negative
zero and an undefined number too. -/
def precedence : Expr R → Precedence
  | .binary op _ _ => op.precedence
  | .unary .negate _ => .neg
  | .poly p => polyPrecedence p
  | .const c => if Numeral.isNegative c then .neg else .primary
  | _ => .primary

/-- Puts a tree into parentheses unless they are not needed. -/
def groupUnless (bare : Bool) (t : Expr R) : Expr R :=
  if bare then t else group t

/-- A binary operation whose operands get parentheses where they bind too loosely. Operations of one
level are read from left to right, and powers from right to left. -/
def binaryGrouped (op : BinaryOp) (l r : Expr R) : Expr R :=
  match op with
  | .pow =>
    .binary op (l.groupUnless (op.precedence < l.precedence))
      (r.groupUnless (op.precedence ≤ r.precedence))
  | _ =>
    .binary op (l.groupUnless (op.precedence ≤ l.precedence))
      (r.groupUnless (op.precedence < r.precedence))

/-- The negative of a tree, which gets parentheses if it binds more loosely than a negation. -/
def negated (u : Expr R) : Expr R :=
  negate (u.groupUnless (.neg ≤ u.precedence))

end Expr

end Univariate
