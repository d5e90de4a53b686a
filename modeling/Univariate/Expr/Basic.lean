import Univariate.Poly.Basic

/-!
# Expression trees

An expression in one variable is a tree. Parentheses that were written stay in the tree as nodes of
their own, so that an expression is shown the way it was written, and a part of a text that could
not be understood stays in it as an error leaf.

## Main definitions

* `Func`: the functions that can be called by name.
* `UnaryOp`, `BinaryOp`: the operations of inner nodes.
* `Expr`: the trees.
* `Expr.Kind`: what a node is, without its contents.
* `Expr.children`, `Expr.innermost`, `Expr.leftmost`, `Expr.size`: looking into a tree.
-/

namespace Univariate

/-! ### Operations -/

/-- A function that is called by its name, as in `sin(x)`. -/
inductive Func where
  /-- Sine. -/
  | sin
  /-- Cosine. -/
  | cos
  /-- Tangent. -/
  | tan
  /-- Cotangent. -/
  | cot
  /-- Secant. -/
  | sec
  /-- Cosecant. -/
  | csc
  /-- Inverse sine. -/
  | arcsin
  /-- Inverse cosine. -/
  | arccos
  /-- Inverse tangent. -/
  | arctan
  /-- Inverse cotangent. -/
  | arccot
  /-- Inverse secant. -/
  | arcsec
  /-- Inverse cosecant. -/
  | arccsc
  /-- Logarithm to base ten. -/
  | log
  /-- Natural logarithm. -/
  | ln
  /-- Rounding down. -/
  | floor
  /-- Square root. -/
  | sqrt
  /-- Absolute value. -/
  | abs
  deriving DecidableEq, Repr

/-- The name a function is called by. -/
def Func.name : Func → String
  | .sin => "sin"
  | .cos => "cos"
  | .tan => "tan"
  | .cot => "cot"
  | .sec => "sec"
  | .csc => "csc"
  | .arcsin => "arcsin"
  | .arccos => "arccos"
  | .arctan => "arctan"
  | .arccot => "arccot"
  | .arcsec => "arcsec"
  | .arccsc => "arccsc"
  | .log => "log"
  | .ln => "ln"
  | .floor => "floor"
  | .sqrt => "sqrt"
  | .abs => "abs"

/-- All functions. -/
def Func.all : List Func :=
  [.sin, .cos, .tan, .cot, .sec, .csc, .arcsin, .arccos, .arctan, .arccot, .arcsec, .arccsc, .log,
    .ln, .floor, .sqrt, .abs]

/-- The function of a name. -/
def Func.ofName? (name : String) : Option Func :=
  Func.all.find? fun f => f.name == name

/-- The operation of a node with one child. -/
inductive UnaryOp where
  /-- Negation, `-u`. -/
  | negate
  /-- Parentheses, `(u)`, which do not change the value. -/
  | group
  /-- The exponential `e^u`. -/
  | exp
  /-- The reciprocal `1/u`. -/
  | reciprocal
  /-- A function called by its name. -/
  | call (f : Func)
  deriving DecidableEq, Repr

/-- The operation of a node with two children. -/
inductive BinaryOp where
  /-- Addition. -/
  | plus
  /-- Subtraction. -/
  | minus
  /-- Multiplication. -/
  | times
  /-- Division. -/
  | div
  /-- Raising to a power. -/
  | pow
  deriving DecidableEq, Repr

/-! ### Trees -/

/-- An expression in one variable over the numbers `R`. -/
inductive Expr (R : Type) [Zero R] [BEq R] where
  /-- The variable. -/
  | var (name : String)
  /-- A number. -/
  | const (value : R)
  /-- A place where a text could not be understood, as a byte offset. -/
  | error (offset : Nat)
  /-- An operation on one operand. -/
  | unary (op : UnaryOp) (arg : Expr R)
  /-- An operation on two operands, the left one first. -/
  | binary (op : BinaryOp) (left right : Expr R)
  /-- A polynomial, as the list of its coefficients. -/
  | poly (p : Poly R)

namespace Expr

/-- What a node is, without its contents. -/
inductive Kind where
  /-- The variable. -/
  | var
  /-- A number. -/
  | const
  /-- An error. -/
  | error
  /-- An operation on one operand. -/
  | unary (op : UnaryOp)
  /-- An operation on two operands. -/
  | binary (op : BinaryOp)
  /-- A polynomial. -/
  | poly
  deriving DecidableEq, Repr

/-- The number of children that a node of this kind has. -/
def Kind.arity : Kind → Nat
  | .var | .const | .error | .poly => 0
  | .unary _ => 1
  | .binary _ => 2

variable {R : Type} [Zero R] [BEq R]

/-- What the root of a tree is. -/
def kind : Expr R → Kind
  | .var _ => .var
  | .const _ => .const
  | .error _ => .error
  | .unary op _ => .unary op
  | .binary op _ _ => .binary op
  | .poly _ => .poly

/-- The children of the root, from left to right. -/
def children : Expr R → List (Expr R)
  | .var _ | .const _ | .error _ | .poly _ => []
  | .unary _ u => [u]
  | .binary _ l r => [l, r]

@[simp] theorem length_children (t : Expr R) : t.children.length = t.kind.arity := by
  cases t <;> rfl

/-- The number of nodes. -/
def size : Expr R → Nat
  | .var _ | .const _ | .error _ | .poly _ => 1
  | .unary _ u => u.size + 1
  | .binary _ l r => l.size + r.size + 1

/-- Whether the tree is the bare variable. -/
def isVar : Expr R → Bool
  | .var _ => true
  | _ => false

/-- Whether the tree is a single number. -/
def isConst : Expr R → Bool
  | .const _ => true
  | _ => false

/-- The offset of an error leaf. -/
def errorOffset? : Expr R → Option Nat
  | .error offset => some offset
  | _ => none

/-- The tree without the parentheses around it. -/
def innermost : Expr R → Expr R
  | .unary .group u => u.innermost
  | t => t

/-- The operand that stands first when the tree is written as a chain of operations. -/
def leftmost : Expr R → Expr R
  | .binary _ l _ => l.leftmost
  | t => t

/-- The negative of a tree, as written by a minus in front of it. -/
abbrev negate (u : Expr R) : Expr R := .unary .negate u

/-- A tree in parentheses. -/
abbrev group (u : Expr R) : Expr R := .unary .group u

/-- A function applied to a tree. -/
abbrev call (f : Func) (u : Expr R) : Expr R := .unary (.call f) u

end Expr

end Univariate
