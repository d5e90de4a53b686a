import Univariate.Derivative

/-!
# What parentheses do not change

Derivatives put parentheses around an operand where its text would otherwise be read differently.
That is a matter of the text only. The value of a tree and its errors are the same with and without
them, so nothing that is proved about values or errors has to know where parentheses are added.

## Main results

* `Expr.eval_binaryGrouped`, `Expr.eval_negated`: the value of an operation with parentheses.
* `Expr.errorOffsets_binaryGrouped`, `Expr.errorOffsets_negated`: the errors of one.
-/

namespace Univariate.Expr

/-! ### Errors -/

section Errors

variable {R : Type} [Zero R] [BEq R] [Numeral R]

omit [Numeral R] in
@[simp] theorem errorOffsets_groupUnless (bare : Bool) (t : Expr R) :
    (t.groupUnless bare).errorOffsets = t.errorOffsets := by
  cases bare with
  | false => exact errorOffsets_unary .group t
  | true => rfl

@[simp] theorem errorOffsets_binaryGrouped (op : BinaryOp) (l r : Expr R) :
    (binaryGrouped op l r).errorOffsets = l.errorOffsets ++ r.errorOffsets := by
  cases op <;> simp [binaryGrouped]

@[simp] theorem errorOffsets_negated (u : Expr R) : u.negated.errorOffsets = u.errorOffsets := by
  simp [negated]

end Errors

/-! ### Values -/

variable {R : Type} [Zero R] [One R] [NatCast R] [Add R] [Sub R] [Mul R] [Div R] [Neg R] [BEq R]
  [Numeral R] [Elementary R]

@[simp] theorem eval_group (t : Expr R) (x : R) : (group t).eval x = t.eval x := by
  rw [eval]
  cases t.eval x <;> rfl

@[simp] theorem eval_groupUnless (bare : Bool) (t : Expr R) (x : R) :
    (t.groupUnless bare).eval x = t.eval x := by
  cases bare with
  | false => exact eval_group t x
  | true => rfl

theorem eval_binaryGrouped (op : BinaryOp) (l r : Expr R) (x : R) :
    (binaryGrouped op l r).eval x = (binary op l r).eval x := by
  cases op <;> simp [binaryGrouped, eval]

theorem eval_negated (u : Expr R) (x : R) : u.negated.eval x = (negate u).eval x := by
  simp [negated, eval]

/-! The values of operands make up the value of an operation, with parentheses or without. -/

section Operands

variable {u l r : Expr R} {x a b : R}

theorem eval_unary_of_ok (op : UnaryOp) (hu : u.eval x = .ok a) :
    (unary op u).eval x = .ok (op.apply a) := by
  rw [eval, hu]
  rfl

theorem eval_binary_of_ok (op : BinaryOp) (hl : l.eval x = .ok a) (hr : r.eval x = .ok b) :
    (binary op l r).eval x = .ok (op.apply a b) := by
  rw [eval, hl, hr]
  rfl

theorem eval_negated_of_ok (hu : u.eval x = .ok a) : u.negated.eval x = .ok (-a) := by
  rw [eval_negated]
  exact eval_unary_of_ok .negate hu

theorem eval_binaryGrouped_of_ok (op : BinaryOp) (hl : l.eval x = .ok a) (hr : r.eval x = .ok b) :
    (binaryGrouped op l r).eval x = .ok (op.apply a b) := by
  rw [eval_binaryGrouped]
  exact eval_binary_of_ok op hl hr

end Operands

end Univariate.Expr
