import Univariate.Expr.Latex
import Univariate.Proofs.Spelling

/-!
# The parentheses that LaTeX shows

The LaTeX text of a tree does not show all the parentheses of the tree, and it shows some that the
tree does not have. What it shows is a tree as well: the one with a pair of parentheses in each
place where the LaTeX text groups something, be it by parentheses or by the braces of a fraction or
of an exponent. This tree differs from the original one in parentheses only, and it can be written
as plain text and read back if the original one can.

## Main definitions

* `Expr.ungroup`: a tree without any parentheses.
* `Expr.typeset`: the tree that the LaTeX text of a tree shows.

## Main results

* `Expr.ungroup_typeset`: typesetting changes parentheses only.
* `Expr.Writable.typeset`: what LaTeX shows of a writable tree is writable.
-/

namespace Univariate.Expr

/-! ### Trees without parentheses -/

section Ungroup

variable {R : Type} [Zero R] [BEq R]

/-- The tree without any of its parentheses. -/
def ungroup : Expr R → Expr R
  | .unary .group u => u.ungroup
  | .unary .negate u => .unary .negate u.ungroup
  | .unary .exp u => .unary .exp u.ungroup
  | .unary .reciprocal u => .unary .reciprocal u.ungroup
  | .unary (.call f) u => .unary (.call f) u.ungroup
  | .binary op l r => .binary op l.ungroup r.ungroup
  | .var name => .var name
  | .const c => .const c
  | .error offset => .error offset
  | .poly p => .poly p

/-- Parentheses hold no numbers of their own. -/
theorem const_mem_nodes_ungroup (t : Expr R) (c : R) :
    const c ∈ t.ungroup.nodes ↔ const c ∈ t.nodes := by
  rw [nodes_eq_postOrder, nodes_eq_postOrder]
  induction t with
  | unary op u ih => cases op <;> simp [ungroup, postOrder, ih]
  | binary op l r ihl ihr => simp [ungroup, postOrder, ihl, ihr]
  | _ => simp [ungroup]

theorem allFinite_ungroup [Numeral R] (t : Expr R) : t.ungroup.AllFinite ↔ t.AllFinite :=
  forall_congr' fun c => imp_congr_left (const_mem_nodes_ungroup t c)

end Ungroup

/-! ### The tree that LaTeX shows -/

variable {R : Type} [Zero R] [BEq R] [Numeral R]

/-- The tree with the parentheses that its LaTeX text shows. With `bare`, those around the whole
tree are left out. The braces of a fraction and of an exponent stand for parentheses. -/
def typeset (bare : Bool) : Expr R → Expr R
  | .unary .group u => if bare then typeset true u else group (typeset false u)
  | .unary .negate u => .unary .negate ((typeset false u).groupUnless u.standsBehindMinus)
  | .unary .exp u => .unary .exp (typeset true u)
  | .unary .reciprocal u => .unary .reciprocal (typeset true u)
  | .unary (.call f) u => .unary (.call f) (typeset true u)
  | .binary .plus l r => .binary .plus (typeset false l) (typeset false r)
  | .binary .minus l r => .binary .minus (typeset false l) (typeset false r)
  | .binary .times l r => .binary .times (typeset false l) (typeset false r)
  | .binary .div l r => .binary .div (group (typeset true l)) (group (typeset true r))
  | .binary .pow l r =>
    .binary .pow ((typeset true l).groupUnless (!l.innermost.needsParenthesesAsBase))
      (group (typeset true r))
  | .var name => .var name
  | .const c => .const c
  | .error offset => .error offset
  | .poly p => .poly p

/-- To leave out the parentheses around a tree is to show the tree inside them. -/
theorem typeset_true (t : Expr R) : t.typeset true = t.innermost.typeset false := by
  induction t with
  | unary op u ih =>
    cases op with
    | group => simpa [typeset, innermost] using ih
    | _ => rfl
  | binary op l r => cases op <;> rfl
  | _ => rfl

/-- The tree that is shown binds as tightly as the tree. -/
theorem precedence_typeset_false (t : Expr R) : (t.typeset false).precedence = t.precedence := by
  cases t with
  | unary op u => cases op <;> rfl
  | binary op l r => cases op <;> rfl
  | _ => rfl

omit [Numeral R] in
@[simp] theorem ungroup_groupUnless (bare : Bool) (t : Expr R) :
    (t.groupUnless bare).ungroup = t.ungroup := by
  cases bare <;> rfl

/-- **Typesetting changes parentheses only.** -/
theorem ungroup_typeset (t : Expr R) (bare : Bool) : (t.typeset bare).ungroup = t.ungroup := by
  induction t generalizing bare with
  | unary op u ih =>
    cases op with
    | group => cases bare <;> exact ih _
    | _ => simp [typeset, ungroup, ih]
  | binary op l r ihl ihr => cases op <;> simp [typeset, ungroup, ihl, ihr]
  | _ => rfl

theorem allFinite_typeset (t : Expr R) (bare : Bool) :
    (t.typeset bare).AllFinite ↔ t.AllFinite := by
  rw [← allFinite_ungroup, ungroup_typeset, allFinite_ungroup]

/-- A tree that needs no parentheses as a base binds more tightly than a power. -/
theorem lt_precedence_of_needsParenthesesAsBase {t : Expr R}
    (h : t.needsParenthesesAsBase = false) : .exp < t.precedence := by
  have hle : ¬ t.precedence ≤ .exp := by
    unfold needsParenthesesAsBase at h
    split at h
    · contradiction
    · contradiction
    · simpa using h
  exact Nat.lt_of_not_le hle

/-- **What LaTeX shows of a writable tree is writable.** -/
theorem Writable.typeset {v : String} {t : Expr R} (h : Writable v t) (bare : Bool) :
    Writable v (t.typeset bare) := by
  induction h generalizing bare with
  | var hv => exact .var hv
  | const hc => exact .const hc
  | @negate u hprecedence _ ih =>
    refine .negate ?_ ((ih false).groupUnless _)
    cases u.standsBehindMinus with
    | false => exact (by decide : Precedence.neg ≤ .primary)
    | true =>
      show Precedence.neg ≤ (u.typeset false).precedence
      rw [precedence_typeset_false]
      exact hprecedence
  | group _ ih =>
    cases bare with
    | false => exact (ih false).group
    | true => exact ih true
  | exp _ ih => exact (ih true).exp
  | call f _ ih => exact (ih true).call f
  | @binary l r op hleft hright _ _ ihl ihr =>
    cases op with
    | plus | minus | times =>
      refine .binary _ ?_ ?_ (ihl false) (ihr false)
      · rw [precedence_typeset_false]
        exact hleft
      · rw [precedence_typeset_false]
        exact hright
    | div =>
      exact .binary .div (by decide : Precedence.factor ≤ .primary)
        (by decide : Precedence.factor < .primary) (ihl true).group (ihr true).group
    | pow =>
      refine .binary .pow ?_ (by decide : Precedence.neg ≤ .primary) ((ihl true).groupUnless _)
        (ihr true).group
      cases hbase : l.innermost.needsParenthesesAsBase with
      | true => exact (by decide : Precedence.exp < .primary)
      | false =>
        show Precedence.exp < (l.typeset true).precedence
        rw [typeset_true, precedence_typeset_false]
        exact lt_precedence_of_needsParenthesesAsBase hbase

end Univariate.Expr
