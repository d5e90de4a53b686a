import Univariate.Proofs.DoubleText
import Univariate.Proofs.Spelling
import Univariate.Proofs.Typesetting
import Univariate.Proofs.VariableNames

/-!
# Trees that are put together with parentheses

There are constructors that add parentheses around an operand that would bind too loosely. This file
is about the trees that are put together with them from the variable and from finite numbers. They
differ from the trees that can be read in two ways. A number may have a minus sign, which is a
negation for the reader. And there are reciprocals, which are written as quotients.

The constructors go by the precedence of the operands, so what they achieve is that the operands
bind tightly enough if the precedences can be trusted. Those of numbers with a minus sign can be,
and those of reciprocals cannot. What a tree is cut into is a question of its characters alone, and
does not depend on that.

## Main definitions

* `Expr.Assembled`: the trees that are put together.
* `Expr.Arranged`: the trees whose precedences fit.
* `Expr.wording`: what they are written as.

## Main results

* `Expr.Assembled.arranged`: adding parentheses makes the precedences fit.
* `Expr.Arranged.cuts_plain`: the plain text of a tree is cut into its pieces.
-/

namespace Univariate

open Univariate.Text

namespace Expr

/-! ### The trees -/

/-- The trees that can be put together from the variable and finite numbers by the constructors that
add parentheses, and by the operations on one operand that need none. -/
inductive Assembled (v : String) : Expr Double → Prop
  | var : Assembled v (.var v)
  | const {c : Double} : c.isFinite = true → Assembled v (.const c)
  | unary {op : UnaryOp} {u : Expr Double} : op ≠ .negate → Assembled v u →
      Assembled v (.unary op u)
  | negated {u : Expr Double} : Assembled v u → Assembled v (negated u)
  | binaryGrouped (op : BinaryOp) {l r : Expr Double} : Assembled v l → Assembled v r →
      Assembled v (binaryGrouped op l r)

/-- The trees whose operands bind tightly enough for their places, if they bind as tightly as their
precedence says. -/
inductive Arranged (v : String) : Expr Double → Prop
  | var : IsVariable v → Arranged v (.var v)
  | const {c : Double} : c.isFinite = true → Arranged v (.const c)
  | negate {u : Expr Double} : .neg ≤ u.precedence → Arranged v u → Arranged v (negate u)
  | group {u : Expr Double} : Arranged v u → Arranged v (group u)
  | exp {u : Expr Double} : Arranged v u → Arranged v (.unary .exp u)
  | reciprocal {u : Expr Double} : Arranged v u → Arranged v (.unary .reciprocal u)
  | call {u : Expr Double} (f : Func) : Arranged v u → Arranged v (call f u)
  | binary {l r : Expr Double} (op : BinaryOp) : op.AcceptsLeft l.precedence →
      op.AcceptsRight r.precedence → Arranged v l → Arranged v r → Arranged v (.binary op l r)

theorem Arranged.groupUnless {v : String} {t : Expr Double} (h : Arranged v t) (bare : Bool) :
    Arranged v (t.groupUnless bare) := by
  cases bare with
  | false => exact h.group
  | true => exact h

theorem Assembled.arranged {v : String} {t : Expr Double} (h : Assembled v t)
    (hv : IsVariable v) : Arranged v t := by
  induction h with
  | var => exact .var hv
  | const hc => exact .const hc
  | @unary op u hop _ ih =>
    cases op with
    | negate => contradiction
    | group => exact ih.group
    | exp => exact ih.exp
    | reciprocal => exact ih.reciprocal
    | call f => exact ih.call f
  | @negated u _ ih =>
    obtain ⟨bare, heq, hprecedence⟩ := exists_negated u
    rw [heq]
    exact .negate hprecedence (ih.groupUnless bare)
  | @binaryGrouped op l r _ _ ihl ihr =>
    obtain ⟨bare, bare', heq, haccl, haccr⟩ := exists_binaryGrouped op l r
    rw [heq]
    exact .binary op haccl haccr (ihl.groupUnless bare) (ihr.groupUnless bare')

end Expr

/-! ### What the trees are written as -/

section Wording

variable {R : Type} [Zero R] [BEq R] [Numeral R]

/-- The piece that the sign in a reciprocal is. It is read like the sign of a division, but it is
another character. -/
def slashPiece : Piece := (.slash, ['/'])

/-- What a tree is written as, where numbers may have a minus sign. -/
def Expr.wording : Expr R → List Piece
  | .var name => [(.name, name.toList)]
  | .const c =>
    if Numeral.isNegative c then
      [BinaryOp.minus.piece, (.number, (Numeral.magnitude c).toList)]
    else [constantPiece c]
  | .unary .negate u => BinaryOp.minus.piece :: u.wording
  | .unary .group u => parenthesized u.wording
  | .unary .exp u => (.name, ['e']) :: BinaryOp.pow.piece :: parenthesized u.wording
  | .unary .reciprocal u => (.number, ['1']) :: slashPiece :: parenthesized u.wording
  | .unary (.call f) u => (.name, f.name.toList) :: parenthesized u.wording
  | .binary op l r => l.wording ++ op.piece :: r.wording
  | _ => []

end Wording

theorem Double.isUnsigned_of_isFinite {c : Double} (hc : c.isNegative = false)
    (hfinite : c.isFinite = true) : IsUnsigned c where
  not_negative := hc
  not_undefined := by
    show c.isUndefined = false
    rw [Double.isUndefined, hfinite]
    rfl

theorem Cuts.reciprocal {s : String} {ps : List Piece} (h : Cuts s ps) :
    Cuts ("1/(" ++ s ++ ")") ((.number, ['1']) :: slashPiece :: Univariate.parenthesized ps) := by
  have hone : Cuts "1" [(.number, ['1'])] := .literal (.whole ⟨by simp, by simp⟩)
  have hslash : IsSign "/" slashPiece := ⟨'/', rfl, rfl, by decide, by decide⟩
  have hopen : "1/(" = "1" ++ "/" ++ "(" := by decide
  rw [hopen]
  exact (hone.append_sign hslash).append_parenthesized h

/-- A number with a minus sign is never taken for π. -/
theorem Cuts.negativeConstant {c : Double} (hc : c.isNegative = true)
    (hfinite : c.isFinite = true) :
    Cuts (constantText "pi" c)
      [BinaryOp.minus.piece, (.number, (Numeral.magnitude c).toList)] := by
  have hpi : ¬ (c == Numeral.pi) = true := by
    intro hpi
    rw [Double.eq_pi_of_beq hpi] at hc
    exact absurd hc (by decide)
  have hliteral := Double.isLiteralText_magnitude (Double.isUnsigned_neg hc hfinite)
    (by rw [Double.isFinite_neg, hfinite])
  rw [Double.magnitude_neg] at hliteral
  rw [constantText, if_neg hpi, Double.text_eq_minus hc hfinite]
  exact (Cuts.literal hliteral).negation

theorem Expr.Arranged.cuts_plain {v : String} {t : Expr Double} (h : Arranged v t) :
    Cuts t.plain t.wording := by
  induction h with
  | var hv => exact .name hv.isNameText
  | @const c hfinite =>
    rw [plain, wording]
    split
    · next hc => exact .negativeConstant hc hfinite
    · next hc => exact .constant (Double.isUnsigned_of_isFinite (Bool.not_eq_true _ ▸ hc) hfinite)
  | negate _ _ ih => exact ih.negation
  | group _ ih => exact ih.parenthesized
  | exp _ ih => exact ih.exp
  | reciprocal _ ih => exact ih.reciprocal
  | call f _ ih => exact ih.call f
  | binary op _ _ _ _ ihl ihr => exact ihl.operation op ihr

end Univariate
