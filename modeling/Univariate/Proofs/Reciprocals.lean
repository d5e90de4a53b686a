import Univariate.Proofs.Assembling
import Univariate.Proofs.ReadBack

/-!
# Reciprocals among the operands of a tree

A reciprocal is written as a quotient, `1/(u)`, but its precedence is that of something with
delimiters of its own. So no constructor ever puts it into parentheses, and an operation beside it
takes a part of it only. In `x × 1/(u)` the multiplication takes the one, and the product is divided
by `u`. In `1/(u) ^ n` the power takes `u`. Neither happens to a reciprocal that is a left operand
of a multiplication or a division, or that stands in a sum or in parentheses.

What a tree is read as can be said by recursion on the tree, even where reciprocals are torn apart.
An operand is not read as one tree but as a dividend with divisors behind it. Most constructors
close an operand, in which case the divisors are applied to the dividend. The operations that tear
reciprocals apart pass the divisors on.

When is this what is meant? The numbers of nodes are always the same, for nothing is lost and
nothing is added. Divisors that were passed on stand at the root of what is read, and they are too
far up: the left operand of the division at the root would be as large as the whole tree that is
meant.

## Main definitions

* `Quotients`, `Expr.quotients`: what a tree is read as.
* `Grammar.ReadsAt`: pieces that derive a dividend and its divisors, from the symbol of a
  precedence.
* `Expr.spelledOut`: what a tree means.
* `Expr.reciprocalsWhole`: the trees in which no reciprocal is torn apart.

## Main results

* `Expr.Arranged.parse_plain`: the plain text of a tree is read as the tree that is predicted.
* `Expr.ungroup_whole_eq_iff`: that tree is what is meant if and only if no reciprocal is torn
  apart.
* `Expr.ungroup_parse_plain_iff`: so do the trees that are put together with parentheses read back.
-/

namespace Univariate

open Univariate.Text

/-! ### What a text with reciprocals is read as -/

section Quotients

variable {R : Type} [Zero R] [BEq R]

/-- What an operand is read as: a dividend, and the divisors that stand behind it. An operation in
front of the operand takes the dividend for its operand, and is divided itself. -/
structure Quotients (R : Type) [Zero R] [BEq R] where
  /-- What is divided. -/
  dividend : Expr R
  /-- What it is divided by, one after the other. -/
  divisors : List (Expr R)

namespace Quotients

/-- What is read where no operation stands in front. -/
def whole (q : Quotients R) : Expr R :=
  q.divisors.foldl (.binary .div) q.dividend

/-- What is read where an operation with the given left operand stands in front. -/
def behind (op : BinaryOp) (l : Expr R) (q : Quotients R) : Expr R :=
  whole ⟨.binary op l q.dividend, q.divisors⟩

/-- What a power is read as. The base has no more than one divisor, and it is the divisor that is
raised to the power if there is one. -/
def raised (base exponent : Quotients R) : Quotients R :=
  match base.divisors with
  | [] => ⟨.binary .pow base.dividend exponent.dividend, exponent.divisors⟩
  | d :: ds => ⟨base.dividend, .binary .pow d exponent.dividend :: (ds ++ exponent.divisors)⟩

end Quotients

variable [Numeral R] [One R] [Neg R]

/-- What the text of a tree is read as. A reciprocal is written as a quotient. A number with a minus
sign is read as a negation. -/
def Expr.quotients : Expr R → Quotients R
  | .var name => ⟨.var name, []⟩
  | .const c => ⟨if Numeral.isNegative c then negate (.const (-c)) else .const c, []⟩
  | .error offset => ⟨.error offset, []⟩
  | .poly p => ⟨.poly p, []⟩
  | .unary .negate u => ⟨negate u.quotients.dividend, u.quotients.divisors⟩
  | .unary .reciprocal u => ⟨.const 1, [group u.quotients.whole]⟩
  | .unary .group u => ⟨group u.quotients.whole, []⟩
  | .unary .exp u => ⟨.unary .exp u.quotients.whole, []⟩
  | .unary (.call f) u => ⟨call f u.quotients.whole, []⟩
  | .binary .plus l r => ⟨.binary .plus l.quotients.whole r.quotients.whole, []⟩
  | .binary .minus l r => ⟨.binary .minus l.quotients.whole r.quotients.whole, []⟩
  | .binary .times l r => ⟨r.quotients.behind .times l.quotients.whole, []⟩
  | .binary .div l r => ⟨r.quotients.behind .div l.quotients.whole, []⟩
  | .binary .pow l r => l.quotients.raised r.quotients

end Quotients

/-! ### Deriving it -/

namespace Grammar

variable {R : Type} [Zero R] [BEq R] [One R] [Numeral R] [OfScientific R] {v : String}
  {ps qs : List Piece} {t l d : Expr R} {ds : List (Expr R)} {q : Quotients R}

/-- Pieces that derive divisors, each with a sign in front of it. -/
inductive SpellsDivisors (v : String) : List Piece → List (Expr R) → Prop
  | nil : SpellsDivisors v [] []
  | cons {sign : Piece} {qs ps : List Piece} {d : Expr R} {ds : List (Expr R)} : sign.1 = .slash →
      Spells v .factor qs d → SpellsDivisors v ps ds →
      SpellsDivisors v (sign :: (qs ++ ps)) (d :: ds)

/-- Divisors are read from left to right. -/
theorem SpellsDivisors.term (h : SpellsDivisors v ps ds) (ht : Spells v .term qs t) :
    Spells v .term (qs ++ ps) (ds.foldl (.binary .div) t) := by
  induction h generalizing qs t with
  | nil => rwa [List.append_nil]
  | @cons sign qs' ps d ds hsign hd _ ih =>
    have hdiv : ProductSign sign.1 .div := by
      rw [hsign]
      exact .slash
    have h := ih (ht.product hdiv hd)
    rwa [List.append_assoc] at h

/-- Pieces that derive a dividend, and then its divisors. -/
def SpellsQuotients (v : String) (ps : List Piece) (q : Quotients R) : Prop :=
  ∃ front back, ps = front ++ back ∧ Spells v .factor front q.dividend ∧
    SpellsDivisors v back q.divisors

/-- Pieces that derive the base of a power: a primary, or a dividend with a primary as its only
divisor. -/
inductive SpellsBase (v : String) : List Piece → Quotients R → Prop
  | primary {ps : List Piece} {t : Expr R} : Spells v .primary ps t → SpellsBase v ps ⟨t, []⟩
  | quotient {sign : Piece} {ps qs : List Piece} {t d : Expr R} : sign.1 = .slash →
      Spells v .factor ps t → Spells v .primary qs d →
      SpellsBase v (ps ++ sign :: qs) ⟨t, [d]⟩

theorem SpellsBase.quotients (h : SpellsBase v ps q) : SpellsQuotients v ps q := by
  cases h with
  | primary ht => exact ⟨_, [], (List.append_nil _).symm, ht.factor_of_primary, .nil⟩
  | @quotient sign ps qs _ _ hsign ht hd =>
    refine ⟨ps, sign :: (qs ++ []), ?_, ht, .cons hsign hd.factor_of_primary .nil⟩
    rw [List.append_nil]

namespace SpellsQuotients

theorem of_factor (h : Spells v .factor ps t) : SpellsQuotients v ps ⟨t, []⟩ :=
  ⟨ps, [], (List.append_nil _).symm, h, .nil⟩

theorem term (h : SpellsQuotients v ps q) : Spells v .term ps q.whole := by
  obtain ⟨front, back, rfl, hdividend, hdivisors⟩ := h
  exact hdivisors.term hdividend.term_of_factor

/-- A minus in front belongs to the dividend. -/
theorem negation (h : SpellsQuotients v ps q) :
    SpellsQuotients v (BinaryOp.minus.piece :: ps) ⟨.negate q.dividend, q.divisors⟩ := by
  obtain ⟨front, back, rfl, hdividend, hdivisors⟩ := h
  exact ⟨BinaryOp.minus.piece :: front, back, rfl, hdividend.negation, hdivisors⟩

/-- The right operand of an operation is the dividend. -/
theorem behind {op : BinaryOp} {sign : Piece} (hsign : ProductSign sign.1 op)
    (hl : Spells v .term ps l) (h : SpellsQuotients v qs q) :
    Spells v .term (ps ++ sign :: qs) (q.behind op l) := by
  obtain ⟨front, back, rfl, hdividend, hdivisors⟩ := h
  have hterm := hdivisors.term (hl.product hsign hdividend)
  rwa [List.append_assoc] at hterm

/-- An exponent is raised to by what stands last in the base, and it is the dividend itself. -/
theorem power {b e : Quotients R} (hb : SpellsBase v ps b) (he : SpellsQuotients v qs e) :
    SpellsQuotients v (ps ++ BinaryOp.pow.piece :: qs) (b.raised e) := by
  obtain ⟨front, back, rfl, hdividend, hdivisors⟩ := he
  cases hb with
  | primary ht =>
    refine ⟨ps ++ BinaryOp.pow.piece :: front, back, ?_, ht.power hdividend, hdivisors⟩
    rw [List.append_assoc]
    rfl
  | @quotient sign ps qs _ _ hsign ht hd =>
    refine ⟨ps, sign :: ((qs ++ BinaryOp.pow.piece :: front) ++ back), ?_, ht,
      .cons hsign (hd.power hdividend) hdivisors⟩
    simp

end SpellsQuotients

/-- The pieces of a tree derive what it is read as, from the symbol of its precedence. -/
def ReadsAt (v : String) (ps : List Piece) (q : Quotients R) : Precedence → Prop
  | .term => Spells v .expression ps q.whole
  | .factor => Spells v .term ps q.whole
  | .neg | .exp => SpellsQuotients v ps q
  | .primary => SpellsBase v ps q

namespace ReadsAt

variable {p : Precedence}

theorem base (h : ReadsAt v ps q p) (hp : .exp < p) : SpellsBase v ps q := by
  cases p with
  | primary => exact h
  | _ => exact absurd hp (by decide)

theorem quotients (h : ReadsAt v ps q p) (hp : .neg ≤ p) : SpellsQuotients v ps q := by
  cases p with
  | primary => exact SpellsBase.quotients h
  | neg | exp => exact h
  | _ => exact absurd hp (by decide)

theorem term (h : ReadsAt v ps q p) (hp : .factor ≤ p) : Spells v .term ps q.whole := by
  cases p with
  | factor => exact h
  | term => exact absurd hp (by decide)
  | _ => exact (h.quotients (by decide)).term

theorem expression (h : ReadsAt v ps q p) : Spells v .expression ps q.whole := by
  cases p with
  | term => exact h
  | _ => exact (h.term (by decide)).expression_of_term

end ReadsAt

end Grammar

namespace Expr

open Grammar

variable {v : String} {t : Expr Double}

theorem literalValue_one : Decimal.literalValue ['1'] = (1 : Double) := rfl

/-- The magnitude of a number with a minus sign derives the negative of the number. -/
theorem spells_magnitude {c : Double} (hc : c.isNegative = true) (hfinite : c.isFinite = true) :
    Spells v .primary [(.number, (Numeral.magnitude c).toList)] (.const (-c)) := by
  have hnumber := Spells.number (v := v) (R := Double) (-c).magnitude.toList
  rw [Double.literalValue_magnitude (Double.isUnsigned_neg hc hfinite)
    (by rw [Double.isFinite_neg, hfinite]), Double.magnitude_neg] at hnumber
  exact hnumber

/-- **The pieces of a tree derive what it is read as.** -/
theorem Arranged.readsAt (h : Arranged v t) : ReadsAt v t.wording t.quotients t.precedence := by
  induction h with
  | var hv => exact .primary (.var hv)
  | @const c hfinite =>
    -- The precedence, the pieces and what is read all depend on the sign.
    rw [precedence, wording, quotients]
    split
    · next hc =>
      exact .of_factor (spells_magnitude hc hfinite).factor_of_primary.negation
    · next hc =>
      have hunsigned := Double.isUnsigned_of_isFinite (Bool.not_eq_true _ ▸ hc) hfinite
      exact .primary (.const hunsigned hfinite)
  | negate hu _ ih => exact (ih.quotients hu).negation
  | group _ ih => exact .primary ih.expression.group
  | exp _ ih => exact .primary ih.expression.exp
  | reciprocal _ ih =>
    have hone := Spells.number (v := v) (R := Double) ['1']
    rw [literalValue_one] at hone
    exact .quotient rfl hone.factor_of_primary ih.expression.group
  | call f _ ih => exact .primary (ih.expression.call f)
  | binary op haccl haccr _ _ ihl ihr =>
    cases op with
    | plus => exact Spells.sum .plus ihl.expression (ihr.term haccr)
    | minus => exact Spells.sum .minus ihl.expression (ihr.term haccr)
    | times => exact (ihr.quotients haccr).behind .times (ihl.term haccl)
    | div => exact (ihr.quotients haccr).behind .slash (ihl.term haccl)
    | pow => exact (ihr.quotients haccr).power (ihl.base haccl)

/-- **What the plain text of a tree is read as.** -/
theorem Arranged.parse_plain (h : Arranged v t) :
    parse v t.plain = t.quotients.whole ∧ (parse v t.plain : Expr Double).hasError = false := by
  have hspells := h.readsAt.expression _ [] h.cuts_plain.map_piece_tokenize
  rw [List.append_nil] at hspells
  obtain ⟨d, hd⟩ := hspells
  have hparse : (parse v t.plain : Expr Double) = d.denote := parse_eq_denote d
  refine ⟨by rw [hparse, hd], ?_⟩
  rw [hasError_eq_false_iff, hparse]
  exact d.errorFree_denote

/-! ### What is meant -/

section Meaning

variable {R : Type} [Zero R] [BEq R] [Numeral R] [One R] [Neg R]

/-- What a tree means, without its parentheses: a number with a minus sign is a negation, and a
reciprocal is a quotient. -/
def spelledOut : Expr R → Expr R
  | .var name => .var name
  | .const c => if Numeral.isNegative c then negate (.const (-c)) else .const c
  | .error offset => .error offset
  | .poly p => .poly p
  | .unary .group u => u.spelledOut
  | .unary .reciprocal u => .binary .div (.const 1) u.spelledOut
  | .unary .negate u => negate u.spelledOut
  | .unary .exp u => .unary .exp u.spelledOut
  | .unary (.call f) u => call f u.spelledOut
  | .binary op l r => .binary op l.spelledOut r.spelledOut

omit [Numeral R] [One R] [Neg R] in
/-- Whether a tree is a reciprocal, without parentheses around it. -/
def isReciprocal : Expr R → Bool
  | .unary .reciprocal _ => true
  | _ => false

/-- Whether no reciprocal is torn apart by an operation beside it. A minus in front of a reciprocal
takes the dividend for its operand, as do the signs of multiplication and division, and a power
takes the divisor for its base or the dividend for its exponent. -/
def reciprocalsWhole : Expr R → Bool
  | .unary .negate u => !u.isReciprocal && u.reciprocalsWhole
  | .unary _ u => u.reciprocalsWhole
  | .binary .plus l r => l.reciprocalsWhole && r.reciprocalsWhole
  | .binary .minus l r => l.reciprocalsWhole && r.reciprocalsWhole
  | .binary .times l r => !r.isReciprocal && (l.reciprocalsWhole && r.reciprocalsWhole)
  | .binary .div l r => !r.isReciprocal && (l.reciprocalsWhole && r.reciprocalsWhole)
  | .binary .pow l r =>
    !l.isReciprocal && !r.isReciprocal && (l.reciprocalsWhole && r.reciprocalsWhole)
  | _ => true

end Meaning

/-! ### The size of what is read -/

end Expr

open Univariate.Expr

section Size

variable {R : Type} [Zero R] [BEq R]

theorem Expr.size_foldl_div (ds : List (Expr R)) (t : Expr R) :
    (ds.foldl (.binary .div) t).size = t.size + (ds.map fun d => d.size + 1).sum := by
  induction ds generalizing t with
  | nil => rfl
  | cons d ds ih =>
    rw [List.foldl_cons, ih, size, List.map_cons, List.sum_cons]
    omega

theorem Expr.ungroup_foldl_div (ds : List (Expr R)) (t : Expr R) :
    (ds.foldl (.binary .div) t).ungroup = (ds.map ungroup).foldl (.binary .div) t.ungroup := by
  induction ds generalizing t with
  | nil => rfl
  | cons d ds ih => exact ih _

namespace Quotients

/-- The number of nodes that are read, without the parentheses. -/
def size (q : Quotients R) : Nat :=
  q.dividend.ungroup.size + (q.divisors.map fun d => d.ungroup.size + 1).sum

theorem ungroup_whole (q : Quotients R) :
    q.whole.ungroup = (q.divisors.map ungroup).foldl (.binary .div) q.dividend.ungroup :=
  ungroup_foldl_div _ _

theorem whole_of_nil {q : Quotients R} (h : q.divisors = []) : q.whole = q.dividend := by
  rw [whole, h, List.foldl_nil]

theorem behind_of_nil {q : Quotients R} (h : q.divisors = []) (op : BinaryOp) (l : Expr R) :
    q.behind op l = .binary op l q.whole := by
  rw [behind, whole, h, whole_of_nil h, List.foldl_nil]

theorem whole_raised_of_nil {b e : Quotients R} (hb : b.divisors = []) (he : e.divisors = []) :
    (b.raised e).whole = .binary .pow b.whole e.whole := by
  rw [raised, hb, whole, he, whole_of_nil hb, whole_of_nil he]
  rfl

theorem size_ungroup_whole (q : Quotients R) : q.whole.ungroup.size = q.size := by
  rw [ungroup_whole, size_foldl_div, List.map_map]
  rfl

theorem size_behind (op : BinaryOp) (l : Expr R) (q : Quotients R) :
    (q.behind op l).ungroup.size = l.ungroup.size + q.size + 1 := by
  rw [behind, size_ungroup_whole]
  simp only [size, ungroup, Expr.size]
  omega

theorem size_raised (b e : Quotients R) : (b.raised e).size = b.size + e.size + 1 := by
  obtain ⟨t, ds⟩ := b
  cases ds with
  | nil =>
    simp only [raised, size, ungroup, Expr.size, List.map_nil, List.sum_nil]
    omega
  | cons d ds =>
    simp only [raised, size, ungroup, Expr.size, List.map_cons, List.map_append, List.sum_cons,
      List.sum_append]
    omega

end Quotients

variable [Numeral R] [One R] [Neg R]

/-- **Whatever is read has the size of what is meant.** -/
theorem Expr.size_quotients (t : Expr R) : t.quotients.size = t.spelledOut.size := by
  induction t with
  | const c =>
    rw [quotients, spelledOut]
    split <;> rfl
  | unary op u ih =>
    have hwhole : u.quotients.whole.ungroup.size = u.spelledOut.size := by
      rw [Quotients.size_ungroup_whole, ih]
    cases op with
    | negate =>
      rw [Quotients.size] at ih
      simp only [quotients, spelledOut, Quotients.size, ungroup, size]
      omega
    | _ =>
      simp only [quotients, spelledOut, Quotients.size, ungroup, size, hwhole, List.map_cons,
        List.map_nil, List.sum_cons, List.sum_nil]
      omega
  | binary op l r ihl ihr =>
    have hl : l.quotients.whole.ungroup.size = l.spelledOut.size := by
      rw [Quotients.size_ungroup_whole, ihl]
    cases op with
    | plus | minus =>
      have hr : r.quotients.whole.ungroup.size = r.spelledOut.size := by
        rw [Quotients.size_ungroup_whole, ihr]
      simp only [quotients, spelledOut, Quotients.size, ungroup, size, hl, hr, List.map_nil,
        List.sum_nil, Nat.add_zero]
    | times | div =>
      rw [quotients, spelledOut, Quotients.size, Quotients.size_behind, hl, ihr]
      rfl
    | pow => rw [quotients, spelledOut, Quotients.size_raised, ihl, ihr, size]
  | _ => rfl

end Size

/-! ### Reading what is meant -/

namespace Expr

variable {R : Type} [Zero R] [BEq R]

/-- What is divided by anything is not an operation on one operand. -/
theorem foldl_div_eq_unary {ds : List (Expr R)} {t u : Expr R} {op : UnaryOp}
    (h : ds.foldl (.binary .div) t = .unary op u) : ds = [] ∧ t = .unary op u := by
  obtain rfl | ⟨ds, d, rfl⟩ := List.eq_nil_or_concat ds
  · exact ⟨rfl, h⟩
  · rw [List.concat_eq_append, List.foldl_append] at h
    cases h

/-- What is divided by anything is a division whose left operand is as large as what is divided. -/
theorem foldl_div_eq_binary {ds : List (Expr R)} {t l r : Expr R} {op : BinaryOp}
    (h : ds.foldl (.binary .div) t = .binary op l r) :
    (ds = [] ∧ t = .binary op l r) ∨ (op = .div ∧ t.size ≤ l.size) := by
  obtain rfl | ⟨ds, d, rfl⟩ := List.eq_nil_or_concat ds
  · exact .inl ⟨rfl, h⟩
  · rw [List.concat_eq_append, List.foldl_append] at h
    obtain ⟨rfl, rfl, -⟩ := binary.inj h
    refine .inr ⟨rfl, ?_⟩
    rw [size_foldl_div]
    exact Nat.le_add_right ..

variable [Numeral R] [One R] [Neg R]

/-- Divisors are read in a reciprocal, and otherwise only where a reciprocal is torn apart. -/
theorem divisors_eq_nil_iff {t : Expr R} (h : t.reciprocalsWhole = true) :
    t.quotients.divisors = [] ↔ t.isReciprocal = false := by
  induction t with
  | unary op u ih =>
    cases op with
    | negate =>
      simp only [reciprocalsWhole, Bool.and_eq_true, Bool.not_eq_true'] at h
      exact iff_of_true ((ih h.2).mpr h.1) rfl
    | reciprocal => exact iff_of_false (List.cons_ne_nil _ _) Bool.noConfusion
    | _ => exact iff_of_true rfl rfl
  | binary op l r ihl ihr =>
    cases op with
    | pow =>
      simp only [reciprocalsWhole, Bool.and_eq_true, Bool.not_eq_true'] at h
      obtain ⟨⟨hl, hr⟩, hwholel, hwholer⟩ := h
      refine iff_of_true ?_ rfl
      rw [quotients, Quotients.raised, (ihl hwholel).mpr hl]
      exact (ihr hwholer).mpr hr
    | _ => exact iff_of_true rfl rfl
  | _ => exact iff_of_true rfl rfl

/-- A reciprocal has a divisor, whatever it is the reciprocal of. -/
theorem isReciprocal_eq_false {t : Expr R} (h : t.quotients.divisors = []) :
    t.isReciprocal = false := by
  rw [Bool.eq_false_iff]
  intro hreciprocal
  cases t with
  | unary op u =>
    cases op with
    | reciprocal => cases h
    | _ => cases hreciprocal
  | _ => cases hreciprocal

/-- A minus in front of an operand is read as what is meant when the operand is, and when nothing of
the operand is left to divide the negation. -/
theorem ungroup_negate_eq_iff {u : Expr R}
    (ih : u.quotients.whole.ungroup = u.spelledOut ↔ u.reciprocalsWhole = true) :
    (negate u).quotients.whole.ungroup = negate u.spelledOut ↔
      u.isReciprocal = false ∧ u.reciprocalsWhole = true := by
  rw [quotients, Quotients.ungroup_whole]
  constructor
  · intro h
    obtain ⟨hdivisors, h⟩ := foldl_div_eq_unary h
    have hdivisors : u.quotients.divisors = [] := List.map_eq_nil_iff.mp hdivisors
    have hu := (unary.inj h).2
    rw [← Quotients.whole_of_nil hdivisors] at hu
    exact ⟨isReciprocal_eq_false hdivisors, ih.mp hu⟩
  · rintro ⟨hu, hwhole⟩
    have hdivisors := (divisors_eq_nil_iff hwhole).mpr hu
    rw [hdivisors, List.map_nil, List.foldl_nil, ungroup, ← Quotients.whole_of_nil hdivisors,
      ih.mpr hwhole]

/-- An operation in front of an operand is read as what is meant when the operand is, and when
nothing of the operand is left to divide the operation. -/
theorem ungroup_behind_eq_iff {op : BinaryOp} {l r : Expr R}
    (ihl : l.quotients.whole.ungroup = l.spelledOut ↔ l.reciprocalsWhole = true)
    (ihr : r.quotients.whole.ungroup = r.spelledOut ↔ r.reciprocalsWhole = true) :
    (r.quotients.behind op l.quotients.whole).ungroup = .binary op l.spelledOut r.spelledOut ↔
      r.isReciprocal = false ∧ l.reciprocalsWhole = true ∧ r.reciprocalsWhole = true := by
  constructor
  · intro h
    rw [Quotients.behind, Quotients.ungroup_whole] at h
    obtain ⟨hdivisors, h⟩ | ⟨-, hsize⟩ := foldl_div_eq_binary h
    · have hdivisors : r.quotients.divisors = [] := List.map_eq_nil_iff.mp hdivisors
      obtain ⟨-, hl, hr⟩ := binary.inj h
      rw [← Quotients.whole_of_nil hdivisors] at hr
      have hwhole := ihr.mp hr
      exact ⟨(divisors_eq_nil_iff hwhole).mp hdivisors, ihl.mp hl, hwhole⟩
    · -- The left operand of a division at the root would be larger than `l`.
      rw [ungroup, size, Quotients.size_ungroup_whole, size_quotients] at hsize
      omega
  · rintro ⟨hr, hwholel, hwholer⟩
    rw [Quotients.behind_of_nil ((divisors_eq_nil_iff hwholer).mpr hr), ungroup, ihl.mpr hwholel,
      ihr.mpr hwholer]

/-- A power is read as what is meant when the base and the exponent are, and when neither is a
quotient. -/
theorem ungroup_raised_eq_iff {l r : Expr R}
    (ihl : l.quotients.whole.ungroup = l.spelledOut ↔ l.reciprocalsWhole = true)
    (ihr : r.quotients.whole.ungroup = r.spelledOut ↔ r.reciprocalsWhole = true) :
    (l.quotients.raised r.quotients).whole.ungroup = .binary .pow l.spelledOut r.spelledOut ↔
      (l.isReciprocal = false ∧ r.isReciprocal = false) ∧
        l.reciprocalsWhole = true ∧ r.reciprocalsWhole = true := by
  constructor
  · intro h
    rw [Quotients.ungroup_whole] at h
    obtain ⟨hdivisors, h⟩ | ⟨hop, -⟩ := foldl_div_eq_binary h
    · -- A quotient in the base would be left among the divisors.
      have hl : l.quotients.divisors = [] := by
        rw [Quotients.raised] at hdivisors
        split at hdivisors
        · assumption
        · cases hdivisors
      rw [Quotients.raised, hl] at h hdivisors
      have hr : r.quotients.divisors = [] := List.map_eq_nil_iff.mp hdivisors
      obtain ⟨-, hbase, hexponent⟩ := binary.inj h
      rw [← Quotients.whole_of_nil hl] at hbase
      rw [← Quotients.whole_of_nil hr] at hexponent
      exact ⟨⟨isReciprocal_eq_false hl, isReciprocal_eq_false hr⟩, ihl.mp hbase, ihr.mp hexponent⟩
    · cases hop
  · rintro ⟨⟨hl, hr⟩, hwholel, hwholer⟩
    rw [Quotients.whole_raised_of_nil ((divisors_eq_nil_iff hwholel).mpr hl)
      ((divisors_eq_nil_iff hwholer).mpr hr), ungroup, ihl.mpr hwholel, ihr.mpr hwholer]

/-- **What is read is what is meant, unless a reciprocal is torn apart.** -/
theorem ungroup_whole_eq_iff (t : Expr R) :
    t.quotients.whole.ungroup = t.spelledOut ↔ t.reciprocalsWhole = true := by
  induction t with
  | const c =>
    refine iff_of_true ?_ rfl
    rw [quotients, spelledOut]
    split <;> rfl
  | unary op u ih =>
    cases op with
    | negate =>
      rw [reciprocalsWhole, Bool.and_eq_true, Bool.not_eq_true']
      exact ungroup_negate_eq_iff ih
    | group => exact ih
    | exp | call =>
      exact .trans ⟨fun h => (unary.inj h).2, fun h => congrArg (unary _) h⟩ ih
    | reciprocal =>
      exact .trans ⟨fun h => (binary.inj h).2.2, fun h => congrArg (binary .div (.const 1)) h⟩ ih
  | binary op l r ihl ihr =>
    cases op with
    | plus | minus =>
      rw [reciprocalsWhole, Bool.and_eq_true, ← ihl, ← ihr]
      exact ⟨fun h => (binary.inj h).2, fun h => congrArg₂ _ h.1 h.2⟩
    | times | div =>
      rw [reciprocalsWhole, Bool.and_eq_true, Bool.not_eq_true', Bool.and_eq_true]
      exact ungroup_behind_eq_iff ihl ihr
    | pow =>
      simp only [reciprocalsWhole, Bool.and_eq_true, Bool.not_eq_true']
      exact ungroup_raised_eq_iff ihl ihr
  | _ => exact iff_of_true rfl rfl

/-! ### Reading trees that were put together -/

/-- **Trees that are put together with parentheses read back, unless a reciprocal is torn apart.**
If a tree is put together from the variable and finite numbers by the constructors that add
parentheses, its plain text is read without an error. Without the parentheses, the tree that is read
is the one that is meant if and only if no reciprocal is the right operand of a multiplication or a
division, an operand of a power, or the operand of a minus. -/
theorem ungroup_parse_plain_iff (v : String) (t : Expr Double) (hv : isVariableName v = true)
    (h : Assembled v t) :
    (parse v t.plain : Expr Double).hasError = false ∧
      ((parse v t.plain : Expr Double).ungroup = t.spelledOut ↔ t.reciprocalsWhole = true) := by
  obtain ⟨hparse, herror⟩ := (h.arranged (isVariableName_iff.mp hv)).parse_plain
  refine ⟨herror, ?_⟩
  rw [hparse]
  exact ungroup_whole_eq_iff t

/-- A reciprocal that is the left operand reads back, and so does a number with a minus sign. -/
theorem ungroup_parse_plain_iff_leading :
    let t : Expr Double := binaryGrouped .times (.unary .reciprocal (.var "x")) (.const (-2))
    isVariableName "x" = true ∧ Assembled "x" t ∧ t.plain = "1/(x) × -2" ∧
      (parse "x" t.plain : Expr Double).ungroup =
        .binary .times (.binary .div (.const 1) (.var "x")) (negate (.const 2)) := by
  intro t
  have hv : isVariableName "x" = true := by cbv
  have h : Assembled "x" t :=
    .binaryGrouped .times (.unary (by decide) .var) (.const (by decide))
  refine ⟨hv, h, by decide, ?_⟩
  exact (ungroup_parse_plain_iff "x" t hv h).2.mpr (by decide)

/-- A reciprocal that is the right operand is torn apart: its text begins with a one, which the
multiplication takes for its operand. -/
theorem ungroup_parse_plain_ne_trailing :
    let t : Expr Double := binaryGrouped .times (.var "x") (.unary .reciprocal (.var "x"))
    isVariableName "x" = true ∧ Assembled "x" t ∧ t.plain = "x × 1/(x)" ∧
      (parse "x" t.plain : Expr Double).ungroup =
        .binary .div (.binary .times (.var "x") (.const 1)) (.var "x") ∧
      t.spelledOut = .binary .times (.var "x") (.binary .div (.const 1) (.var "x")) ∧
      (parse "x" t.plain : Expr Double).ungroup ≠ t.spelledOut := by
  intro t
  have hv : isVariableName "x" = true := by cbv
  have h : Assembled "x" t := .binaryGrouped .times .var (.unary (by decide) .var)
  obtain ⟨hparse, -⟩ := (h.arranged (isVariableName_iff.mp hv)).parse_plain
  refine ⟨hv, h, by decide, ?_, rfl, ?_⟩
  · rw [hparse]
    rfl
  · rw [hparse, Ne, ungroup_whole_eq_iff]
    decide

end Expr

end Univariate
