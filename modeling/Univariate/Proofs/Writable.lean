import Univariate.Derivative
import Univariate.Proofs.Lexing
import Univariate.Proofs.Stuck

/-!
# Trees that can be written and read back

Not every tree is one that a text can be read as. In a tree that was read, each operand binds
tightly enough for its place, all numbers are without a sign, and the variable has a name that can
be read. Such a tree is `Writable`. Two things produce trees, and both produce writable ones only:
reading, where a derivation puts each operand into a place for which it binds tightly enough by
itself, and differentiation, where parentheses are added to every operand that would bind too
loosely.

## Main definitions

* `IsUnsigned`, `IsVariable`: what the numbers and the variable of a writable tree are like.
* `BinaryOp.AcceptsLeft`, `BinaryOp.AcceptsRight`: how tightly an operand has to bind.
* `Expr.Writable`: the trees.
* `LawfulNumeral`: numbers for which the constants that are read and made are unsigned, and are
  written in a form that reads back.

## Main results

* `Expr.Writable.binaryGrouped`, `Expr.Writable.negated`: adding parentheses is enough.
* `Grammar.Derivation.writable`: what a derivation denotes is writable.
* `Expr.Writable.derivative`: the derivative of a writable tree exists and is writable.
-/

namespace Univariate

open Univariate.Text Univariate.Decimal

/-! ### Numbers and names -/

/-- A number that is written without a sign. -/
structure IsUnsigned {R : Type} [Numeral R] (c : R) : Prop where
  /-- It has no minus sign. -/
  not_negative : Numeral.isNegative c = false
  /-- It is a number. -/
  not_undefined : Numeral.isUndefined c = false

/-- A number without a sign is written as its magnitude. -/
theorem IsUnsigned.text_eq_magnitude {R : Type} [Numeral R] {c : R} (h : IsUnsigned c) :
    Numeral.text c = Numeral.magnitude c := by
  simp [Numeral.text, Numeral.hasMinus, h.not_negative]

/-- The name of a variable that can be read: a name that is not reserved, without blanks. -/
structure IsVariable (v : String) : Prop where
  /-- It does not stand for anything else. -/
  not_reserved : ¬ IsReserved v
  /-- It is a name. -/
  isNameText : IsNameText v.toList
  /-- No part of it is lost when blanks are removed. -/
  not_blank : ∀ c ∈ v.toList, isBlank c = false

/-- What a type of numbers promises about their texts. Numbers that are read or counted have no
sign, and a number without a sign is written as a literal that reads back, or as `inf`. -/
class LawfulNumeral (R : Type) [Zero R] [One R] [NatCast R] [BEq R] [OfScientific R] [Numeral R] :
    Prop where
  /-- Decimals have no sign. -/
  isUnsigned_ofScientific : ∀ m e, IsUnsigned (OfScientific.ofScientific m true e : R)
  /-- Counts have no sign. -/
  isUnsigned_natCast : ∀ n : Nat, IsUnsigned (n : R)
  /-- Zero has no sign. -/
  isUnsigned_zero : IsUnsigned (0 : R)
  /-- One has no sign. -/
  isUnsigned_one : IsUnsigned (1 : R)
  /-- The number π has no sign. -/
  isUnsigned_pi : IsUnsigned (Numeral.pi : R)
  /-- The number π is finite. -/
  isFinite_pi : Numeral.isFinite (Numeral.pi : R) = true
  /-- Only π is taken for π. -/
  eq_pi_of_beq : ∀ c : R, (c == Numeral.pi) = true → c = Numeral.pi
  /-- A finite number is written as a literal. -/
  isLiteralText_magnitude : ∀ c : R, IsUnsigned c → Numeral.isFinite c = true →
    IsLiteralText (Numeral.magnitude c).toList
  /-- The literal of a finite number reads back. -/
  literalValue_magnitude : ∀ c : R, IsUnsigned c → Numeral.isFinite c = true →
    literalValue (Numeral.magnitude c).toList = c
  /-- A number that is not finite is written by its name. -/
  magnitude_of_not_isFinite : ∀ c : R, IsUnsigned c → Numeral.isFinite c = false →
    Numeral.magnitude c = "inf"

/-! ### How tightly operands bind -/

/-- Whether an operand may stand on the left of an operation without parentheses. -/
def BinaryOp.AcceptsLeft : BinaryOp → Precedence → Prop
  | .pow, p => .exp < p
  | op, p => op.precedence ≤ p

/-- Whether an operand may stand on the right of an operation without parentheses. An exponent may
be a negation, although it is shown with parentheses when it is put there. -/
def BinaryOp.AcceptsRight : BinaryOp → Precedence → Prop
  | .pow, p => .neg ≤ p
  | op, p => op.precedence < p

namespace Expr

variable {R : Type} [Zero R] [BEq R] [Numeral R] {v : String} {l r t u : Expr R}

/-- A tree whose plain text can be read as that tree, if its numbers are finite. -/
inductive Writable (v : String) : Expr R → Prop
  | var : IsVariable v → Writable v (.var v)
  | const {c : R} : IsUnsigned c → Writable v (.const c)
  | negate {u : Expr R} : .neg ≤ u.precedence → Writable v u → Writable v (negate u)
  | group {u : Expr R} : Writable v u → Writable v (group u)
  | exp {u : Expr R} : Writable v u → Writable v (.unary .exp u)
  | call {u : Expr R} (f : Func) : Writable v u → Writable v (call f u)
  | binary {l r : Expr R} (op : BinaryOp) : op.AcceptsLeft l.precedence →
      op.AcceptsRight r.precedence → Writable v l → Writable v r → Writable v (.binary op l r)

/-- The parts of a writable tree are writable. -/
theorem Writable.of_mem_nodes (h : Writable v t) (hu : u ∈ t.nodes) : Writable v u := by
  induction h with
  | var hv => exact List.mem_singleton.mp hu ▸ .var hv
  | const hc => exact List.mem_singleton.mp hu ▸ .const hc
  | negate hprecedence hw ih => exact (mem_nodes_unary.mp hu).elim ih (· ▸ hw.negate hprecedence)
  | group hw ih => exact (mem_nodes_unary.mp hu).elim ih (· ▸ hw.group)
  | exp hw ih => exact (mem_nodes_unary.mp hu).elim ih (· ▸ hw.exp)
  | call f hw ih => exact (mem_nodes_unary.mp hu).elim ih (· ▸ hw.call f)
  | binary op haccl haccr hl hr ihl ihr =>
    obtain hmem | hmem | rfl := mem_nodes_binary.mp hu
    · exact ihl hmem
    · exact ihr hmem
    · exact .binary op haccl haccr hl hr

/-! ### Adding parentheses -/

theorem Writable.groupUnless (h : Writable v t) (bare : Bool) :
    Writable v (t.groupUnless bare) := by
  cases bare with
  | false => exact h.group
  | true => exact h

/-- A tree that gets parentheses where it needs them binds tightly enough. -/
theorem precedence_groupUnless {p : Precedence → Prop} [DecidablePred p] (hp : p .primary) :
    p (t.groupUnless (p t.precedence)).precedence := by
  by_cases h : p t.precedence
  · rw [Expr.groupUnless, if_pos (decide_eq_true h)]
    exact h
  · rw [Expr.groupUnless, if_neg (by simpa using h)]
    exact hp

/-- An operation whose operands get parentheses where they bind too loosely is one whose operands
bind tightly enough. -/
theorem exists_binaryGrouped (op : BinaryOp) (l r : Expr R) : ∃ bare bare' : Bool,
    binaryGrouped op l r = .binary op (l.groupUnless bare) (r.groupUnless bare') ∧
      op.AcceptsLeft (l.groupUnless bare).precedence ∧
      op.AcceptsRight (r.groupUnless bare').precedence := by
  cases op with
  | pow =>
    refine ⟨_, _, rfl, precedence_groupUnless (p := fun p => .exp < p) (by decide), ?_⟩
    have h : .exp ≤ (r.groupUnless (.exp ≤ r.precedence)).precedence :=
      precedence_groupUnless (p := fun p => .exp ≤ p) (by decide)
    exact Nat.le_trans (by decide) h
  | plus | minus | times | div =>
    refine ⟨_, _, rfl, ?_, ?_⟩
    · exact precedence_groupUnless (p := fun p => BinaryOp.precedence _ ≤ p) (by decide)
    · exact precedence_groupUnless (p := fun p => BinaryOp.precedence _ < p) (by decide)

theorem exists_negated (u : Expr R) : ∃ bare : Bool,
    negated u = negate (u.groupUnless bare) ∧ .neg ≤ (u.groupUnless bare).precedence :=
  ⟨_, rfl, precedence_groupUnless (p := fun p => .neg ≤ p) (by decide)⟩

/-- Adding parentheses to the operands is enough for an operation. -/
theorem Writable.binaryGrouped (op : BinaryOp) (hl : Writable v l) (hr : Writable v r) :
    Writable v (binaryGrouped op l r) := by
  obtain ⟨bare, bare', heq, haccl, haccr⟩ := exists_binaryGrouped op l r
  rw [heq]
  exact .binary op haccl haccr (hl.groupUnless bare) (hr.groupUnless bare')

/-- Adding parentheses to an operand is enough for a negation. -/
theorem Writable.negated (h : Writable v u) : Writable v (negated u) := by
  obtain ⟨bare, heq, hprecedence⟩ := exists_negated u
  rw [heq]
  exact .negate hprecedence (h.groupUnless bare)

theorem Writable.errorOffsets (h : Writable v t) : t.errorOffsets = [] := by
  induction h with
  | binary op _ _ _ _ ihl ihr => rw [errorOffsets_binary, ihl, ihr]; rfl
  | var => exact errorOffsets_var _
  | const => exact errorOffsets_const _
  | _ => simpa

/-! ### Derivatives -/

section Derivative

variable [One R] [NatCast R] [OfScientific R] [LawfulNumeral R]

theorem Writable.one : Writable v (.const 1 : Expr R) :=
  .const LawfulNumeral.isUnsigned_one

theorem Writable.zero : Writable v (.const 0 : Expr R) :=
  .const LawfulNumeral.isUnsigned_zero

theorem Writable.two : Writable v (two : Expr R) :=
  .const (LawfulNumeral.isUnsigned_natCast 2)

theorem Writable.squared (h : Writable v u) : Writable v u.squared :=
  h.binaryGrouped .pow .two

theorem Writable.inverse (h : Writable v u) : Writable v (inverse u) :=
  Writable.one.binaryGrouped .div h

theorem Writable.outerArcsin (h : Writable v u) : Writable v (outerArcsin u) := by
  have hhalf : Writable v (.const 0.5 : Expr R) :=
    .const (LawfulNumeral.isUnsigned_ofScientific 5 1)
  exact (Writable.one.binaryGrouped .minus h.squared).binaryGrouped .pow hhalf.negated

theorem Writable.outerArctan (h : Writable v u) : Writable v (outerArctan u) :=
  (Writable.one.binaryGrouped .plus h.squared).inverse

theorem Writable.outerArcsec (h : Writable v u) : Writable v (outerArcsec u) := by
  have hroot := (h.squared.binaryGrouped .minus .one).call .sqrt
  exact ((h.call .abs).binaryGrouped .times hroot).inverse

/-- The derivative of a function is writable. -/
theorem Writable.outerDerivative (f : Func) (h : Writable v u) :
    Writable v (f.outerDerivative u) := by
  cases f with
  | sin => exact h.call .cos
  | cos => exact (h.call .sin).negated
  | tan => exact (h.call .sec).squared
  | cot => exact (h.call .csc).squared.negated
  | sec => exact (h.call .sec).binaryGrouped .times (h.call .tan)
  | csc => exact ((h.call .csc).binaryGrouped .times (h.call .cot)).negated
  | arcsin => exact h.outerArcsin
  | arccos => exact h.outerArcsin.negated
  | arctan => exact h.outerArctan
  | arccot => exact h.outerArctan.negated
  | arcsec => exact h.outerArcsec
  | arccsc => exact h.outerArcsec.negated
  | log =>
    have hten : Writable v (.const ((10 : Nat) : R)) := .const (LawfulNumeral.isUnsigned_natCast 10)
    exact h.inverse.binaryGrouped .div (hten.call .ln)
  | ln => exact h.inverse
  | floor => exact .zero
  | sqrt => exact (Writable.two.binaryGrouped .times (h.call .sqrt)).inverse
  | abs => exact (h.call .abs).binaryGrouped .div h

/-- The chain rule makes a writable tree of writable trees. -/
theorem Writable.chain {outer inner d : Expr R} (houter : Writable v outer) (hd : Writable v d) :
    ∃ d', Expr.chain outer inner (.ok d) = .ok d' ∧ Writable v d' := by
  unfold Expr.chain
  split
  · exact ⟨_, rfl, .zero⟩
  · split
    · exact ⟨_, rfl, houter⟩
    · exact ⟨_, rfl, houter.binaryGrouped .times hd.group⟩

variable [Mul R]

/-- **The derivative of a writable tree exists and is writable.** -/
theorem Writable.exists_derivative (h : Writable v t) :
    ∃ d, t.derivative = .ok d ∧ Writable v d := by
  induction h with
  | var => exact ⟨_, rfl, .one⟩
  | const => exact ⟨_, rfl, .zero⟩
  | negate _ _ ih =>
    obtain ⟨d, hd, hwrite⟩ := ih
    exact ⟨_, by rw [derivative, hd]; rfl, hwrite.negated⟩
  | group _ ih =>
    obtain ⟨d, hd, hwrite⟩ := ih
    exact ⟨_, by rw [derivative, hd]; rfl, hwrite.group⟩
  | exp hu ih =>
    obtain ⟨d, hd, hwrite⟩ := ih
    rw [derivative, hd]
    exact hu.exp.chain hwrite
  | call f hu ih =>
    obtain ⟨d, hd, hwrite⟩ := ih
    by_cases hfloor : f = .floor
    · subst hfloor
      exact ⟨_, by rw [derivative, hu.errorOffsets], .zero⟩
    · rw [derivative, hd]
      · exact (hu.outerDerivative f).chain hwrite
      · exact hfloor
  | @binary l r op _ _ hl hr ihl ihr =>
    obtain ⟨dl, hdl, hwritel⟩ := ihl
    obtain ⟨dr, hdr, hwriter⟩ := ihr
    cases op with
    | plus => exact ⟨_, by rw [derivative, hdl, hdr]; rfl, hwritel.binaryGrouped .plus hwriter⟩
    | minus => exact ⟨_, by rw [derivative, hdl, hdr]; rfl, hwritel.binaryGrouped .minus hwriter⟩
    | times =>
      refine ⟨_, by rw [derivative, hdl, hdr]; rfl, ?_⟩
      exact (hwritel.binaryGrouped .times hr).binaryGrouped .plus (hl.binaryGrouped .times hwriter)
    | div =>
      refine ⟨_, by rw [derivative, hdl, hdr]; rfl, ?_⟩
      have hproducts := (hwritel.binaryGrouped .times hr).binaryGrouped .minus
        (hl.binaryGrouped .times hwriter)
      exact hproducts.binaryGrouped .div hr.squared
    | pow =>
      rw [derivative]
      split
      · rw [hdl]
        have hexponent := hr.binaryGrouped .minus .one
        exact (hr.binaryGrouped .times (hl.binaryGrouped .pow hexponent)).chain hwritel
      · refine ⟨_, by rw [hdl, hdr]; rfl, ?_⟩
        have hsum := (hwriter.binaryGrouped .times (hl.call .ln)).binaryGrouped .plus
          ((hr.binaryGrouped .times hwritel).binaryGrouped .div hl)
        exact (hl.binaryGrouped .pow hr).binaryGrouped .times hsum.group

end Derivative

end Expr

/-! ### Trees that are read -/

namespace Grammar

open Univariate.Expr

variable {R : Type} [Zero R] [BEq R] [Numeral R] {v : String}

/-- Whether the variable can be written, if one of the tokens is its name. -/
def NamesVariable (v : String) (xs : List Token) : Prop :=
  ∀ t ∈ xs, t.IsName v → IsNameText v.toList ∧ ∀ c ∈ v.toList, isBlank c = false

/-- A derivation leaves the last tokens over. -/
theorem NamesVariable.of_derivation {s : Symbol} {xs ys : List Token} (h : NamesVariable v xs)
    (d : Derivation v s xs ys) : NamesVariable v ys := by
  obtain ⟨p, rfl, -, -⟩ := d.exists_append
  exact fun t ht => h t (List.mem_append_right p ht)

theorem NamesVariable.of_opening {xs ys : List Token} {closing : TokenKind} {op : UnaryOp}
    (h : NamesVariable v xs) (hopening : Opening xs ys closing op) : NamesVariable v ys := by
  obtain ⟨p, -, rfl, -⟩ := hopening.exists_append
  exact fun t ht => h t (List.mem_append_right p ht)

theorem NamesVariable.tail {t : Token} {xs : List Token} (h : NamesVariable v (t :: xs)) :
    NamesVariable v xs :=
  fun t' ht' => h t' (List.mem_cons_of_mem t ht')

/-- A denotation that can be written: a tree that binds as tightly as the symbol asks for, or a
chain that makes such a tree of such a tree. -/
def Symbol.Writes (v : String) : (s : Symbol) → s.Denotation R → Prop
  | .expression, tree => Writable v tree
  | .sums, chain => ∀ left : Expr R, Writable v left → Writable v (chain left)
  | .term, tree => Writable v tree ∧ .factor ≤ tree.precedence
  | .products, chain =>
    ∀ left : Expr R, Writable v left → .factor ≤ left.precedence →
      Writable v (chain left) ∧ .factor ≤ (chain left).precedence
  | .factor, tree => Writable v tree ∧ .neg ≤ tree.precedence
  | .primary, tree => Writable v tree ∧ tree.precedence = .primary

theorem Opening.writable {xs ys : List Token} {closing : TokenKind} {op : UnaryOp}
    (h : Opening xs ys closing op) {u : Expr R} (hu : Writable v u) :
    Writable v (.unary op u) ∧ (Expr.unary op u).precedence = .primary := by
  cases h with
  | paren => exact ⟨hu.group, rfl⟩
  | bar => exact ⟨hu.call .abs, rfl⟩
  | call => exact ⟨hu.call _, rfl⟩
  | exp => exact ⟨hu.exp, rfl⟩

theorem SumSign.eq_plus_or_eq_minus {k : TokenKind} {op : BinaryOp} (h : SumSign k op) :
    op = .plus ∨ op = .minus := by
  cases h <;> simp

theorem ProductSign.eq_times_or_eq_div {k : TokenKind} {op : BinaryOp} (h : ProductSign k op) :
    op = .times ∨ op = .div := by
  cases h <;> simp

theorem writable_const {c : R} (hc : IsUnsigned c) :
    Writable v (.const c) ∧ (Expr.const c).precedence = .primary :=
  ⟨.const hc, by simp [precedence, hc.not_negative]⟩

variable [One R] [NatCast R] [OfScientific R] [LawfulNumeral R]

/-- **What is read can be written.** -/
theorem Derivation.writable {s : Symbol} {xs ys : List Token}
    (d : Derivation v s xs ys) (hxs : NamesVariable v xs) :
    s.Writes v (d.denote : s.Denotation R) := by
  induction d with
  | expression first more ihf ihm => exact ihm (hxs.of_derivation first) _ (ihf hxs).1
  | sumsNil => exact fun left hleft => hleft
  | sumsCons op hsign right more ihr ihm =>
    intro left hleft
    obtain ⟨hright, hprecedence⟩ := ihr hxs.tail
    refine ihm (hxs.tail.of_derivation right) _ ?_
    obtain rfl | rfl := hsign.eq_plus_or_eq_minus
    · exact .binary .plus (Nat.zero_le _) hprecedence hleft hright
    · exact .binary .minus (Nat.zero_le _) hprecedence hleft hright
  | term first more ihf ihm =>
    obtain ⟨hfirst, hprecedence⟩ := ihf hxs
    exact ihm (hxs.of_derivation first) _ hfirst (Nat.le_trans (by decide) hprecedence)
  | productsNil => exact fun left hleft hprecedence => ⟨hleft, hprecedence⟩
  | productsCons op hsign right more ihr ihm =>
    intro left hleft hfactor
    obtain ⟨hright, hprecedence⟩ := ihr hxs.tail
    refine ihm (hxs.tail.of_derivation right) _ ?_ ?_
    · obtain rfl | rfl := hsign.eq_times_or_eq_div
      · exact .binary .times hfactor hprecedence hleft hright
      · exact .binary .div hfactor hprecedence hleft hright
    · obtain rfl | rfl := hsign.eq_times_or_eq_div <;> exact Nat.le_refl _
  | negation _ u ih =>
    obtain ⟨hu, hprecedence⟩ := ih hxs.tail
    exact ⟨.negate hprecedence hu, Nat.le_refl _⟩
  | base b ih =>
    obtain ⟨hb, hprecedence⟩ := ih hxs
    exact ⟨hb, by rw [denote, hprecedence]; decide⟩
  | power b _ exponent ihb ihe =>
    obtain ⟨hb, hprecedence⟩ := ihb hxs
    obtain ⟨hexponent, hneg⟩ := ihe (hxs.of_derivation b).tail
    have hbase : Precedence.exp < (b.denote : Expr R).precedence := by
      rw [hprecedence]
      decide
    exact ⟨.binary .pow hbase hneg hb hexponent, (by decide : Precedence.neg ≤ .exp)⟩
  | exponential _ _ _ u ih =>
    obtain ⟨hu, -⟩ := ih hxs.tail.tail
    exact ⟨hu.exp, (by decide : Precedence.neg ≤ .primary)⟩
  | number => exact writable_const (LawfulNumeral.isUnsigned_ofScientific _ _)
  | var hname hfree =>
    obtain ⟨hname, hblank⟩ := hxs _ (List.mem_cons_self ..) hname
    exact ⟨.var ⟨hfree, hname, hblank⟩, rfl⟩
  | pi => exact writable_const LawfulNumeral.isUnsigned_pi
  | euler => exact ⟨Writable.one.exp, rfl⟩
  | delimited op hopening u _ ih => exact hopening.writable (ih (hxs.of_opening hopening))

end Grammar

end Univariate
