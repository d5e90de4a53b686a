import Univariate.Expr.Plain
import Univariate.Proofs.Writable

/-!
# What a tree is written as

The plain text of a tree and the derivation of a tree meet in the middle. What a tree is written as
is a list of pieces, which is defined by recursion on the tree, and which knows nothing of blanks,
places or readers. On the one side the plain text, with its blanks removed, is cut into these
pieces. On the other side these pieces derive the tree, from the symbol that belongs to its
precedence.

An operand of a writable tree binds tightly enough for its place, so the symbol that its pieces
derive from can be widened to the one that the grammar asks for there. The operations that are read
from left to right need one more thing. The grammar derives a chain from its front, while a tree is
built from its last operand on, so a chain has to be continued at its end.

## Main definitions

* `Expr.spelling`: what a tree is written as.
* `Cuts`: a text that is cut into given pieces.
* `Grammar.Spells`: pieces that derive a tree from a symbol.
* `Expr.AllFinite`: the trees for which the two sides fit.

## Main results

* `Expr.Writable.cuts_plain`: the plain text of a tree is cut into its pieces.
* `Expr.Writable.spellsAt`: the pieces of a tree derive the tree.
-/

namespace Univariate

open Univariate.Text

/-! ### What a tree is written as -/

/-- The piece that the sign of an operation is. -/
def BinaryOp.piece : BinaryOp → Piece
  | .plus => (.plus, ['+'])
  | .minus => (.minus, ['-'])
  | .times => (.times, ['×'])
  | .div => (.slash, ['÷'])
  | .pow => (.caret, ['^'])

/-- The piece that a number is written as when it is not finite. -/
def infinitePiece : Piece := (.name, ['i', 'n', 'f'])

/-- Pieces in parentheses. -/
def parenthesized (ps : List Piece) : List Piece :=
  (.openParen, ['(']) :: (ps ++ [(.closeParen, [')'])])

variable {R : Type} [Zero R] [BEq R] [Numeral R]

/-- The piece that a number without a sign is. -/
def constantPiece (c : R) : Piece :=
  if c == Numeral.pi then (.name, ['p', 'i'])
  else if Numeral.isFinite c then (.number, (Numeral.magnitude c).toList)
  else infinitePiece

/-- What a writable tree is written as. -/
def Expr.spelling : Expr R → List Piece
  | .var name => [(.name, name.toList)]
  | .const c => [constantPiece c]
  | .unary .negate u => BinaryOp.minus.piece :: u.spelling
  | .unary .group u => parenthesized u.spelling
  | .unary .exp u => (.name, ['e']) :: BinaryOp.pow.piece :: parenthesized u.spelling
  | .unary (.call f) u => (.name, f.name.toList) :: parenthesized u.spelling
  | .binary op l r => l.spelling ++ op.piece :: r.spelling
  | _ => []

/-! ### Cutting the text of a tree -/

theorem Text.toList_strip_append (s t : String) :
    (strip (s ++ t)).toList = (strip s).toList ++ (strip t).toList := by
  simp [toList_strip]

/-- A text of a single character, perhaps with blanks around it, that is a piece of its own. It
prolongs neither a name nor a literal in front of it. -/
def IsSign (s : String) (p : Piece) : Prop :=
  ∃ c, (strip s).toList = [c] ∧ p = (symbolKind c, [c]) ∧ isNameRest c = false ∧ c ≠ '.'

theorem BinaryOp.isSign (op : BinaryOp) : IsSign (" " ++ op.symbol ++ " ") op.piece := by
  cases op <;> exact ⟨_, rfl, rfl, by decide +kernel, by decide⟩

theorem isSign_minus : IsSign "-" BinaryOp.minus.piece :=
  ⟨'-', rfl, rfl, by decide, by decide⟩

theorem isSign_openParen : IsSign "(" (.openParen, ['(']) :=
  ⟨'(', rfl, rfl, by decide, by decide⟩

theorem isSign_closeParen : IsSign ")" (.closeParen, [')']) :=
  ⟨')', rfl, rfl, by decide, by decide⟩

theorem Func.isNameText_name (f : Func) : IsNameText f.name.toList := by
  cases f <;> decide

/-- A text is cut into the given pieces wherever it stands, unless what follows prolongs it. -/
def Cuts (s : String) (ps : List Piece) : Prop :=
  ∀ rest, IsBreak rest → pieces ((strip s).toList ++ rest) = ps ++ pieces rest

namespace Cuts

variable {s t sign : String} {ps qs : List Piece} {p : Piece}

theorem map_piece_tokenize (h : Cuts s ps) : (tokenize (strip s)).map Token.piece = ps := by
  have hpieces := h [] isBreak_nil
  rw [List.append_nil, pieces_nil, List.append_nil] at hpieces
  exact (map_piece_tokensFrom 0 _).trans hpieces

theorem name (h : IsNameText s.toList) : Cuts s [(.name, s.toList)] := by
  intro rest hrest
  rw [toList_strip_of_not_blank h.not_blank]
  exact pieces_name h hrest

theorem literal (h : IsLiteralText s.toList) : Cuts s [(.number, s.toList)] := by
  intro rest hrest
  rw [toList_strip_of_not_blank h.not_blank]
  exact pieces_literal h hrest

/-- Anything may follow a sign. -/
theorem sign_append (hsign : IsSign sign p) (h : Cuts t qs) : Cuts (sign ++ t) (p :: qs) := by
  obtain ⟨c, hc, rfl, hrest, -⟩ := hsign
  intro rest hbreak
  rw [toList_strip_append, hc, List.append_assoc, List.singleton_append, pieces_symbol hrest,
    h rest hbreak]
  rfl

/-- A sign may follow anything. -/
theorem append_sign (h : Cuts s ps) (hsign : IsSign sign p) : Cuts (s ++ sign) (ps ++ [p]) := by
  obtain ⟨c, hc, rfl, hrest, hpoint⟩ := hsign
  intro rest _
  rw [toList_strip_append, hc, List.append_assoc, List.singleton_append,
    h _ (isBreak_cons.mpr ⟨hrest, hpoint⟩), pieces_symbol hrest, List.append_assoc]
  rfl

/-- A sign may stand between any two texts. -/
theorem infix_sign (hs : Cuts s ps) (hsign : IsSign sign p) (ht : Cuts t qs) :
    Cuts (s ++ sign ++ t) (ps ++ p :: qs) := by
  obtain ⟨c, hc, rfl, hrest, hpoint⟩ := hsign
  intro rest hbreak
  rw [toList_strip_append, toList_strip_append, hc, List.append_assoc, List.append_assoc,
    List.singleton_append, hs _ (isBreak_cons.mpr ⟨hrest, hpoint⟩), pieces_symbol hrest,
    ht rest hbreak, List.append_assoc]
  rfl

theorem negation (h : Cuts s ps) : Cuts ("-" ++ s) (BinaryOp.minus.piece :: ps) :=
  sign_append isSign_minus h

theorem parenthesized (h : Cuts s ps) : Cuts ("(" ++ s ++ ")") (parenthesized ps) :=
  append_sign (sign_append isSign_openParen h) isSign_closeParen

/-- Something may stand in front of parentheses. -/
theorem append_parenthesized (hs : Cuts s ps) (ht : Cuts t qs) :
    Cuts (s ++ "(" ++ t ++ ")") (ps ++ Univariate.parenthesized qs) := by
  have h := append_sign (infix_sign hs isSign_openParen ht) isSign_closeParen
  simpa [Univariate.parenthesized] using h

theorem call (f : Func) (h : Cuts s ps) :
    Cuts (f.name ++ "(" ++ s ++ ")") ((.name, f.name.toList) :: Univariate.parenthesized ps) :=
  append_parenthesized (name f.isNameText_name) h

theorem exp (h : Cuts s ps) :
    Cuts ("e^(" ++ s ++ ")")
      ((.name, ['e']) :: BinaryOp.pow.piece :: Univariate.parenthesized ps) := by
  have hname : Cuts "e" [(.name, ['e'])] := name (by decide)
  have hcaret : IsSign "^" BinaryOp.pow.piece := ⟨'^', rfl, rfl, by decide, by decide⟩
  have hopen : "e^(" = "e" ++ "^" ++ "(" := by decide
  rw [hopen]
  exact append_parenthesized (append_sign hname hcaret) h

theorem operation (op : BinaryOp) (hs : Cuts s ps) (ht : Cuts t qs) :
    Cuts (s ++ " " ++ op.symbol ++ " " ++ t) (ps ++ op.piece :: qs) := by
  have h := infix_sign hs op.isSign ht
  simpa only [String.append_assoc] using h

end Cuts

section Plain

variable [One R] [NatCast R] [OfScientific R] [LawfulNumeral R]

/-- A number is a piece as a whole. -/
theorem Cuts.constant {c : R} (hc : IsUnsigned c) :
    Cuts (constantText "pi" c) [constantPiece c] := by
  rw [constantText, constantPiece]
  split
  · exact name (by decide)
  · rw [hc.text_eq_magnitude]
    split
    · next hfinite => exact literal (LawfulNumeral.isLiteralText_magnitude c hc hfinite)
    · next hfinite =>
      rw [LawfulNumeral.magnitude_of_not_isFinite c hc (by simpa using hfinite)]
      exact name (by decide)

variable [Neg R] {v : String} {t : Expr R}

/-- **The plain text of a tree is cut into its pieces.** -/
theorem Expr.Writable.cuts_plain (h : Writable v t) : Cuts t.plain t.spelling := by
  induction h with
  | var hv => exact .name hv.isNameText
  | const hc => exact .constant hc
  | negate _ _ ih => exact ih.negation
  | group _ ih => exact ih.parenthesized
  | exp _ ih => exact ih.exp
  | call f _ ih => exact ih.call f
  | binary op _ _ _ _ ihl ihr => exact ihl.operation op ihr

end Plain

/-! ### Deriving a tree from its pieces -/

namespace Grammar

variable [One R] [OfScientific R] {v : String}

/-- Pieces that derive something from a symbol, wherever they stand and whatever follows them. -/
def Spells (v : String) (s : Symbol) (ps : List Piece) (result : s.Denotation R) : Prop :=
  ∀ ts ys : List Token, ts.map Token.piece = ps →
    ∃ d : Derivation v s (ts ++ ys) ys, d.denote = result

theorem Token.isName_of_piece {t : Token} {name : String} (h : t.piece = (.name, name.toList)) :
    t.IsName name := by
  obtain ⟨hkind, hlexeme⟩ := Prod.mk.inj h
  exact ⟨hkind, by rw [Token.text, hlexeme, String.ofList_toList]⟩

/-- A chain of factors may be continued at its end. -/
theorem Derivation.exists_products_snoc {t : Token} {op : BinaryOp} {ys zs : List Token}
    (hsign : ProductSign t.kind op) (right : Derivation v .factor ys zs) :
    ∀ {xs : List Token} (d : Derivation v .products xs (t :: ys)),
      ∃ d' : Derivation v .products xs zs,
        ∀ left : Expr R, d'.denote left = .binary op (d.denote left) right.denote
  | _, .productsNil => ⟨.productsCons op hsign right .productsNil, fun _ => rfl⟩
  | _, .productsCons op' hsign' first more => by
    obtain ⟨d', hd'⟩ := exists_products_snoc hsign right more
    exact ⟨.productsCons op' hsign' first d', fun left => hd' _⟩

/-- A chain of terms may be continued at its end. -/
theorem Derivation.exists_sums_snoc {t : Token} {op : BinaryOp} {ys zs : List Token}
    (hsign : SumSign t.kind op) (right : Derivation v .term ys zs) :
    ∀ {xs : List Token} (d : Derivation v .sums xs (t :: ys)),
      ∃ d' : Derivation v .sums xs zs,
        ∀ left : Expr R, d'.denote left = .binary op (d.denote left) right.denote
  | _, .sumsNil => ⟨.sumsCons op hsign right .sumsNil, fun _ => rfl⟩
  | _, .sumsCons op' hsign' first more => by
    obtain ⟨d', hd'⟩ := exists_sums_snoc hsign right more
    exact ⟨.sumsCons op' hsign' first d', fun left => hd' _⟩

variable {ps qs : List Piece} {t l r u : Expr R}

theorem Spells.factor_of_primary (h : Spells v .primary ps t) : Spells v .factor ps t := by
  intro ts ys hts
  obtain ⟨d, hd⟩ := h ts ys hts
  exact ⟨.base d, hd⟩

theorem Spells.term_of_factor (h : Spells v .factor ps t) : Spells v .term ps t := by
  intro ts ys hts
  obtain ⟨d, hd⟩ := h ts ys hts
  exact ⟨.term d .productsNil, hd⟩

theorem Spells.expression_of_term (h : Spells v .term ps t) : Spells v .expression ps t := by
  intro ts ys hts
  obtain ⟨d, hd⟩ := h ts ys hts
  exact ⟨.expression d .sumsNil, hd⟩

theorem Spells.negation (h : Spells v .factor ps u) :
    Spells v .factor (BinaryOp.minus.piece :: ps) (.negate u) := by
  intro ts ys hts
  obtain ⟨t, ts, rfl, ht, hts⟩ := List.map_eq_cons_iff.mp hts
  obtain ⟨d, rfl⟩ := h ts ys hts
  exact ⟨.negation (Prod.mk.inj ht).1 d, rfl⟩

theorem Spells.power (hl : Spells v .primary ps l) (hr : Spells v .factor qs r) :
    Spells v .factor (ps ++ BinaryOp.pow.piece :: qs) (.binary .pow l r) := by
  intro ts ys hts
  obtain ⟨tl, tr, rfl, htl, htr⟩ := List.map_eq_append_iff.mp hts
  obtain ⟨t, tr, rfl, ht, htr⟩ := List.map_eq_cons_iff.mp htr
  obtain ⟨dr, rfl⟩ := hr tr ys htr
  obtain ⟨dl, rfl⟩ := hl tl (t :: (tr ++ ys)) htl
  rw [List.append_assoc]
  exact ⟨.power dl (Prod.mk.inj ht).1 dr, rfl⟩

theorem Spells.product {op : BinaryOp} {sign : Piece} (hsign : ProductSign sign.1 op)
    (hl : Spells v .term ps l) (hr : Spells v .factor qs r) :
    Spells v .term (ps ++ sign :: qs) (.binary op l r) := by
  intro ts ys hts
  obtain ⟨tl, tr, rfl, htl, htr⟩ := List.map_eq_append_iff.mp hts
  obtain ⟨t, tr, rfl, ht, htr⟩ := List.map_eq_cons_iff.mp htr
  obtain ⟨dr, rfl⟩ := hr tr ys htr
  obtain ⟨dl, rfl⟩ := hl tl (t :: (tr ++ ys)) htl
  rw [← ht] at hsign
  rw [List.append_assoc]
  cases dl with
  | term first more =>
    obtain ⟨d, hd⟩ := Derivation.exists_products_snoc (R := R) hsign dr more
    exact ⟨.term first d, hd _⟩

theorem Spells.sum {op : BinaryOp} (hsign : SumSign op.piece.1 op)
    (hl : Spells v .expression ps l) (hr : Spells v .term qs r) :
    Spells v .expression (ps ++ op.piece :: qs) (.binary op l r) := by
  intro ts ys hts
  obtain ⟨tl, tr, rfl, htl, htr⟩ := List.map_eq_append_iff.mp hts
  obtain ⟨t, tr, rfl, ht, htr⟩ := List.map_eq_cons_iff.mp htr
  obtain ⟨dr, rfl⟩ := hr tr ys htr
  obtain ⟨dl, rfl⟩ := hl tl (t :: (tr ++ ys)) htl
  rw [← ht] at hsign
  rw [List.append_assoc]
  cases dl with
  | expression first more =>
    obtain ⟨d, hd⟩ := Derivation.exists_sums_snoc (R := R) hsign dr more
    exact ⟨.expression first d, hd _⟩

/-- Pieces in parentheses derive the operand of what opens them. -/
theorem Spells.delimited {o : List Piece} {op : UnaryOp}
    (hopening : ∀ ts ys : List Token, ts.map Token.piece = o ++ [(.openParen, ['('])] →
      Opening (ts ++ ys) ys .closeParen op) (h : Spells v .expression ps u) :
    Spells v .primary (o ++ parenthesized ps) (.unary op u) := by
  intro ts ys hts
  rw [parenthesized, List.append_cons, ← List.append_assoc] at hts
  obtain ⟨ts, tc, rfl, hts, htc⟩ := List.map_eq_append_iff.mp hts
  obtain ⟨tp, ti, rfl, htp, hti⟩ := List.map_eq_append_iff.mp hts
  obtain ⟨t, tc, rfl, ht, htc⟩ := List.map_eq_cons_iff.mp htc
  obtain rfl := List.map_eq_nil_iff.mp htc
  obtain ⟨d, rfl⟩ := h ti (t :: ys) hti
  have hopens := hopening tp (ti ++ t :: ys) htp
  rw [List.append_assoc, List.append_assoc]
  exact ⟨.delimited op hopens d (Prod.mk.inj ht).1, rfl⟩

theorem Spells.group (h : Spells v .expression ps u) :
    Spells v .primary (parenthesized ps) (.group u) := by
  refine Spells.delimited (o := []) (fun ts ys hts => ?_) h
  obtain ⟨t, ts, rfl, ht, hts⟩ := List.map_eq_cons_iff.mp hts
  obtain rfl := List.map_eq_nil_iff.mp hts
  exact .paren (Prod.mk.inj ht).1

theorem Spells.call (f : Func) (h : Spells v .expression ps u) :
    Spells v .primary ((.name, f.name.toList) :: parenthesized ps) (.call f u) := by
  refine Spells.delimited (o := [(.name, f.name.toList)]) (fun ts ys hts => ?_) h
  obtain ⟨t, ts, rfl, ht, hts⟩ := List.map_eq_cons_iff.mp hts
  obtain ⟨t', ts, rfl, ht', hts⟩ := List.map_eq_cons_iff.mp hts
  obtain rfl := List.map_eq_nil_iff.mp hts
  exact .call (Token.isName_of_piece ht) (Prod.mk.inj ht').1

theorem Spells.exp (h : Spells v .expression ps u) :
    Spells v .primary ((.name, ['e']) :: BinaryOp.pow.piece :: parenthesized ps)
      (.unary .exp u) := by
  refine Spells.delimited (o := [(.name, ['e']), BinaryOp.pow.piece]) (fun ts ys hts => ?_) h
  obtain ⟨t, ts, rfl, ht, hts⟩ := List.map_eq_cons_iff.mp hts
  obtain ⟨t', ts, rfl, ht', hts⟩ := List.map_eq_cons_iff.mp hts
  obtain ⟨t'', ts, rfl, ht'', hts⟩ := List.map_eq_cons_iff.mp hts
  obtain rfl := List.map_eq_nil_iff.mp hts
  exact .exp (Token.isName_of_piece ht) (Prod.mk.inj ht').1 (Prod.mk.inj ht'').1

theorem Spells.var (hv : IsVariable v) :
    Spells v .primary [(.name, v.toList)] (.var v : Expr R) := by
  intro ts ys hts
  obtain ⟨t, ts, rfl, ht, hts⟩ := List.map_eq_cons_iff.mp hts
  obtain rfl := List.map_eq_nil_iff.mp hts
  exact ⟨.var (Token.isName_of_piece ht) hv.not_reserved, rfl⟩

theorem Spells.number (cs : List Char) :
    Spells v .primary [(.number, cs)] (.const (Decimal.literalValue cs) : Expr R) := by
  intro ts ys hts
  obtain ⟨t, ts, rfl, ht, hts⟩ := List.map_eq_cons_iff.mp hts
  obtain rfl := List.map_eq_nil_iff.mp hts
  obtain ⟨hkind, rfl⟩ := Prod.mk.inj ht
  exact ⟨.number hkind, rfl⟩

theorem Spells.pi : Spells v .primary [(.name, ['p', 'i'])] (.const Numeral.pi : Expr R) := by
  intro ts ys hts
  obtain ⟨t, ts, rfl, ht, hts⟩ := List.map_eq_cons_iff.mp hts
  obtain rfl := List.map_eq_nil_iff.mp hts
  exact ⟨.pi (Token.isName_of_piece ht), rfl⟩

theorem Spells.const [NatCast R] [LawfulNumeral R] {c : R} (hc : IsUnsigned c)
    (hfinite : Numeral.isFinite c = true) : Spells v .primary [constantPiece c] (.const c) := by
  rw [constantPiece]
  split
  · next hpi =>
    rw [LawfulNumeral.eq_pi_of_beq c hpi]
    exact Spells.pi
  · have hnumber := Spells.number (v := v) (R := R) (Numeral.magnitude c).toList
    rwa [LawfulNumeral.literalValue_magnitude c hc hfinite] at hnumber

/-- The pieces of a tree derive it from the symbol of its precedence. -/
def SpellsAt (v : String) (ps : List Piece) (t : Expr R) : Precedence → Prop
  | .term => Spells v .expression ps t
  | .factor => Spells v .term ps t
  | .neg | .exp => Spells v .factor ps t
  | .primary => Spells v .primary ps t

variable {q : Precedence}

theorem SpellsAt.primary (h : SpellsAt v ps t q) (hq : .primary ≤ q) : Spells v .primary ps t := by
  cases q with
  | primary => exact h
  | _ => exact absurd hq (by decide)

theorem SpellsAt.factor (h : SpellsAt v ps t q) (hq : .neg ≤ q) : Spells v .factor ps t := by
  cases q with
  | primary => exact Spells.factor_of_primary h
  | neg | exp => exact h
  | _ => exact absurd hq (by decide)

theorem SpellsAt.term (h : SpellsAt v ps t q) (hq : .factor ≤ q) : Spells v .term ps t := by
  cases q with
  | factor => exact h
  | term => exact absurd hq (by decide)
  | _ => exact (h.factor (by decide)).term_of_factor

theorem SpellsAt.expression (h : SpellsAt v ps t q) : Spells v .expression ps t := by
  cases q with
  | term => exact h
  | _ => exact (h.term (by decide)).expression_of_term

end Grammar

namespace Expr

open Grammar

variable {v : String} {t u l r : Expr R}

/-- Whether all numbers of a tree are finite. -/
def AllFinite (t : Expr R) : Prop :=
  ∀ c : R, const c ∈ t.nodes → Numeral.isFinite c = true

theorem AllFinite.of_unary {op : UnaryOp} (h : AllFinite (unary op u)) : AllFinite u :=
  fun c hc => h c (mem_nodes_unary.mpr (.inl hc))

theorem AllFinite.of_binary {op : BinaryOp} (h : AllFinite (binary op l r)) :
    AllFinite l ∧ AllFinite r :=
  ⟨fun c hc => h c (mem_nodes_binary.mpr (.inl hc)),
    fun c hc => h c (mem_nodes_binary.mpr (.inr (.inl hc)))⟩

variable [One R] [NatCast R] [OfScientific R] [LawfulNumeral R]

/-- **The pieces of a tree derive the tree.** -/
theorem Writable.spellsAt (h : Writable v t) (hfinite : t.AllFinite) :
    SpellsAt v t.spelling t t.precedence := by
  induction h with
  | var hv => exact Spells.var hv
  | @const c hc =>
    have hc' : Numeral.isFinite c = true := hfinite c (by rw [nodes_eq_postOrder]; simp [postOrder])
    rw [precedence, if_neg (by simp [hc.not_negative])]
    exact Spells.const hc hc'
  | negate hu _ ih => exact Spells.negation ((ih hfinite.of_unary).factor hu)
  | group _ ih => exact Spells.group (ih hfinite.of_unary).expression
  | exp _ ih => exact Spells.exp (ih hfinite.of_unary).expression
  | call f _ ih => exact Spells.call f (ih hfinite.of_unary).expression
  | binary op haccl haccr _ _ ihl ihr =>
    have hl := ihl hfinite.of_binary.1
    have hr := ihr hfinite.of_binary.2
    cases op with
    | plus => exact Spells.sum .plus hl.expression (hr.term haccr)
    | minus => exact Spells.sum .minus hl.expression (hr.term haccr)
    | times => exact Spells.product .times (hl.term haccl) (hr.factor haccr)
    | div => exact Spells.product .slash (hl.term haccl) (hr.factor haccr)
    | pow => exact Spells.power (hl.primary haccl) (hr.factor haccr)

end Expr

end Univariate
