import Univariate.Proofs.Juxtaposition

/-!
# Minus signs side by side in LaTeX

A negation is shown by a minus in front of its operand. What starts with a minus itself would have
to be put into parentheses then, or else two minus signs would stand side by side. The numbers of a
tree that was read have no sign, and the minus of a difference stands between blanks, so that only
another negation starts with a minus. A negation is not put into parentheses, however, when it is
negated.

So the text shows two minus signs side by side exactly if a negation is negated in the tree. In one
direction this is a fact about every tree, since the text of each part of a tree is part of the text
of the tree. In the other direction texts with no such signs are put together to texts with no such
signs, which only needs that none of them ends in a minus.

## Main definitions

* `Latex.IsPart`: a text is part of another one.
* `Latex.SingleSigns`: texts without two minus signs side by side.
* `Expr.NegatesOnce`: trees in which no negation is negated.

## Main results

* `Expr.isPart_latexText`: the text of a part of a tree is part of its text.
* `Expr.Writable.singleSigns`: trees in which no negation is negated show one minus sign at a time.
* `Expr.isPart_doubleMinus_latex_iff`: which trees show two minus signs side by side.
* `Expr.isPart_doubleMinus_latex`: a text that is read as such a tree.
-/

namespace Univariate

open Univariate.Text

/-! ### Parts of texts -/

namespace Latex

/-- A text that is part of another one. -/
def IsPart (part s : String) : Prop :=
  part.toList <:+: s.toList

namespace IsPart

variable {part s t : String}

theorem refl (s : String) : IsPart s s :=
  List.infix_rfl

theorem trans (h : IsPart part s) (h' : IsPart s t) : IsPart part t :=
  List.IsInfix.trans h h'

theorem append_left (h : IsPart part s) (t : String) : IsPart part (s ++ t) := by
  rw [IsPart, String.toList_append]
  exact List.IsInfix.trans h (List.prefix_append _ _).isInfix

theorem append_right (s : String) (h : IsPart part t) : IsPart part (s ++ t) := by
  rw [IsPart, String.toList_append]
  exact List.IsInfix.trans h (List.suffix_append _ _).isInfix

theorem parenthesized (h : IsPart part s) : IsPart part (Latex.parenthesized s) :=
  (h.append_right _).append_left _

theorem braced (h : IsPart part s) : IsPart part (Latex.braced s) :=
  (h.append_right _).append_left _

theorem call (f : Func) (h : IsPart part s) : IsPart part (f.latexCall s) := by
  cases f with
  | sqrt => exact h.braced.append_right _
  | floor | abs => exact (h.append_right _).append_left _
  | _ => exact h.parenthesized.append_right _

end IsPart

/-! ### Texts with single minus signs -/

/-- A text in which no two minus signs stand side by side, and that does not end in one. -/
structure SingleSigns (s : String) : Prop where
  /-- Of two characters side by side, one is no minus. -/
  isChain : s.toList.IsChain fun c d => c = '-' → d ≠ '-'
  /-- The last character is no minus. -/
  getLast?_ne : s.toList.getLast? ≠ some '-'

namespace SingleSigns

variable {s t : String}

theorem not_isPart (h : SingleSigns s) : ¬ IsPart "--" s := by
  intro hinfix
  have hchain := List.IsChain.infix h.isChain hinfix
  exact List.isChain_pair.mp hchain rfl rfl

theorem of_not_mem (h : '-' ∉ s.toList) : SingleSigns s where
  isChain := by
    refine List.isChain_iff_forall_rel_of_append_cons_cons.mpr ?_
    rintro _ d before behind heq rfl
    exact absurd (by simp [heq]) h
  getLast?_ne := fun hlast => h (List.mem_of_getLast? hlast)

/-- Texts can stand one after the other. -/
theorem append (hs : SingleSigns s) (ht : SingleSigns t) : SingleSigns (s ++ t) where
  isChain := by
    rw [String.toList_append]
    refine hs.isChain.append ht.isChain ?_
    rintro _ hc d - rfl
    exact absurd hc hs.getLast?_ne
  getLast?_ne := by
    rw [String.toList_append, List.getLast?_append, ne_eq, Option.or_eq_some_iff]
    rintro (hlast | ⟨-, hlast⟩)
    · exact ht.getLast?_ne hlast
    · exact hs.getLast?_ne hlast

/-- A minus can stand in front of anything that does not start with a minus. -/
theorem minus {c : Char} (hs : SingleSigns s) (hhead : s.toList.head? = some c) (hc : c ≠ '-') :
    SingleSigns ("-" ++ s) where
  isChain := by
    rw [String.toList_append]
    refine .cons hs.isChain ?_
    rintro d hd -
    obtain rfl : c = d := Option.some.inj (hhead.symm.trans hd)
    exact hc
  getLast?_ne := by
    have hne : s.toList ≠ [] := by
      intro hnil
      simp [hnil] at hhead
    rw [String.toList_append, List.getLast?_append_of_ne_nil _ hne]
    exact hs.getLast?_ne

theorem parenthesized (h : SingleSigns s) : SingleSigns (Latex.parenthesized s) :=
  ((of_not_mem (by decide)).append h).append (of_not_mem (by decide))

theorem braced (h : SingleSigns s) : SingleSigns (Latex.braced s) :=
  ((of_not_mem (by decide)).append h).append (of_not_mem (by decide))

theorem call (f : Func) (h : SingleSigns s) : SingleSigns (f.latexCall s) := by
  cases f with
  | sqrt => exact (of_not_mem (by decide)).append h.braced
  | floor | abs => exact ((of_not_mem (by decide)).append h).append (of_not_mem (by decide))
  | _ => exact (of_not_mem (by decide)).append h.parenthesized

end SingleSigns

end Latex

open Latex

namespace Expr

/-! ### The texts of the parts of a tree -/

section Parts

variable {R : Type} [Zero R] [One R] [Neg R] [BEq R] [Numeral R] {t u : Expr R}

/-- What is inside the parentheses around a tree is part of its text. -/
theorem isPart_latexText_true (t : Expr R) (bare : Bool) :
    IsPart (t.latexText true) (t.latexText bare) := by
  induction t generalizing bare with
  | unary op u ih =>
    cases op with
    | group =>
      cases bare with
      | true => exact ih true
      | false => exact (ih false).parenthesized
    | _ => exact .refl _
  | binary op l r => cases op <;> exact .refl _
  | _ => exact .refl _

/-- The text of an operand is part of the text of the operation, with or without its parentheses. -/
theorem exists_isPart_latexText_unary (op : UnaryOp) (u : Expr R) (bare : Bool) :
    ∃ bare', IsPart (u.latexText bare') ((unary op u).latexText bare) := by
  cases op with
  | group =>
    cases bare with
    | true => exact ⟨true, .refl _⟩
    | false => exact ⟨false, (IsPart.refl _).parenthesized⟩
  | negate =>
    refine ⟨false, ?_⟩
    rw [latexText]
    split
    · exact (IsPart.refl _).append_right _
    · exact (IsPart.refl _).parenthesized.append_right _
  | exp | reciprocal => exact ⟨true, (IsPart.refl _).braced.append_right _⟩
  | call f => exact ⟨true, (IsPart.refl _).call f⟩

theorem exists_isPart_latexText_left (op : BinaryOp) (l r : Expr R) (bare : Bool) :
    ∃ bare', IsPart (l.latexText bare') ((binary op l r).latexText bare) := by
  cases op with
  | plus | minus | times => exact ⟨false, ((IsPart.refl _).append_left _).append_left _⟩
  | div => exact ⟨true, ((IsPart.refl _).braced.append_right _).append_left _⟩
  | pow =>
    refine ⟨true, ?_⟩
    rw [latexText]
    split
    · exact ((IsPart.refl _).parenthesized.append_left _).append_left _
    · exact ((IsPart.refl _).append_left _).append_left _

theorem exists_isPart_latexText_right (op : BinaryOp) (l r : Expr R) (bare : Bool) :
    ∃ bare', IsPart (r.latexText bare') ((binary op l r).latexText bare) := by
  cases op with
  | plus | minus | times => exact ⟨false, (IsPart.refl _).append_right _⟩
  | div | pow => exact ⟨true, (IsPart.refl _).braced.append_right _⟩

/-- The text of each part of a tree is part of its text, up to the parentheses around it. -/
theorem isPart_latexText (hmem : u ∈ t.nodes) (bare : Bool) :
    IsPart (u.latexText true) (t.latexText bare) := by
  induction t generalizing bare with
  | unary op w ih =>
    obtain hmem' | rfl := mem_nodes_unary.mp hmem
    · obtain ⟨bare', hpart⟩ := exists_isPart_latexText_unary op w bare
      exact (ih hmem' bare').trans hpart
    · exact isPart_latexText_true _ bare
  | binary op l r ihl ihr =>
    obtain hmem' | hmem' | rfl := mem_nodes_binary.mp hmem
    · obtain ⟨bare', hpart⟩ := exists_isPart_latexText_left op l r bare
      exact (ihl hmem' bare').trans hpart
    · obtain ⟨bare', hpart⟩ := exists_isPart_latexText_right op l r bare
      exact (ihr hmem' bare').trans hpart
    · exact isPart_latexText_true _ bare
  | _ =>
    obtain rfl := List.mem_singleton.mp hmem
    exact .refl _

/-- A negation of a negation shows two minus signs. -/
theorem isPart_latexText_of_mem_nodes (hmem : negate (negate u) ∈ t.nodes) (bare : Bool) :
    IsPart "--" (t.latexText bare) := by
  have hsigns : ∃ rest, (negate (negate u)).latexText true = "--" ++ rest := by
    rw [latexText, standsBehindMinus, if_pos rfl, latexText]
    split
    · exact ⟨_, String.append_assoc.symm⟩
    · exact ⟨_, String.append_assoc.symm⟩
  obtain ⟨rest, hrest⟩ := hsigns
  have hpart : IsPart "--" ((negate (negate u)).latexText true) := by
    rw [hrest]
    exact (IsPart.refl _).append_left _
  exact hpart.trans (isPart_latexText hmem bare)

end Parts

/-! ### Trees without negated negations -/

section Once

variable {R : Type} [Zero R] [BEq R] {t u l r : Expr R}

/-- A tree in which no negation is negated. -/
def NegatesOnce (t : Expr R) : Prop :=
  ∀ u, negate (negate u) ∉ t.nodes

theorem NegatesOnce.unary {op : UnaryOp} (h : (unary op u).NegatesOnce) : u.NegatesOnce :=
  fun w hw => h w (mem_nodes_unary.mpr (.inl hw))

theorem NegatesOnce.left {op : BinaryOp} (h : (binary op l r).NegatesOnce) : l.NegatesOnce :=
  fun w hw => h w (mem_nodes_binary.mpr (.inl hw))

theorem NegatesOnce.right {op : BinaryOp} (h : (binary op l r).NegatesOnce) : r.NegatesOnce :=
  fun w hw => h w (mem_nodes_binary.mpr (.inr (.inl hw)))

theorem NegatesOnce.ne_negate (h : (negate u).NegatesOnce) (w : Expr R) : u ≠ negate w := by
  rintro rfl
  exact h w (mem_nodes_unary.mpr (.inr rfl))

/-- A tree that stands behind a minus without parentheses is shown as a whole. -/
theorem shownFirst_of_standsBehindMinus [Numeral R] (h : u.standsBehindMinus = true) :
    u.shownFirst false = u := by
  cases u with
  | unary op w => cases op <;> rfl
  | binary op l r => contradiction
  | _ => rfl

end Once

variable {R : Type} [Zero R] [One R] [Neg R] [NatCast R] [BEq R] [OfScientific R] [Numeral R]
  [LawfulNumeral R] {v : String} {t u : Expr R}

/-- A negation that is not negated starts with the only minus sign of its own. -/
theorem Writable.singleSigns_negate (hu : Writable v u) (honce : (Expr.negate u).NegatesOnce)
    (h : SingleSigns u.latex) (bare : Bool) : SingleSigns ((Expr.negate u).latexText bare) := by
  rw [latexText]
  split
  · next hstands =>
    have hstarts := hu.startsAs false
    rw [shownFirst_of_standsBehindMinus hstands] at hstarts
    cases hhead : u.latex.toList.head? with
    | none => exact absurd (List.head?_eq_none_iff.mp hhead) hstarts.ne_nil
    | some c =>
      refine h.minus hhead ?_
      rintro rfl
      obtain ⟨w, hw⟩ := hstarts.minus_iff.mp hhead
      exact honce.ne_negate w hw
  · exact h.parenthesized.minus (head?_parenthesized _) (by decide)

/-- **One minus sign at a time.** If no negation is negated in a tree, then its LaTeX text shows no
two minus signs side by side. -/
theorem Writable.singleSigns (h : Writable v t) (honce : t.NegatesOnce) (bare : Bool) :
    SingleSigns (t.latexText bare) := by
  induction h generalizing bare with
  | var hv =>
    refine .of_not_mem fun hmem => ?_
    exact absurd (hv.isNameText.isNameRest _ hmem) (by decide)
  | const hk =>
    obtain ⟨-, htext⟩ | ⟨-, -, hliteral⟩ | ⟨-, -, htext⟩ := constantText_cases hk
    · rw [latexText, htext]
      exact .of_not_mem (by decide)
    · refine .of_not_mem fun hmem => ?_
      obtain hdigit | hpoint := hliteral.isDigit_or_eq_point hmem
      · contradiction
      · contradiction
    · rw [latexText, htext]
      exact .of_not_mem (by decide)
  | negate _ hu ih => exact hu.singleSigns_negate honce (ih honce.unary false) bare
  | group hu ih =>
    cases bare with
    | true => exact ih honce.unary true
    | false => exact (ih honce.unary false).parenthesized
  | exp hu ih =>
    have hbase : SingleSigns "e^" := .of_not_mem (by decide)
    exact hbase.append (ih honce.unary true).braced
  | call f hu ih => exact (ih honce.unary true).call f
  | @binary l r op _ _ hl hr ihl ihr =>
    have hleft := ihl honce.left
    have hright := ihr honce.right
    cases op with
    | plus =>
      have hsign : SingleSigns " + " := .of_not_mem (by decide)
      exact ((hleft false).append hsign).append (hright false)
    | minus =>
      -- the minus of a difference has a blank on either side
      have hsign : SingleSigns " - " := ⟨by decide, by decide⟩
      exact ((hleft false).append hsign).append (hright false)
    | times =>
      have hdot : SingleSigns " \\cdot " := .of_not_mem (by decide)
      have hspace : SingleSigns " \\, " := .of_not_mem (by decide)
      rw [latexText]
      split
      · exact ((hleft false).append hdot).append (hright false)
      · exact ((hleft false).append hspace).append (hright false)
    | div =>
      have hfraction : SingleSigns "\\frac" := .of_not_mem (by decide)
      exact (hfraction.append (hleft true).braced).append (hright true).braced
    | pow =>
      have hcaret : SingleSigns "^" := .of_not_mem (by decide)
      rw [latexText]
      split
      · exact ((hleft true).parenthesized.append hcaret).append (hright true).braced
      · exact ((hleft true).append hcaret).append (hright true).braced

/-- **When two minus signs stand side by side.** The LaTeX text of a tree that was read without an
error shows two minus signs side by side if and only if a negation is negated in the tree. -/
theorem isPart_doubleMinus_latex_iff (v text : String)
    (h : (parse v text : Expr Double).hasError = false) :
    IsPart "--" (parse v text : Expr Double).latex ↔
      ∃ u, negate (negate u) ∈ (parse v text : Expr Double).nodes := by
  constructor
  · intro hsigns
    by_contra hnone
    have honce : (parse v text : Expr Double).NegatesOnce := not_exists.mp hnone
    exact ((writable_parse h).singleSigns honce false).not_isPart hsigns
  · rintro ⟨u, hu⟩
    exact isPart_latexText_of_mem_nodes hu false

/-- Parentheses between two minus signs keep them apart. -/
theorem isPart_doubleMinus_latex_iff_grouped :
    (parse "x" "-(-2)" : Expr Double).hasError = false ∧
      ¬ IsPart "--" (parse "x" "-(-2)" : Expr Double).latex := by
  have htokens : tokenize (strip "-(-2)") =
      [⟨.minus, 0, ['-']⟩, ⟨.openParen, 1, ['(']⟩, ⟨.minus, 2, ['-']⟩, ⟨.number, 3, ['2']⟩,
        ⟨.closeParen, 4, [')']⟩] := by cbv
  have hparse : (parse "x" "-(-2)" : Expr Double) =
      negate (group (negate (.const (Decimal.literalValue ['2'])))) :=
    parse_eq_denote_of_tokens htokens (.expression (.term (.negation rfl (.base
      (.delimited .group (.paren rfl) (.expression (.term (.negation rfl (.base (.number rfl)))
        .productsNil) .sumsNil) rfl))) .productsNil) .sumsNil)
  have herror : (parse "x" "-(-2)" : Expr Double).hasError = false := by
    rw [hparse]
    rfl
  refine ⟨herror, fun hsigns => ?_⟩
  obtain ⟨u, hu⟩ := (isPart_doubleMinus_latex_iff "x" "-(-2)" herror).mp hsigns
  rw [hparse, nodes_eq_postOrder] at hu
  simp [postOrder] at hu

/-- **Two minus signs.** A negated negation is not set into parentheses. -/
theorem isPart_doubleMinus_latex :
    (parse "x" "--2" : Expr Double).hasError = false ∧
      IsPart "--" (parse "x" "--2" : Expr Double).latex := by
  have htokens : tokenize (strip "--2") =
      [⟨.minus, 0, ['-']⟩, ⟨.minus, 1, ['-']⟩, ⟨.number, 2, ['2']⟩] := by cbv
  have hparse : (parse "x" "--2" : Expr Double) =
      negate (negate (.const (Decimal.literalValue ['2']))) :=
    parse_eq_denote_of_tokens htokens (.expression (.term (.negation rfl (.negation rfl
      (.base (.number rfl)))) .productsNil) .sumsNil)
  have hlatex : (parse "x" "--2" : Expr Double).latex = "--2" := by
    rw [hparse]
    decide
  refine ⟨?_, ?_⟩
  · rw [hparse]
    rfl
  · rw [hlatex]
    exact ⟨[], ['2'], rfl⟩

end Expr

end Univariate
