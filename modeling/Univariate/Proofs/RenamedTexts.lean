import Mathlib.Data.List.Forall2
import Univariate.Proofs.ErrorReports
import Univariate.Proofs.LongestMatch
import Univariate.Proofs.Renaming
import Univariate.Proofs.SessionRuns

/-!
# Renaming the variable of a text

The variable of a text can be given another name before the text is read. Each token that is the
variable is replaced, and what is read is the tree of the first text with the new name in it.

The tree follows the tokens, since every rule of the grammar that was used for the tokens of the one
text can be used for those of the other. What could go wrong is the cutting. The new name stands in
a text, and it would be cut off together with what is next to it if that were a name or a number. In
a text that is read, this does not happen. Two words never stand side by side there, and what stands
between them is a sign, with which neither a name nor a number goes on.

## Main definitions

* `renameVariable`: the text with another name for the variable.
* `Spaced`: no two words stand side by side.
* `Renames`: a token and what becomes of it.

## Main results

* `Grammar.Derivation.spaced`: a text that is read is spaced.
* `pieces_flatMap_renamed`: a spaced text is cut at the same places if the variable is renamed.
* `Grammar.Derivation.exists_renames`: derivations follow the tokens.
* `Expr.parse_renameVariable`: the renamed text is read as the renamed tree, and what is computed
  from the two trees differs in nothing but the name.
-/

namespace Univariate

open Univariate.Text

/-! ### The other text -/

/-- The renaming of one variable. -/
def replaceName (v w name : String) : String :=
  if name = v then w else name

/-- What is written for a token: the other name if the token is the variable. -/
def Token.renamed (v w : String) (t : Token) : List Char :=
  if t.kind = .name ∧ t.text = v then w.toList else t.lexeme

/-- The text without its blanks and with another name for the variable. -/
def renameVariable (v w text : String) : String :=
  String.ofList ((tokenize (strip text)).flatMap (Token.renamed v w))

theorem Token.renamed_of_ne {v w : String} {t : Token} (h : t.kind ≠ .name) :
    t.renamed v w = t.lexeme :=
  if_neg fun hname => h hname.1

@[simp] theorem replaceName_self (v w : String) : replaceName v w v = w :=
  if_pos rfl

theorem keepsEmpty_replaceName {v w : String} (hv : IsVariable v) (hw : IsVariable w) :
    KeepsEmpty (replaceName v w) := by
  have hne : ∀ {u : String}, IsVariable u → u.isEmpty = false := by
    intro u hu
    rw [← Bool.not_eq_true, String.isEmpty_iff]
    rintro rfl
    exact hu.isNameText.ne_nil rfl
  intro name
  rw [replaceName]
  split
  · next h => rw [h, hne hv, hne hw]
  · rfl

/-! ### Words and signs -/

/-- The kinds of the tokens that consist of a single character with a meaning. -/
def TokenKind.isSign : TokenKind → Bool
  | .name | .number | .symbol => false
  | _ => true

theorem TokenKind.isSign_of_eq {k k' : TokenKind} (h : k = k') (hsign : k'.isSign = true) :
    k.isSign = true :=
  h ▸ hsign

/-- The tokens stop, or go on with a sign. -/
def SignAhead (ts : List Token) : Prop :=
  ∀ k, Grammar.nextKind ts = some k → k.isSign = true

@[simp] theorem signAhead_nil : SignAhead [] := nofun

@[simp] theorem signAhead_cons {t : Token} {ts : List Token} :
    SignAhead (t :: ts) ↔ t.kind.isSign = true := by
  simp [SignAhead]

/-- Tokens without an unknown character, where no two words stand side by side. -/
inductive Spaced : List Token → Prop
  | nil : Spaced []
  | sign {t ts} : t.kind.isSign = true → Spaced ts → Spaced (t :: ts)
  | word {t ts} : t.kind = .name ∨ t.kind = .number → SignAhead ts → Spaced ts → Spaced (t :: ts)

/-- There is no unknown character among spaced tokens. -/
theorem Spaced.ne_symbol {ts : List Token} (h : Spaced ts) {t : Token} (ht : t ∈ ts) :
    t.kind ≠ .symbol := by
  induction h with
  | nil => contradiction
  | sign hsign _ ih =>
    rcases List.mem_cons.mp ht with rfl | ht
    · intro hk
      rw [hk] at hsign
      contradiction
    · exact ih ht
  | word hword _ _ ih =>
    rcases List.mem_cons.mp ht with rfl | ht
    · rcases hword with hk | hk <;> rw [hk] <;> decide
    · exact ih ht

namespace Grammar

variable {v : String}

theorem SumSign.isSign {k : TokenKind} {op : BinaryOp} (h : SumSign k op) : k.isSign = true := by
  cases h <;> rfl

theorem ProductSign.isSign {k : TokenKind} {op : BinaryOp} (h : ProductSign k op) :
    k.isSign = true := by
  cases h <;> rfl

theorem Opening.isSign_closing {xs ys : List Token} {closing : TokenKind} {op : UnaryOp}
    (h : Opening xs ys closing op) : closing.isSign = true := by
  cases h <;> rfl

theorem Opening.spaced {xs ys : List Token} {closing : TokenKind} {op : UnaryOp}
    (h : Opening xs ys closing op) (hys : Spaced ys) : Spaced xs := by
  cases h with
  | paren ht => exact .sign (TokenKind.isSign_of_eq ht rfl) hys
  | bar ht => exact .sign (TokenKind.isSign_of_eq ht rfl) hys
  | call ht ht' =>
    have hparen := TokenKind.isSign_of_eq ht' rfl
    exact .word (.inl ht.1) (signAhead_cons.mpr hparen) (.sign hparen hys)
  | exp ht hc ht' =>
    have hcaret := TokenKind.isSign_of_eq hc rfl
    have hparen := TokenKind.isSign_of_eq ht' rfl
    exact .word (.inl ht.1) (signAhead_cons.mpr hcaret) (.sign hcaret (.sign hparen hys))

/-- **A text that is read is spaced.** What derives from a symbol is spaced if a sign stands behind
it, and a chain of operands starts with a sign itself. -/
theorem Derivation.spaced {s : Symbol} {xs ys : List Token} (d : Derivation v s xs ys)
    (hahead : SignAhead ys) (hys : Spaced ys) :
    Spaced xs ∧ (s = .sums ∨ s = .products → SignAhead xs) := by
  induction d with
  | expression first more ihf ihm =>
    -- from the back: the chain is spaced, and starts with a sign or is what stands behind it
    obtain ⟨hmore, hsign⟩ := ihm hahead hys
    exact ⟨(ihf (hsign (.inl rfl)) hmore).1, by simp⟩
  | term first more ihf ihm =>
    obtain ⟨hmore, hsign⟩ := ihm hahead hys
    exact ⟨(ihf (hsign (.inr rfl)) hmore).1, by simp⟩
  | sumsNil | productsNil => exact ⟨hys, fun _ => hahead⟩
  | sumsCons op hop right more ihr ihm =>
    obtain ⟨hmore, hsign⟩ := ihm hahead hys
    exact ⟨.sign hop.isSign (ihr (hsign (.inl rfl)) hmore).1,
      fun _ => signAhead_cons.mpr hop.isSign⟩
  | productsCons op hop right more ihr ihm =>
    obtain ⟨hmore, hsign⟩ := ihm hahead hys
    exact ⟨.sign hop.isSign (ihr (hsign (.inr rfl)) hmore).1,
      fun _ => signAhead_cons.mpr hop.isSign⟩
  | negation hminus u ih =>
    exact ⟨.sign (TokenKind.isSign_of_eq hminus rfl) (ih hahead hys).1, by simp⟩
  | base b ih => exact ⟨(ih hahead hys).1, by simp⟩
  | power b hcaret exponent ihb ihe =>
    have hsign := TokenKind.isSign_of_eq hcaret rfl
    exact ⟨(ihb (signAhead_cons.mpr hsign) (.sign hsign (ihe hahead hys).1)).1, by simp⟩
  | exponential he hcaret hparen u ih =>
    have hsign := TokenKind.isSign_of_eq hcaret rfl
    exact ⟨.word (.inl he.1) (signAhead_cons.mpr hsign) (.sign hsign (ih hahead hys).1), by simp⟩
  | number ht => exact ⟨.word (.inr ht) hahead hys, by simp⟩
  | var ht => exact ⟨.word (.inl ht.1) hahead hys, by simp⟩
  | pi ht => exact ⟨.word (.inl ht.1) hahead hys, by simp⟩
  | euler ht => exact ⟨.word (.inl ht.1) hahead hys, by simp⟩
  | delimited op hopening u hclosing ih =>
    have hsign := TokenKind.isSign_of_eq hclosing hopening.isSign_closing
    have hinner := ih (signAhead_cons.mpr hsign) (.sign hsign hys)
    exact ⟨hopening.spaced hinner.1, by simp⟩

end Grammar

/-! ### Cutting the other text -/

/-- A sign is a single character, with which neither a name nor a number goes on. -/
theorem TokenKind.Describes.exists_sign {k : TokenKind} {cs : List Char} (h : k.Describes cs)
    (hk : k.isSign = true) : ∃ c, cs = [c] ∧ symbolKind c = k ∧ isNameRest c = false ∧ c ≠ '.' := by
  cases h with
  | name | number | symbol => contradiction
  | _ => exact ⟨_, rfl, by decide +kernel, by decide +kernel, by decide⟩

variable {v w : String}

theorem TokenKind.Describes.isNameText {cs : List Char} (h : TokenKind.name.Describes cs) :
    IsNameText cs := by
  cases h with
  | @name c cs hstart hrest =>
    have hdigit : c.isDigit = false := by
      rw [← Bool.not_eq_true]
      intro hdigit
      rw [isNameStart_of_isDigit hdigit] at hstart
      contradiction
    exact .intro hdigit hstart hrest

theorem TokenKind.Describes.isLiteralText {cs : List Char} (h : TokenKind.number.Describes cs) :
    IsLiteralText cs := by
  cases h with
  | number hliteral => exact hliteral

theorem TokenKind.ne_name_of_isSign {k : TokenKind} (h : k.isSign = true) : k ≠ .name := by
  rintro rfl
  contradiction

/-- What is in front of a sign ends there. -/
theorem isBreak_of_signAhead {ts : List Token} (hts : SignAhead ts)
    (hdescribes : ∀ t ∈ ts, t.kind.Describes t.lexeme) :
    IsBreak (ts.flatMap (Token.renamed v w)) := by
  cases ts with
  | nil => exact isBreak_nil
  | cons t ts =>
    have hsign := signAhead_cons.mp hts
    obtain ⟨c, hc, -, hrest, hpoint⟩ := (hdescribes t (List.mem_cons_self ..)).exists_sign hsign
    rw [List.flatMap_cons, Token.renamed_of_ne (TokenKind.ne_name_of_isSign hsign), hc]
    exact isBreak_cons.mpr ⟨hrest, hpoint⟩

/-- What is written for a name is a name. -/
theorem Token.isNameText_renamed (hw : IsNameText w.toList) {t : Token} (hk : t.kind = .name)
    (ht : t.kind.Describes t.lexeme) : IsNameText (t.renamed v w) := by
  rw [Token.renamed]
  split
  · exact hw
  · rw [hk] at ht
    exact ht.isNameText

/-- **Cutting a renamed text.** -/
theorem pieces_flatMap_renamed (hw : IsNameText w.toList) {ts : List Token} (h : Spaced ts)
    (hdescribes : ∀ t ∈ ts, t.kind.Describes t.lexeme) :
    pieces (ts.flatMap (Token.renamed v w)) = ts.map fun t => (t.kind, t.renamed v w) := by
  induction h with
  | nil => exact pieces_nil
  | @sign t ts hsign _ ih =>
    have hrest := ih fun t' ht' => hdescribes t' (List.mem_cons_of_mem _ ht')
    obtain ⟨c, hc, hkind, hbreak, -⟩ := (hdescribes t (List.mem_cons_self ..)).exists_sign hsign
    rw [List.flatMap_cons, List.map_cons, Token.renamed_of_ne (TokenKind.ne_name_of_isSign hsign),
      hc, List.singleton_append, pieces_symbol hbreak, hkind, hrest]
  | @word t ts hword hahead _ ih =>
    have hts : ∀ t' ∈ ts, t'.kind.Describes t'.lexeme :=
      fun t' ht' => hdescribes t' (List.mem_cons_of_mem _ ht')
    have hdescribes := hdescribes t (List.mem_cons_self ..)
    have hbreak := isBreak_of_signAhead (v := v) (w := w) hahead hts
    rw [List.flatMap_cons, List.map_cons]
    rcases hword with hname | hnumber
    · rw [pieces_name (Token.isNameText_renamed hw hname hdescribes) hbreak, ih hts, hname]
    · rw [hnumber] at hdescribes
      rw [Token.renamed_of_ne (by rw [hnumber]; decide),
        pieces_literal hdescribes.isLiteralText hbreak, ih hts, hnumber]

/-! ### Deriving from the other tokens -/

/-- A token and what becomes of it. Its place may change. -/
def Renames (v w : String) (t t' : Token) : Prop :=
  t'.piece = (t.kind, t.renamed v w)

section Renames

variable {t t' : Token} (h : Renames v w t t')

include h

theorem Renames.kind_eq : t'.kind = t.kind :=
  (Prod.mk.inj h).1

theorem Renames.lexeme_eq (hk : t.kind ≠ .name) : t'.lexeme = t.lexeme :=
  (Prod.mk.inj h).2.trans (Token.renamed_of_ne hk)

/-- The variable has the other name. -/
theorem Renames.isName (ht : t.IsName v) : t'.IsName w := by
  refine ⟨h.kind_eq.trans ht.1, ?_⟩
  rw [Token.text, (Prod.mk.inj h).2, Token.renamed, if_pos ⟨ht.1, ht.2⟩, String.ofList_toList]

/-- Any other name stays what it is. -/
theorem Renames.isName_of_ne {name : String} (ht : t.IsName name) (hne : name ≠ v) :
    t'.IsName name := by
  refine ⟨h.kind_eq.trans ht.1, ?_⟩
  rw [Token.text, (Prod.mk.inj h).2, Token.renamed, if_neg fun hv => hne (ht.2.symm.trans hv.2)]
  exact ht.2

end Renames

/-- The renamed text has no blanks. -/
theorem not_blank_of_mem_renameVariable (hw : IsVariable w) {text : String} {c : Char}
    (hc : c ∈ (renameVariable v w text).toList) : isBlank c = false := by
  rw [renameVariable, String.toList_ofList] at hc
  obtain ⟨t, ht, hc⟩ := List.mem_flatMap.mp hc
  rw [Token.renamed] at hc
  split at hc
  · exact hw.not_blank c hc
  · -- what is not replaced was there before, in a text without blanks
    have hmem : c ∈ (strip text).toList := by
      rw [← flatMap_lexeme_tokensFrom 0 (strip text).toList]
      exact List.mem_flatMap.mpr ⟨t, ht, hc⟩
    rw [toList_strip] at hmem
    simpa using (List.mem_filter.mp hmem).2

/-- **The tokens of the renamed text.** In a spaced text each token becomes one. -/
theorem forall₂_renames (hw : IsVariable w) {text : String} (h : Spaced (tokenize (strip text))) :
    List.Forall₂ (Renames v w) (tokenize (strip text))
      (tokenize (strip (renameVariable v w text))) := by
  have hpieces : (tokenize (strip (renameVariable v w text))).map Token.piece =
      (tokenize (strip text)).map fun t => (t.kind, t.renamed v w) := by
    rw [tokenize, map_piece_tokensFrom,
      toList_strip_of_not_blank fun c => not_blank_of_mem_renameVariable hw, renameVariable,
      String.toList_ofList]
    refine pieces_flatMap_renamed hw.isNameText h fun t ht => ?_
    exact describes_of_mem_tokensFrom ht (h.ne_symbol ht)
  rw [← List.forall₂_eq_eq_eq, List.forall₂_map_left_iff, List.forall₂_map_right_iff] at hpieces
  exact hpieces.flip

namespace Grammar

theorem nextKind_of_renames {xs xs' : List Token} (h : List.Forall₂ (Renames v w) xs xs') :
    nextKind xs' = nextKind xs := by
  cases h with
  | nil => rfl
  | cons ht _ => rw [nextKind_cons, nextKind_cons, ht.kind_eq]

/-- What opens an expression still does. -/
theorem Opening.exists_renames (hv : ¬ IsReserved v) {xs ys xs' : List Token} {closing : TokenKind}
    {op : UnaryOp} (h : Opening xs ys closing op) (hxs : List.Forall₂ (Renames v w) xs xs') :
    ∃ ys', List.Forall₂ (Renames v w) ys ys' ∧ Opening xs' ys' closing op := by
  have hne : ∀ {name}, IsReserved name → name ≠ v := fun hname h => hv (h ▸ hname)
  cases h with
  | paren ht =>
    obtain - | ⟨h, hxs⟩ := hxs
    exact ⟨_, hxs, .paren (h.kind_eq.trans ht)⟩
  | bar ht =>
    obtain - | ⟨h, hxs⟩ := hxs
    exact ⟨_, hxs, .bar (h.kind_eq.trans ht)⟩
  | call ht ht' =>
    obtain - | ⟨h, - | ⟨h', hxs⟩⟩ := hxs
    exact ⟨_, hxs, .call (h.isName_of_ne ht (hne (isReserved_name _))) (h'.kind_eq.trans ht')⟩
  | exp ht hc ht' =>
    obtain - | ⟨h, - | ⟨hcaret, - | ⟨h', hxs⟩⟩⟩ := hxs
    exact ⟨_, hxs, .exp (h.isName_of_ne ht (hne isReserved_e)) (hcaret.kind_eq.trans hc)
      (h'.kind_eq.trans ht')⟩

variable {R : Type} [Zero R] [BEq R]

/-- What a symbol stands for in the one text and in the other. -/
def Symbol.Renames (f : String → String) : (s : Symbol) → s.Denotation R → s.Denotation R → Prop
  | .sums, chain, chain' | .products, chain, chain' =>
    ∀ left : Expr R, chain' (left.rename f) = (chain left).rename f
  | .expression, tree, tree' | .term, tree, tree' | .factor, tree, tree' | .primary, tree, tree' =>
    tree' = tree.rename f

variable [One R] [Numeral R] [OfScientific R]

/-- **Derivations follow the tokens.** -/
theorem Derivation.exists_renames (hv : ¬ IsReserved v) (hw : ¬ IsReserved w) {s : Symbol}
    {xs ys xs' : List Token} (d : Derivation v s xs ys)
    (hxs : List.Forall₂ (Renames v w) xs xs') :
    ∃ ys', List.Forall₂ (Renames v w) ys ys' ∧ ∃ d' : Derivation w s xs' ys',
      s.Renames (replaceName v w) (d.denote : s.Denotation R) d'.denote := by
  have hne : ∀ {name}, IsReserved name → name ≠ v := fun hname h => hv (h ▸ hname)
  induction d generalizing xs' with
  | expression first more ihf ihm =>
    obtain ⟨ys', hys, first', hfirst⟩ := ihf hxs
    obtain ⟨zs', hzs, more', hmore⟩ := ihm hys
    refine ⟨zs', hzs, .expression first' more', ?_⟩
    exact (congrArg more'.denote hfirst).trans (hmore _)
  | sumsNil => exact ⟨xs', hxs, .sumsNil, fun _ => rfl⟩
  | sumsCons op hop right more ihr ihm =>
    obtain - | ⟨h, hxs⟩ := hxs
    obtain ⟨ys', hys, right', hright⟩ := ihr hxs
    obtain ⟨zs', hzs, more', hmore⟩ := ihm hys
    refine ⟨zs', hzs, .sumsCons op (h.kind_eq.symm ▸ hop) right' more', fun left => ?_⟩
    rw [Derivation.denote, hright]
    exact hmore (.binary op left _)
  | term first more ihf ihm =>
    obtain ⟨ys', hys, first', hfirst⟩ := ihf hxs
    obtain ⟨zs', hzs, more', hmore⟩ := ihm hys
    refine ⟨zs', hzs, .term first' more', ?_⟩
    exact (congrArg more'.denote hfirst).trans (hmore _)
  | productsNil => exact ⟨xs', hxs, .productsNil, fun _ => rfl⟩
  | productsCons op hop right more ihr ihm =>
    obtain - | ⟨h, hxs⟩ := hxs
    obtain ⟨ys', hys, right', hright⟩ := ihr hxs
    obtain ⟨zs', hzs, more', hmore⟩ := ihm hys
    refine ⟨zs', hzs, .productsCons op (h.kind_eq.symm ▸ hop) right' more', fun left => ?_⟩
    rw [Derivation.denote, hright]
    exact hmore (.binary op left _)
  | negation hminus u ih =>
    obtain - | ⟨h, hxs⟩ := hxs
    obtain ⟨ys', hys, u', hu⟩ := ih hxs
    exact ⟨ys', hys, .negation (h.kind_eq.trans hminus) u', congrArg (Expr.unary .negate) hu⟩
  | base b ih =>
    obtain ⟨ys', hys, b', hb⟩ := ih hxs
    exact ⟨ys', hys, .base b', hb⟩
  | power b hcaret exponent ihb ihe =>
    obtain ⟨_, - | ⟨h, hys⟩, b', hb⟩ := ihb hxs
    obtain ⟨zs', hzs, exponent', hexponent⟩ := ihe hys
    exact ⟨zs', hzs, .power b' (h.kind_eq.trans hcaret) exponent',
      congrArg₂ (Expr.binary .pow) hb hexponent⟩
  | exponential he hcaret hparen u ih =>
    obtain - | ⟨h, - | ⟨hc, hxs⟩⟩ := hxs
    obtain ⟨ys', hys, u', hu⟩ := ih hxs
    exact ⟨ys', hys, .exponential (h.isName_of_ne he (hne isReserved_e)) (hc.kind_eq.trans hcaret)
      (nextKind_of_renames hxs ▸ hparen) u', congrArg (Expr.unary .exp) hu⟩
  | number ht =>
    obtain - | ⟨h, hxs⟩ := hxs
    have hlexeme := h.lexeme_eq (by rw [ht]; decide)
    exact ⟨_, hxs, .number (h.kind_eq.trans ht),
      congrArg (fun cs => Expr.const (Decimal.literalValue cs)) hlexeme⟩
  | var ht hfree =>
    obtain - | ⟨h, hxs⟩ := hxs
    exact ⟨_, hxs, .var (h.isName ht) hw, congrArg Expr.var (replaceName_self v w).symm⟩
  | pi ht =>
    obtain - | ⟨h, hxs⟩ := hxs
    exact ⟨_, hxs, .pi (h.isName_of_ne ht (hne isReserved_pi)), rfl⟩
  | euler ht hcaret =>
    obtain - | ⟨h, hxs⟩ := hxs
    exact ⟨_, hxs, .euler (h.isName_of_ne ht (hne isReserved_e)) (nextKind_of_renames hxs ▸ hcaret),
      rfl⟩
  | delimited op hopening u hclosing ih =>
    obtain ⟨ys', hys, hopening'⟩ := hopening.exists_renames hv hxs
    obtain ⟨_, - | ⟨h, hzs⟩, u', hu⟩ := ih hys
    exact ⟨_, hzs, .delimited op hopening' u' (h.kind_eq.trans hclosing),
      congrArg (Expr.unary op) hu⟩

end Grammar

/-! ### Reading the other text -/

namespace Expr

open Grammar

variable {R : Type} [Zero R] [BEq R] [One R] [Numeral R] [OfScientific R]

/-- A text that is read without an error is read as the renamed tree if its variable is renamed. -/
theorem parse_renameVariable_eq (hv : IsVariable v) (hw : IsVariable w) {text : String}
    (h : (parse v text : Expr R).hasError = false) :
    (parse w (renameVariable v w text) : Expr R) = (parse v text).rename (replaceName v w) := by
  obtain ⟨d, hd⟩ := exists_denote h
  have htokens := forall₂_renames (v := v) hw (d.spaced signAhead_nil .nil).1
  obtain ⟨ys', hys, d', hd'⟩ := d.exists_renames (R := R) hv.not_reserved hw.not_reserved htokens
  obtain - | - := hys
  rw [parse_eq_denote d', hd]
  exact hd'

variable [NatCast R] [Add R] [Sub R] [Mul R] [Div R] [Neg R] [Elementary R]

/-- **The name of the variable does not matter.** If a text is read without an error and its
variable is given another name, the tree that is read has the new name in place of the old one. Both
trees have a value at every point, and it is the same. Both have a derivative, and it differs in
nothing but the name, as does what they are expanded into. -/
theorem parse_renameVariable {v w text : String} (hv : checkName v = .ok ())
    (hw : checkName w = .ok ()) (h : (parse v text : Expr R).hasError = false) :
    let t : Expr R := parse v text
    let t' : Expr R := parse w (renameVariable v w text)
    t' = t.rename (replaceName v w) ∧
      (∀ x, ∃ y, t.eval x = .ok y ∧ t'.eval x = .ok y) ∧
      (∃ d, t.derivative = .ok d ∧ t'.derivative = .ok (d.rename (replaceName v w))) ∧
      t'.normalize = t.normalize.rename (replaceName v w) := by
  intro t t'
  have hv := Session.checkName_eq_ok_iff.mp hv
  have hw := Session.checkName_eq_ok_iff.mp hw
  have ht' : t' = t.rename (replaceName v w) := parse_renameVariable_eq hv hw h
  have hnil : t.errorOffsets = [] := (hasError_eq_false_iff t).mp h
  refine ⟨ht', ?value, ?derivative, ?expansion⟩
  case value =>
    intro x
    have hvalue := stopsAt_eval t x
    rw [hnil] at hvalue
    obtain ⟨y, hy⟩ := hvalue.exists_ok
    exact ⟨y, hy, by rw [ht', eval_rename, hy]⟩
  case derivative =>
    have hderivative := stopsAt_derivative t
    rw [hnil] at hderivative
    obtain ⟨d, hd⟩ := hderivative.exists_ok
    exact ⟨d, hd, by rw [ht', derivative_rename, hd]; rfl⟩
  case expansion =>
    rw [ht', normalize_rename (keepsEmpty_replaceName hv hw)]

/-- The variable `x` of `sin(x) * x` is renamed. -/
theorem parse_renameVariable_theta :
    checkName "x" = .ok () ∧ checkName "theta" = .ok () ∧
      (parse "x" "sin(x) * x" : Expr Double).hasError = false ∧
      renameVariable "x" "theta" "sin(x) * x" = "sin(theta)*theta" ∧
      (parse "theta" "sin(theta)*theta" : Expr Double) =
        .binary .times (call .sin (.var "theta")) (.var "theta") := by
  have hx : checkName "x" = .ok () := by cbv
  have htheta : checkName "theta" = .ok () := by cbv
  have hrename : renameVariable "x" "theta" "sin(x) * x" = "sin(theta)*theta" := by cbv
  have htokens : tokenize (strip "sin(x) * x") =
      [⟨.name, 0, ['s', 'i', 'n']⟩, ⟨.openParen, 3, ['(']⟩, ⟨.name, 4, ['x']⟩,
        ⟨.closeParen, 5, [')']⟩, ⟨.times, 6, ['*']⟩, ⟨.name, 7, ['x']⟩] := by cbv
  have hfree := (Session.checkName_eq_ok_iff.mp hx).not_reserved
  have hparse : (parse "x" "sin(x) * x" : Expr Double) =
      .binary .times (call .sin (.var "x")) (.var "x") :=
    parse_eq_denote_of_tokens htokens (.expression (.term
      (.base (.delimited (.call .sin) (.call ⟨rfl, rfl⟩ rfl)
        (.expression (.term (.base (.var ⟨rfl, rfl⟩ hfree)) .productsNil) .sumsNil) rfl))
      (.productsCons .times .times (.base (.var ⟨rfl, rfl⟩ hfree)) .productsNil)) .sumsNil)
  have herror : (parse "x" "sin(x) * x" : Expr Double).hasError = false := by
    rw [hparse]
    rfl
  obtain ⟨htree, -⟩ := parse_renameVariable hx htheta herror
  rw [hrename, hparse] at htree
  exact ⟨hx, htheta, herror, hrename, htree⟩

end Expr

end Univariate
