import Univariate.Proofs.SessionRuns
import Univariate.Proofs.Spelling

/-!
# Texts that are only the variable

A session is given the name of its variable before it has read anything, and it decides about the
name with a check of its own. Whether that is the right check is a question about reading. A name is
of use exactly if a text in which it stands alone is read as the variable.

One direction builds the derivation of such a text. The other takes a derivation apart. No rule but
that for the variable denotes a bare variable. Every other rule puts an operation on top, or hands
on what one operand denotes and takes no token besides. So a derivation that denotes the variable is
a chain of such rules above a single token.

## Main definitions

* `Grammar.Symbol.IsLone`: what a derivation has to be if it denotes a bare variable.

## Main results

* `Expr.parse_eq_var_iff`: the texts that are read as a bare variable.
* `Expr.checkName_iff_parse_eq_var`: the check of a name agrees with reading the name.
-/

namespace Univariate

variable {R : Type} [Zero R] [BEq R]

namespace Grammar

/-- What the tokens of `xs` in front of `ys` are if the symbol stands for a bare variable there:
the variable alone. A chain is then empty, and the operand in front of it is the variable. -/
def Symbol.IsLone (v : String) (xs ys : List Token) : (s : Symbol) → s.Denotation R → Prop
  | .sums, chain | .products, chain =>
    ∀ (left : Expr R) name, chain left = .var name → xs = ys ∧ left = .var name
  | .expression, tree | .term, tree | .factor, tree | .primary, tree =>
    ∀ name, tree = .var name → name = v ∧ ¬ IsReserved v ∧ ∃ t : Token, xs = t :: ys ∧ t.IsName v

variable [One R] [Numeral R] [OfScientific R] {v : String}

/-- **A derivation of the variable.** What denotes a bare variable is a single token. -/
theorem Derivation.isLone_denote {s : Symbol} {xs ys : List Token} (d : Derivation v s xs ys) :
    s.IsLone v xs ys (d.denote : s.Denotation R) := by
  induction d with
  | expression first more ihf ihm =>
    intro name hname
    obtain ⟨rfl, hfirst⟩ := ihm _ name hname
    exact ihf name hfirst
  | sumsNil => exact fun left name hname => ⟨rfl, hname⟩
  | sumsCons op hsign right more ihr ihm =>
    intro left name hname
    obtain ⟨-, hbinary⟩ := ihm _ name hname
    contradiction
  | term first more ihf ihm =>
    intro name hname
    obtain ⟨rfl, hfirst⟩ := ihm _ name hname
    exact ihf name hfirst
  | productsNil => exact fun left name hname => ⟨rfl, hname⟩
  | productsCons op hsign right more ihr ihm =>
    intro left name hname
    obtain ⟨-, hbinary⟩ := ihm _ name hname
    contradiction
  | base b ih => exact ih
  | var ht hfree =>
    intro name hname
    obtain ⟨rfl⟩ := hname
    exact ⟨rfl, hfree, _, rfl, ht⟩
  | _ =>
    intro name hname
    contradiction

end Grammar

namespace Expr

open Grammar Text

variable [One R] [Numeral R] [OfScientific R] {v text name : String}

/-- **The texts that are read as a bare variable.** Such a text is the name of the variable, with
blanks at any place, and the name is one that a variable can have. -/
theorem parse_eq_var_iff :
    (parse v text : Expr R) = .var name ↔ name = v ∧ IsVariable v ∧ strip text = v := by
  constructor
  · intro h
    have hread : (parse v text : Expr R).hasError = false := by
      rw [hasError_eq_false_iff, h, errorOffsets_var]
    obtain ⟨d, hd⟩ := exists_denote hread
    obtain ⟨rfl, hfree, t, htokens, ht⟩ := d.isLone_denote name (hd.symm.trans h)
    have hlexeme : t.lexeme = (strip text).toList := lexeme_of_tokenize_eq_singleton htokens
    have hstrip : strip text = name := by
      rw [← ht.2, Token.text, hlexeme, String.ofList_toList]
    have hname : IsNameText name.toList := by
      rw [← hstrip, ← hlexeme]
      exact isNameText_of_mem_tokensFrom (htokens ▸ List.mem_singleton.mpr rfl) ht.1
    exact ⟨rfl, ⟨hfree, hname, hname.not_blank⟩, hstrip⟩
  · rintro ⟨rfl, hv, hstrip⟩
    have hself : strip name = strip text := by rw [← hstrip, strip_strip]
    have hpieces := (Cuts.name hv.isNameText).map_piece_tokenize
    rw [hself] at hpieces
    have hspells : Spells name .expression [(.name, name.toList)] (.var name : Expr R) :=
      (Spells.var hv).factor_of_primary.term_of_factor.expression_of_term
    have hderives := hspells (tokenize (strip text)) [] hpieces
    rw [List.append_nil] at hderives
    obtain ⟨d, hd⟩ := hderives
    rw [parse_eq_denote d, hd]

/-- **The check of a name agrees with reading the name.** A name passes exactly if the text that
consists of it is read as the variable of that name. -/
theorem checkName_iff_parse_eq_var (name : String) :
    checkName name = .ok () ↔ (parse name name : Expr R) = .var name := by
  rw [Session.checkName_eq_ok_iff, parse_eq_var_iff]
  constructor
  · intro h
    exact ⟨rfl, h, String.toList_injective (toList_strip_of_not_blank h.not_blank)⟩
  · exact fun h => h.2.1

end Expr

end Univariate
