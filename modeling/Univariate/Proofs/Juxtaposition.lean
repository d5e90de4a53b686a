import Mathlib
import Univariate.Proofs.ReadBack
import Univariate.Proofs.Typesetting
import Univariate.Proofs.VariableNames

/-!
# Numbers side by side in LaTeX

In LaTeX a product is written without a sign. Its factors are set off from each other by a thin
space, or by a dot if the second factor starts with a number, since two numbers in a row would read
as one.

Whether a factor starts with a number is decided by a look at its leftmost operand. This is the one
that stands first in plain text. In LaTeX another one may stand first, because a fraction brings its
own command along and the parentheses around the base of a power are left out where they are not
needed. The operand that is shown first in LaTeX is followed here through the same cases as the text
itself, and the first character of the text tells which operand it is. In a tree that was read, each
factor that starts with a number has that number for its leftmost operand too, with one exception:
the leftmost operand of a power of a number in parentheses is a pair of parentheses that is not
shown.

## Main definitions

* `Latex.BeginsWithNumber`: texts that begin with a digit or a minus.
* `Expr.shownFirst`: the operand that is shown first.
* `StartsAs`: what the first character of a text tells about the operand that is shown first.

## Main results

* `Expr.Writable.startsAs`: the LaTeX text of a tree starts as the operand that is shown first.
* `Expr.Writable.startsWithNumber_iff`: which factors are taken for ones that start with a number.
* `Expr.latex_times_of_beginsWithNumber`: which products have a dot.
* `Expr.latex_times_thin_space`: a product without a dot, although its second factor starts with a
  number.
-/

namespace Univariate

open Univariate.Text

/-! ### The first character -/

namespace Latex

/-- A text that begins with a digit or with a minus. -/
def BeginsWithNumber (s : String) : Prop :=
  ∃ c ∈ s.toList.head?, c.isDigit = true ∨ c = '-'

theorem head?_append {s : String} {c : Char} (h : s.toList.head? = some c) (rest : String) :
    (s ++ rest).toList.head? = some c := by
  rw [String.toList_append, List.head?_append, h, Option.some_or]

theorem head?_parenthesized (s : String) : (parenthesized s).toList.head? = some '\\' :=
  head?_append (head?_append rfl s) _

theorem head?_latexCall (f : Func) (arg : String) :
    (f.latexCall arg).toList.head? = some '\\' := by
  cases f with
  | floor | abs => exact head?_append (head?_append rfl arg) _
  | _ => exact head?_append rfl _

end Latex

open Latex

/-- How a text starts in which `t` is the operand that is shown first: with a minus if this is a
negation, and with a digit if it is a number that has digits. -/
structure StartsAs {R : Type} [Zero R] [BEq R] [Numeral R] (s : String) (t : Expr R) : Prop where
  /-- The text is not empty. -/
  ne_nil : s.toList ≠ []
  /-- Only a negation starts with a minus. -/
  minus_iff : s.toList.head? = some '-' ↔ ∃ u, t = .negate u
  /-- Only a number starts with a digit, unless it is shown by a name. -/
  digit_iff : (∃ c ∈ s.toList.head?, c.isDigit = true) ↔
    ∃ k, t = .const k ∧ (k == Numeral.pi) = false ∧ Numeral.isFinite k = true

namespace StartsAs

variable {R : Type} [Zero R] [BEq R] [Numeral R] {s : String} {t : Expr R}

/-- It does not matter what comes behind the first operand. -/
theorem append (h : StartsAs s t) (rest : String) : StartsAs (s ++ rest) t := by
  have hhead : (s ++ rest).toList.head? = s.toList.head? := by
    rw [String.toList_append, List.head?_append_of_ne_nil _ h.ne_nil]
  refine ⟨?_, ?_, ?_⟩
  · rw [String.toList_append]
    exact List.append_ne_nil_of_left_ne_nil h.ne_nil _
  · rw [hhead]
    exact h.minus_iff
  · rw [hhead]
    exact h.digit_iff

/-- It is enough to look at the first character. -/
theorem of_head {c : Char} (hhead : s.toList.head? = some c)
    (hminus : c = '-' ↔ ∃ u, t = .negate u)
    (hdigit : c.isDigit = true ↔
      ∃ k, t = .const k ∧ (k == Numeral.pi) = false ∧ Numeral.isFinite k = true) :
    StartsAs s t where
  ne_nil := by
    intro hs
    simp [hs] at hhead
  minus_iff := by simpa [hhead] using hminus
  digit_iff := by simpa [hhead] using hdigit

/-- Operands that are neither negations nor numbers start with neither. -/
theorem of_ne {c : Char} (hhead : s.toList.head? = some c) (hminus : c ≠ '-')
    (hdigit : c.isDigit = false) (hnegate : ∀ u, t ≠ .negate u) (hconst : ∀ k, t ≠ .const k) :
    StartsAs s t := by
  refine .of_head hhead (iff_of_false hminus fun ⟨u, hu⟩ => hnegate u hu) ?_
  exact iff_of_false (by simp [hdigit]) fun ⟨k, hk, _⟩ => hconst k hk

theorem beginsWithNumber_iff (h : StartsAs s t) : BeginsWithNumber s ↔
    (∃ u, t = .negate u) ∨
      ∃ k, t = .const k ∧ (k == Numeral.pi) = false ∧ Numeral.isFinite k = true := by
  rw [← h.minus_iff, ← h.digit_iff, BeginsWithNumber]
  constructor
  · rintro ⟨c, hc, hdigit | rfl⟩
    · exact .inr ⟨c, hc, hdigit⟩
    · exact .inl hc
  · rintro (hminus | ⟨c, hc, hdigit⟩)
    · exact ⟨'-', hminus, .inr rfl⟩
    · exact ⟨c, hc, .inl hdigit⟩

theorem of_isNameText (h : IsNameText s.toList) (hnegate : ∀ u, t ≠ .negate u)
    (hconst : ∀ k, t ≠ .const k) : StartsAs s t := by
  obtain ⟨c, cs, hcs, hdigit, hstart⟩ := h.exists_cons
  refine .of_ne (c := c) (by rw [hcs]; rfl) ?_ hdigit hnegate hconst
  rintro rfl
  contradiction

end StartsAs

section Constants

variable {R : Type} [Zero R] [One R] [NatCast R] [BEq R] [OfScientific R] [Numeral R]
  [LawfulNumeral R]

/-- How a number without a sign is shown. -/
theorem constantText_cases {k : R} (hk : IsUnsigned k) :
    ((k == Numeral.pi) = true ∧ constantText "\\pi" k = "\\pi") ∨
    ((k == Numeral.pi) = false ∧ Numeral.isFinite k = true ∧
      IsLiteralText (constantText "\\pi" k).toList) ∨
    ((k == Numeral.pi) = false ∧ Numeral.isFinite k = false ∧ constantText "\\pi" k = "inf") := by
  cases hpi : k == Numeral.pi with
  | true => exact .inl ⟨rfl, if_pos hpi⟩
  | false =>
    have htext : constantText "\\pi" k = Numeral.magnitude k := by
      rw [constantText, hpi, hk.text_eq_magnitude]
      rfl
    rw [htext]
    cases hfinite : Numeral.isFinite k with
    | true =>
      exact .inr (.inl ⟨rfl, rfl, LawfulNumeral.isLiteralText_magnitude k hk hfinite⟩)
    | false =>
      exact .inr (.inr ⟨rfl, rfl, LawfulNumeral.magnitude_of_not_isFinite k hk hfinite⟩)

/-- A number starts with a digit, unless it is shown by a name. -/
theorem StartsAs.constant {k : R} (hk : IsUnsigned k) :
    StartsAs (constantText "\\pi" k) (.const k) := by
  obtain ⟨hpi, htext⟩ | ⟨hpi, hfinite, hliteral⟩ | ⟨hpi, hfinite, htext⟩ := constantText_cases hk
  · refine .of_head (c := '\\') (by rw [htext]; rfl) (iff_of_false (by decide) nofun) ?_
    simp [hpi]
  · obtain ⟨c, cs, hcs, hdigit⟩ := hliteral.exists_cons
    refine .of_head (c := c) (by rw [hcs]; rfl) (iff_of_false ?_ nofun) ?_
    · rintro rfl
      contradiction
    · simp [hpi, hfinite, hdigit]
  · refine .of_head (c := 'i') (by rw [htext]; rfl) (iff_of_false (by decide) nofun) ?_
    simp [hfinite]

end Constants

/-! ### The operand that is shown first -/

namespace Expr

section Operands

variable {R : Type} [Zero R] [BEq R] [Numeral R] {t : Expr R}

/-- The operand that is shown first in the LaTeX text of a tree. With `bare`, the parentheses around
the whole tree are left out. -/
def shownFirst (bare : Bool) : Expr R → Expr R
  | .unary .group u => if bare then shownFirst true u else group u
  | .binary .plus l _ => shownFirst false l
  | .binary .minus l _ => shownFirst false l
  | .binary .times l _ => shownFirst false l
  | .binary .pow l _ =>
    if l.innermost.needsParenthesesAsBase then group l else shownFirst true l
  | t => t

/-- In parentheses around a tree that binds more tightly than a power it is the tree inside them. -/
theorem shownFirst_true (h : .exp < t.innermost.precedence) : t.shownFirst true = t.innermost := by
  induction t with
  | unary op u ih =>
    cases op with
    | group => exact ih h
    | _ => rfl
  | binary op l r =>
    have hle : op.precedence ≤ .exp := by cases op <;> decide
    exact absurd h (Nat.not_lt.mpr hle)
  | _ => rfl

/-- A power shows its base first, in parentheses or without any. -/
theorem shownFirst_pow (l r : Expr R) (bare : Bool) :
    (binary .pow l r).shownFirst bare = group l ∨ .exp < l.innermost.precedence ∧
      (binary .pow l r).shownFirst bare = l.innermost := by
  rw [shownFirst]
  cases hbase : l.innermost.needsParenthesesAsBase with
  | true => exact .inl rfl
  | false =>
    have hprecedence := lt_precedence_of_needsParenthesesAsBase hbase
    exact .inr ⟨hprecedence, shownFirst_true hprecedence⟩

/-- A factor that is no power is shown as a whole. -/
theorem shownFirst_false (h : .factor < t.precedence) :
    (∃ base exponent, t = binary .pow base exponent) ∨ t.shownFirst false = t := by
  cases t with
  | unary op u => cases op <;> exact .inr rfl
  | binary op l r =>
    cases op with
    | pow => exact .inl ⟨l, r, rfl⟩
    | plus | minus => exact absurd h (by decide : ¬ Precedence.factor < .term)
    | times | div => exact absurd h (by decide : ¬ Precedence.factor < .factor)
  | _ => exact .inr rfl

end Operands

section Signs

variable {R : Type} [Zero R] [One R] [Neg R] [BEq R] [Numeral R]

/-- A factor is set off by a dot exactly if it is taken for one that starts with a number. -/
theorem latex_times_eq_iff (l r : Expr R) :
    ((binary .times l r).latex = l.latex ++ " \\cdot " ++ r.latex ↔ r.startsWithNumber = true) ∧
      ((binary .times l r).latex = l.latex ++ " \\, " ++ r.latex ↔ r.startsWithNumber = false) := by
  have hlatex : (binary .times l r).latex =
      l.latex ++ (if r.startsWithNumber then " \\cdot " else " \\, ") ++ r.latex := rfl
  have hcancel : ∀ sign sign' : String,
      l.latex ++ sign ++ r.latex = l.latex ++ sign' ++ r.latex ↔ sign = sign' := by
    intro sign sign'
    simp [← String.toList_inj]
  rw [hlatex, hcancel, hcancel]
  cases r.startsWithNumber <;> simp

end Signs

variable {R : Type} [Zero R] [One R] [Neg R] [NatCast R] [BEq R] [OfScientific R] [Numeral R]
  [LawfulNumeral R] {v : String} {t r l : Expr R}

/-- **The LaTeX text of a tree starts as the operand does that is shown first.** -/
theorem Writable.startsAs (h : Writable v t) (bare : Bool) :
    StartsAs (t.latexText bare) (t.shownFirst bare) := by
  induction h generalizing bare with
  | var hv => exact .of_isNameText hv.isNameText (by simp [shownFirst]) (by simp [shownFirst])
  | const hk => exact .constant hk
  | @negate u =>
    have hminus : StartsAs "-" u.negate :=
      .of_head (c := '-') rfl (iff_of_true rfl ⟨u, rfl⟩) (iff_of_false (by decide) (by simp))
    rw [latexText]
    split
    · exact hminus.append _
    · exact hminus.append _
  | group _ ih =>
    cases bare with
    | true => exact ih true
    | false =>
      refine .of_ne (head?_parenthesized _) (by decide) (by decide) ?_ ?_
      · simp [shownFirst]
      · simp [shownFirst]
  | @exp u =>
    have hbase : StartsAs "e^" (.unary .exp u) :=
      .of_ne (c := 'e') rfl (by decide) (by decide) (by simp) (by simp)
    exact hbase.append _
  | call f =>
    refine .of_ne (head?_latexCall f _) (by decide) (by decide) ?_ ?_
    · simp [shownFirst]
    · simp [shownFirst]
  | @binary l r op _ _ _ _ ihl ihr =>
    cases op with
    | plus | minus | times =>
      rw [latexText, String.append_assoc]
      exact (ihl false).append _
    | div =>
      have hfraction : StartsAs "\\frac" (.binary .div l r) :=
        .of_ne (c := '\\') rfl (by decide) (by decide) (by simp) (by simp)
      exact (hfraction.append _).append _
    | pow =>
      rw [latexText, shownFirst]
      split
      · have hbase : StartsAs (Latex.parenthesized (l.latexText true)) l.group :=
          .of_ne (head?_parenthesized _) (by decide) (by decide) (by simp) (by simp)
        exact (hbase.append _).append _
      · exact ((ihl true).append _).append _

/-! ### Numbers side by side -/

/-- A power of a number that has parentheses around it. LaTeX leaves these parentheses out. -/
def RaisesGroupedNumber (t : Expr R) : Prop :=
  ∃ base exponent, t = binary .pow (group base) exponent ∧ base.innermost.isConst = true

/-- A power that starts with a number is one of that number. -/
theorem Writable.exists_const_of_pow (h : Writable v (.binary .pow l r))
    (hfirst : BeginsWithNumber (Expr.binary .pow l r).latex) :
    ∃ k, l.innermost = .const k ∧ (k == Numeral.pi) = false := by
  have hshown := (h.startsAs false).beginsWithNumber_iff.mp hfirst
  obtain hparens | ⟨hprecedence, hbase⟩ := shownFirst_pow l r false
  · simp [hparens] at hshown
  · rw [hbase] at hshown
    obtain ⟨u, hnegate⟩ | ⟨k, hk, hpi, -⟩ := hshown
    · rw [hnegate] at hprecedence
      exact absurd hprecedence (by decide : ¬ Precedence.exp < .neg)
    · exact ⟨k, hk, hpi⟩

/-- **Which factors are taken for ones that start with a number.** Of the factors that do start with
a number these are all but the powers of a number in parentheses. -/
theorem Writable.startsWithNumber_iff (h : Writable v r) (hprecedence : .factor < r.precedence)
    (hfirst : BeginsWithNumber r.latex) :
    r.startsWithNumber = true ↔ ¬ r.RaisesGroupedNumber := by
  obtain ⟨base, exponent, rfl⟩ | hwhole := shownFirst_false hprecedence
  · obtain ⟨k, hk, hpi⟩ := h.exists_const_of_pow hfirst
    cases base with
    | const c =>
      obtain rfl : c = k := Expr.const.inj hk
      refine iff_of_true (by simp [startsWithNumber, leftmost, hpi]) ?_
      rintro ⟨_, _, heq, -⟩
      cases heq
    | unary op u =>
      cases op with
      | group =>
        refine iff_of_false (by simp [startsWithNumber, leftmost]) (not_not_intro ?_)
        have hk : u.innermost = .const k := hk
        exact ⟨u, exponent, rfl, by rw [hk]; rfl⟩
      | _ => contradiction
    | _ => contradiction
  · obtain ⟨u, hu⟩ | ⟨k, hk, hpi, -⟩ := (h.startsAs false).beginsWithNumber_iff.mp hfirst
    · obtain rfl : r = .negate u := hwhole.symm.trans hu
      exact iff_of_true rfl nofun
    · obtain rfl : r = .const k := hwhole.symm.trans hk
      exact iff_of_true (by simp [startsWithNumber, leftmost, hpi]) nofun

/-- **Numbers side by side.** In a tree that was read without an error, a factor that starts with a
number or a minus is set off by a dot, unless it is a power of a number in parentheses. In front of
such a power there is a thin space only, as if the parentheses were shown. -/
theorem latex_times_of_beginsWithNumber (v text : String)
    (h : (parse v text : Expr Double).hasError = false) (l r : Expr Double)
    (hmem : .binary .times l r ∈ (parse v text : Expr Double).nodes)
    (hfirst : BeginsWithNumber r.latex) :
    ((binary .times l r).latex = l.latex ++ " \\cdot " ++ r.latex ↔ ¬ r.RaisesGroupedNumber) ∧
      ((binary .times l r).latex = l.latex ++ " \\, " ++ r.latex ↔ r.RaisesGroupedNumber) := by
  cases (writable_parse h).of_mem_nodes hmem with
  | binary _ _ hright _ hr =>
    have hdot := hr.startsWithNumber_iff hright hfirst
    obtain ⟨hcdot, hthin⟩ := latex_times_eq_iff l r
    rw [hcdot, hthin, ← Bool.not_eq_true, hdot, not_not]
    exact ⟨.rfl, .rfl⟩

/-- A number behind the variable is set off by a dot. -/
theorem latex_times_of_beginsWithNumber_two :
    (parse "x" "x*2" : Expr Double).hasError = false ∧
      (.binary .times (.var "x") (.const 2)) ∈ (parse "x" "x*2" : Expr Double).nodes ∧
      BeginsWithNumber (Expr.const 2 : Expr Double).latex ∧
      (binary .times (.var "x") (.const 2) : Expr Double).latex = "x \\cdot 2" := by
  have htokens : tokenize (strip "x*2") =
      [⟨.name, 0, ['x']⟩, ⟨.times, 1, ['*']⟩, ⟨.number, 2, ['2']⟩] := by cbv
  have hfree : ¬ IsReserved "x" := (isVariableName_iff.mp (by cbv)).not_reserved
  have htwo : (Decimal.literalValue ['2'] : Double) = 2 := by
    have hbits : (2 : Double) = ⟨0x4000000000000000⟩ := rfl
    rw [hbits]
    rfl
  have hparse : (parse "x" "x*2" : Expr Double) = .binary .times (.var "x") (.const 2) := by
    rw [← htwo]
    exact parse_eq_denote_of_tokens htokens (.expression (.term (.base (.var ⟨rfl, rfl⟩ hfree))
      (.productsCons .times .times (.base (.number rfl)) .productsNil)) .sumsNil)
  have hlatex : (Expr.const 2 : Expr Double).latex = "2" := by decide
  have herror : (parse "x" "x*2" : Expr Double).hasError = false := by
    rw [hparse]
    rfl
  have hmem : .binary .times (.var "x") (.const 2) ∈ (parse "x" "x*2" : Expr Double).nodes := by
    rw [hparse]
    exact mem_nodes_binary.mpr (.inr (.inr rfl))
  have hfirst : BeginsWithNumber (Expr.const 2 : Expr Double).latex := by
    rw [hlatex]
    exact ⟨'2', rfl, .inl (by decide)⟩
  refine ⟨herror, hmem, hfirst, ?_⟩
  obtain ⟨hcdot, -⟩ := latex_times_of_beginsWithNumber "x" "x*2" herror _ _ hmem hfirst
  have hplain : ¬ (Expr.const 2 : Expr Double).RaisesGroupedNumber := by simp [RaisesGroupedNumber]
  rw [hcdot.mpr hplain, hlatex]
  rfl

/-- **Two numbers side by side.** The base of the power has lost its parentheses, and nothing but a
thin space stands between it and the number in front of it. -/
theorem latex_times_thin_space :
    (parse "x" "3*(2)^4" : Expr Double).hasError = false ∧
      ∃ l r, (parse "x" "3*(2)^4" : Expr Double) = .binary .times l r ∧
        BeginsWithNumber r.latex ∧ (binary .times l r).latex = l.latex ++ " \\, " ++ r.latex ∧
        (binary .times l r).latex ≠ l.latex ++ " \\cdot " ++ r.latex := by
  have htokens : tokenize (strip "3*(2)^4") =
      [⟨.number, 0, ['3']⟩, ⟨.times, 1, ['*']⟩, ⟨.openParen, 2, ['(']⟩, ⟨.number, 3, ['2']⟩,
        ⟨.closeParen, 4, [')']⟩, ⟨.caret, 5, ['^']⟩, ⟨.number, 6, ['4']⟩] := by cbv
  have hparse : (parse "x" "3*(2)^4" : Expr Double) =
      .binary .times (.const (Decimal.literalValue ['3']))
        (.binary .pow (group (.const (Decimal.literalValue ['2'])))
          (.const (Decimal.literalValue ['4']))) :=
    parse_eq_denote_of_tokens htokens (.expression (.term (.base (.number rfl))
      (.productsCons .times .times (.power (.delimited .group (.paren rfl) (.expression
        (.term (.base (.number rfl)) .productsNil) .sumsNil) rfl) rfl (.base (.number rfl)))
        .productsNil)) .sumsNil)
  rw [hparse]
  refine ⟨rfl, _, _, rfl, ⟨'2', ?_, .inl (by decide)⟩, ?_, ?_⟩
  · decide
  · rfl
  · decide

end Expr

end Univariate
