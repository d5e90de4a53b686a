import Univariate.Proofs.ReadBack
import Univariate.Proofs.Typesetting

/-!
# LaTeX transcribed to plain text

The LaTeX text of a tree is turned into a plain text by looking at its characters only. Commands,
braces and spaced signs have counterparts in plain text, everything else is the same in both. What
comes out is the plain text of the tree that the LaTeX text shows, and this tree differs from the
original one in parentheses only. So it is enough to read it back to know the original tree from its
LaTeX text, up to parentheses.

A brace that closes the numerator of a fraction is told from the other ones by the brace behind it.
So a LaTeX text is transcribed on its own only where no opening brace follows.

## Main definitions

* `Latex.toPlain`: the plain text that a LaTeX text is turned into.
* `Latex.Transcribes`: what becomes of a LaTeX text wherever it stands.

## Main results

* `Expr.Writable.transcribes_latexText`: the LaTeX text of a tree is turned into the plain text of
  the tree that it shows.
* `Expr.Writable.ungroup_parse_transcribe`: a tree is read back from its LaTeX text, up to
  parentheses.
* `Expr.ungroup_eq_of_latex_eq`: trees with the same LaTeX text differ in parentheses only.
-/

namespace Univariate

open Univariate.Text

namespace Latex

/-! ### Transcription -/

/-- What may stand in a LaTeX text, and what stands in plain text instead of it. The first one that
fits counts. -/
def counterparts : List (String × String) :=
  [("\\left(", "("), ("\\right)", ")"),
    ("\\left| ", "abs("), (" \\right|", ")"),
    ("\\left\\lfloor ", "floor("), (" \\right\\rfloor", ")"),
    ("\\frac", ""), ("\x7d\x7b", ")÷("),
    ("\\operatorname\x7barccot\x7d", "arccot"), ("\\operatorname\x7barcsec\x7d", "arcsec"),
    ("\\operatorname\x7barccsc\x7d", "arccsc"), ("\\log_\x7b10\x7d", "log"),
    (" \\cdot ", "×"), (" \\, ", "×"), (" + ", "+"), (" - ", "-"),
    ("\\", ""), ("\x7b", "("), ("\x7d", ")")]

/-- What a text starts with, and its counterpart. -/
def counterpart? (cs : List Char) : Option (String × String) :=
  counterparts.find? fun r => r.1.toList.isPrefixOf cs

/-- Transcribe a text behind a number of characters that are passed over. -/
def toPlainAfter : Nat → List Char → List Char
  | _, [] => []
  | skip + 1, _ :: cs => toPlainAfter skip cs
  | 0, c :: cs =>
    match counterpart? (c :: cs) with
    | some r => r.2.toList ++ toPlainAfter (r.1.length - 1) cs
    | none => c :: toPlainAfter 0 cs

/-- The plain text, without blanks, that a LaTeX text is turned into. -/
def toPlain (cs : List Char) : List Char :=
  toPlainAfter 0 cs

/-- A character that is the same in LaTeX and in plain text. -/
def IsOrdinary (c : Char) : Prop :=
  c ∉ ['\\', ' ', '\x7b', '\x7d']

theorem isOrdinary_of_isNameRest {c : Char} (h : isNameRest c = true) : IsOrdinary c := by
  intro hc
  have hrest : isNameRest c = false := by
    rcases (by simpa using hc : c = '\\' ∨ c = ' ' ∨ c = '\x7b' ∨ c = '\x7d') with
      rfl | rfl | rfl | rfl <;> rfl
  exact absurd h (by simp [hrest])

/-- Nothing that has a counterpart starts with an ordinary character. -/
theorem counterpart?_of_isOrdinary {c : Char} (h : IsOrdinary c) (cs : List Char) :
    counterpart? (c :: cs) = none := by
  -- the table has to be looked at only here: everything in it starts with one of four characters
  have hstart : ∀ r ∈ counterparts, ∃ d ∈ ['\\', ' ', '\x7b', '\x7d'],
      ∃ ds, r.1.toList = d :: ds := by
    simp [counterparts]
  refine List.find?_eq_none.mpr ?_
  intro r hr hfits
  obtain ⟨d, hd, ds, hr⟩ := hstart r hr
  rw [hr, List.isPrefixOf_cons_cons, Bool.and_eq_true, beq_iff_eq] at hfits
  exact h (hfits.1 ▸ hd)

/-- Ordinary characters stay. -/
theorem toPlain_append_of_isOrdinary {cs : List Char} (h : ∀ c ∈ cs, IsOrdinary c)
    (rest : List Char) : toPlain (cs ++ rest) = cs ++ toPlain rest := by
  induction cs with
  | nil => rfl
  | cons c cs ih =>
    obtain ⟨hc, hcs⟩ := List.forall_mem_cons.mp h
    rw [List.cons_append, toPlain, toPlainAfter, counterpart?_of_isOrdinary hc]
    exact congrArg (c :: ·) (ih hcs)

/-- A closing brace is a closing parenthesis, unless a brace opens behind it. -/
theorem toPlain_closeBrace {rest : List Char} (h : rest.head? ≠ some '\x7b') :
    toPlain ('\x7d' :: rest) = ')' :: toPlain rest := by
  cases rest with
  | nil => rfl
  | cons c cs =>
    have hc : ('\x7b' == c) = false := beq_false_of_ne fun hc => h (by rw [← hc]; rfl)
    have hfind : counterpart? ('\x7d' :: c :: cs) = some ("\x7d", ")") := by
      simp [counterpart?, counterparts, List.find?, List.isPrefixOf, hc]
    rw [toPlain, toPlainAfter, hfind]
    rfl

/-! ### What becomes of the parts of a LaTeX text -/

/-- A LaTeX text is turned into a plain text wherever it stands, unless a brace opens behind it. It
opens no brace itself, so that it can stand behind another one. -/
structure Transcribes (latex plain : String) : Prop where
  /-- It starts with something else than an opening brace. -/
  start : ∃ c cs, latex.toList = c :: cs ∧ c ≠ '\x7b'
  /-- It is turned into the plain text. -/
  toPlain_append : ∀ rest : List Char, rest.head? ≠ some '\x7b' →
    toPlain (latex.toList ++ rest) = (strip plain).toList ++ toPlain rest

namespace Transcribes

variable {s t p q : String}

/-- Texts are transcribed one after the other. -/
theorem append (hs : Transcribes s p) (ht : Transcribes t q) : Transcribes (s ++ t) (p ++ q) where
  start := by
    obtain ⟨c, cs, hcs, hc⟩ := hs.start
    exact ⟨c, cs ++ t.toList, by rw [String.toList_append, hcs, List.cons_append], hc⟩
  toPlain_append := by
    intro rest hrest
    obtain ⟨c, cs, hcs, hc⟩ := ht.start
    have hnext : (t.toList ++ rest).head? ≠ some '\x7b' := by simpa [hcs] using hc
    rw [String.toList_append, List.append_assoc, hs.toPlain_append _ hnext,
      ht.toPlain_append rest hrest, toList_strip_append, List.append_assoc]

/-- A text of ordinary characters, none of them blank, stays. -/
theorem of_isOrdinary (hne : s.toList ≠ [])
    (h : ∀ c ∈ s.toList, IsOrdinary c ∧ isBlank c = false) : Transcribes s s where
  start := by
    obtain ⟨c, cs, hcs⟩ := List.exists_cons_of_ne_nil hne
    refine ⟨c, cs, hcs, ?_⟩
    rintro rfl
    exact (h '\x7b' (by simp [hcs])).1 (by simp)
  toPlain_append := by
    intro rest _
    rw [toPlain_append_of_isOrdinary fun c hc => (h c hc).1,
      toList_strip_of_not_blank fun c hc => (h c hc).2]

theorem minus : Transcribes "-" "-" :=
  ⟨⟨_, _, rfl, by decide⟩, fun _ _ => rfl⟩

theorem closeBrace : Transcribes "\x7d" ")" :=
  ⟨⟨_, _, rfl, by decide⟩, fun _ => toPlain_closeBrace⟩

theorem parenthesized (h : Transcribes s p) :
    Transcribes (Latex.parenthesized s) ("(" ++ p ++ ")") := by
  have hopen : Transcribes "\\left(" "(" := ⟨⟨_, _, rfl, by decide⟩, fun _ _ => rfl⟩
  have hclose : Transcribes "\\right)" ")" := ⟨⟨_, _, rfl, by decide⟩, fun _ _ => rfl⟩
  exact (hopen.append h).append hclose

/-- The braces of an argument are parentheses, and the command in front of them says what else. -/
theorem braced {command : String} (hcommand : Transcribes (command ++ "\x7b") q)
    (h : Transcribes s p) : Transcribes (command ++ Latex.braced s) (q ++ p ++ ")") := by
  have happend := (hcommand.append h).append closeBrace
  simpa only [Latex.braced, String.append_assoc] using happend

/-- A fraction is a division of parentheses. -/
theorem fraction (hs : Transcribes s p) (ht : Transcribes t q) :
    Transcribes ("\\frac" ++ Latex.braced s ++ Latex.braced t)
      ("(" ++ p ++ ")" ++ " " ++ "÷" ++ " " ++ ("(" ++ q ++ ")")) := by
  have hopen : Transcribes ("\\frac" ++ "\x7b") "(" := ⟨⟨_, _, rfl, by decide⟩, fun _ _ => rfl⟩
  have hbar : Transcribes ("\x7d" ++ "\x7b") (")" ++ " " ++ "÷" ++ " " ++ "(") :=
    ⟨⟨_, _, rfl, by decide⟩, fun _ _ => rfl⟩
  have happend := (((hopen.append hs).append hbar).append ht).append closeBrace
  simpa only [Latex.braced, String.append_assoc] using happend

/-- An operation stands between its operands. -/
theorem operation {sign : String} (op : BinaryOp) (hs : Transcribes s p)
    (hsign : Transcribes sign (" " ++ op.symbol ++ " ")) (ht : Transcribes t q) :
    Transcribes (s ++ sign ++ t) (p ++ " " ++ op.symbol ++ " " ++ q) := by
  have happend := (hs.append hsign).append ht
  simpa only [String.append_assoc] using happend

/-- A power has its exponent in parentheses. -/
theorem power (hs : Transcribes s p) (ht : Transcribes t q) :
    Transcribes (s ++ "^" ++ Latex.braced t) (p ++ " " ++ "^" ++ " " ++ ("(" ++ q ++ ")")) := by
  have hcaret : Transcribes ("^" ++ "\x7b") (" " ++ "^" ++ " " ++ "(") :=
    ⟨⟨_, _, rfl, by decide⟩, fun _ _ => rfl⟩
  have happend := hs.append (hcaret.braced ht)
  simpa only [String.append_assoc] using happend

/-- An operator name stands in front of parentheses. -/
theorem operator {command name : String} (h : Transcribes s p)
    (hcommand : Transcribes command name) :
    Transcribes (command ++ Latex.parenthesized s) (name ++ "(" ++ p ++ ")") := by
  have happend := hcommand.append h.parenthesized
  simpa only [String.append_assoc] using happend

/-- A function is called by its name. -/
theorem call (f : Func) (h : Transcribes s p) :
    Transcribes (f.latexCall s) (f.name ++ "(" ++ p ++ ")") := by
  cases f with
  | sqrt =>
    have hroot : Transcribes ("\\sqrt" ++ "\x7b") ("sqrt" ++ "(") :=
      ⟨⟨_, _, rfl, by decide⟩, fun _ _ => rfl⟩
    exact hroot.braced h
  | floor =>
    have hopen : Transcribes "\\left\\lfloor " ("floor" ++ "(") :=
      ⟨⟨_, _, rfl, by decide⟩, fun _ _ => rfl⟩
    have hclose : Transcribes " \\right\\rfloor" ")" := ⟨⟨_, _, rfl, by decide⟩, fun _ _ => rfl⟩
    exact (hopen.append h).append hclose
  | abs =>
    have hopen : Transcribes "\\left| " ("abs" ++ "(") := ⟨⟨_, _, rfl, by decide⟩, fun _ _ => rfl⟩
    have hclose : Transcribes " \\right|" ")" := ⟨⟨_, _, rfl, by decide⟩, fun _ _ => rfl⟩
    exact (hopen.append h).append hclose
  | _ =>
    refine h.operator ?_
    exact ⟨⟨_, _, rfl, by decide⟩, fun _ _ => rfl⟩

section Leaves

theorem of_isNameText (h : IsNameText s.toList) : Transcribes s s := by
  refine .of_isOrdinary h.ne_nil fun c hc => ⟨?_, h.not_blank c hc⟩
  exact isOrdinary_of_isNameRest (h.isNameRest c hc)

theorem of_isLiteralText (h : IsLiteralText s.toList) : Transcribes s s := by
  obtain ⟨c, cs, hcs, -⟩ := h.exists_cons
  refine .of_isOrdinary (by simp [hcs]) fun c hc => ⟨?_, h.not_blank c hc⟩
  obtain hdigit | rfl := h.isDigit_or_eq_point hc
  · exact isOrdinary_of_isNameRest (by simp [isNameRest, hdigit])
  · simp [IsOrdinary]

variable {R : Type} [Zero R] [One R] [NatCast R] [BEq R] [OfScientific R] [Numeral R]
  [LawfulNumeral R]

/-- The number π has a command of its own, other numbers are the same in both texts. -/
theorem constant {c : R} (hc : IsUnsigned c) :
    Transcribes (constantText "\\pi" c) (constantText "pi" c) := by
  rw [constantText, constantText]
  split
  · exact ⟨⟨_, _, rfl, by decide⟩, fun _ _ => rfl⟩
  · rw [hc.text_eq_magnitude]
    cases hfinite : Numeral.isFinite c with
    | true => exact of_isLiteralText (LawfulNumeral.isLiteralText_magnitude c hc hfinite)
    | false =>
      rw [LawfulNumeral.magnitude_of_not_isFinite c hc hfinite]
      exact ⟨⟨_, _, rfl, by decide⟩, fun _ _ => rfl⟩

end Leaves

end Transcribes

/-- The plain text that a LaTeX text is turned into, as a string. -/
def transcribe (latex : String) : String :=
  String.ofList (toPlain latex.toList)

theorem Transcribes.transcribe_eq {latex plain : String} (h : Transcribes latex plain) :
    transcribe latex = strip plain := by
  have happend := h.toPlain_append [] (by simp)
  have hnil : toPlain [] = [] := rfl
  rw [List.append_nil, hnil, List.append_nil] at happend
  rw [transcribe, happend, String.ofList_toList]

end Latex

open Latex

/-! ### The LaTeX text of a tree -/

namespace Expr

variable {R : Type} [Zero R] [One R] [Neg R] [NatCast R] [BEq R] [OfScientific R] [Numeral R]
  [LawfulNumeral R] {v : String} {t : Expr R}

/-- **The LaTeX text of a tree is turned into the plain text of the tree that it shows.** -/
theorem Writable.transcribes_latexText (h : Writable v t) (bare : Bool) :
    Transcribes (t.latexText bare) (t.typeset bare).plain := by
  -- the parts of the LaTeX text and of the plain text are named in the same order, so that each
  -- case is a chain of `append`
  induction h generalizing bare with
  | var hv => exact .of_isNameText hv.isNameText
  | const hc => exact .constant hc
  | @negate u _ _ ih =>
    rw [latexText, Expr.typeset, Expr.groupUnless]
    split
    · exact Transcribes.minus.append (ih false)
    · exact Transcribes.minus.append (ih false).parenthesized
  | group _ ih =>
    cases bare with
    | false => exact (ih false).parenthesized
    | true => exact ih true
  | exp _ ih =>
    have hexp : Transcribes ("e^" ++ "\x7b") "e^(" := ⟨⟨_, _, rfl, by decide⟩, fun _ _ => rfl⟩
    exact hexp.braced (ih true)
  | call f _ ih => exact (ih true).call f
  | @binary l r op _ _ _ _ ihl ihr =>
    cases op with
    | plus =>
      have hplus : Transcribes " + " (" " ++ BinaryOp.plus.symbol ++ " ") :=
        ⟨⟨_, _, rfl, by decide⟩, fun _ _ => rfl⟩
      exact (ihl false).operation .plus hplus (ihr false)
    | minus =>
      have hminus : Transcribes " - " (" " ++ BinaryOp.minus.symbol ++ " ") :=
        ⟨⟨_, _, rfl, by decide⟩, fun _ _ => rfl⟩
      exact (ihl false).operation .minus hminus (ihr false)
    | times =>
      have hdot : Transcribes " \\cdot " (" " ++ BinaryOp.times.symbol ++ " ") :=
        ⟨⟨_, _, rfl, by decide⟩, fun _ _ => rfl⟩
      have hspace : Transcribes " \\, " (" " ++ BinaryOp.times.symbol ++ " ") :=
        ⟨⟨_, _, rfl, by decide⟩, fun _ _ => rfl⟩
      rw [latexText]
      split
      · exact (ihl false).operation .times hdot (ihr false)
      · exact (ihl false).operation .times hspace (ihr false)
    | div => exact (ihl true).fraction (ihr true)
    | pow =>
      rw [latexText, Expr.typeset]
      cases hbase : l.innermost.needsParenthesesAsBase with
      | true => exact (ihl true).parenthesized.power (ihr true)
      | false => exact (ihl true).power (ihr true)

/-- **A tree is read back from its LaTeX text, up to parentheses.** -/
theorem Writable.ungroup_parse_transcribe (h : Writable v t) (hfinite : t.AllFinite) :
    (parse v (transcribe t.latex) : Expr R).ungroup = t.ungroup := by
  have hshown := h.typeset false
  have hread : parse v (t.typeset false).plain = t.typeset false :=
    hshown.parse_plain_iff.mpr ((allFinite_typeset t false).mpr hfinite)
  have hparse : parse v (transcribe t.latex) = (parse v (t.typeset false).plain : Expr R) := by
    rw [latex, (h.transcribes_latexText false).transcribe_eq, parse, strip_strip, parse]
  rw [hparse, hread, ungroup_typeset]

/-- **LaTeX loses nothing but parentheses.** If two texts are read without an error, all numbers in
them are finite, and the LaTeX texts of their trees are the same, then the trees differ in
parentheses only. -/
theorem ungroup_eq_of_latex_eq (v text text' : String)
    (h : (parse v text : Expr Double).hasError = false)
    (h' : (parse v text' : Expr Double).hasError = false)
    (hfinite : ∀ c : Double, const c ∈ (parse v text).nodes → c.isFinite = true)
    (hfinite' : ∀ c : Double, const c ∈ (parse v text').nodes → c.isFinite = true)
    (hlatex : (parse v text : Expr Double).latex = (parse v text' : Expr Double).latex) :
    (parse v text : Expr Double).ungroup = (parse v text').ungroup := by
  rw [← (writable_parse h).ungroup_parse_transcribe hfinite, hlatex,
    (writable_parse h').ungroup_parse_transcribe hfinite']

/-- The parentheses around a denominator are not seen in LaTeX. -/
theorem ungroup_eq_of_latex_eq_fraction :
    (parse "x" "1/(2)" : Expr Double).latex = "\\frac\x7b1\x7d\x7b2\x7d" ∧
      (parse "x" "1/(2)" : Expr Double).ungroup = (parse "x" "1/2").ungroup := by
  have hstrip : strip "1/(2)" = "1/(2)" ∧ strip "1/2" = "1/2" := ⟨by cbv, by cbv⟩
  have htokens : tokenize (strip "1/(2)") = [⟨.number, 0, ['1']⟩, ⟨.slash, 1, ['/']⟩,
      ⟨.openParen, 2, ['(']⟩, ⟨.number, 3, ['2']⟩, ⟨.closeParen, 4, [')']⟩] := by
    rw [hstrip.1]
    cbv
  have htokens' : tokenize (strip "1/2") =
      [⟨.number, 0, ['1']⟩, ⟨.slash, 1, ['/']⟩, ⟨.number, 2, ['2']⟩] := by
    rw [hstrip.2]
    cbv
  have hdenote : ∀ text ts, tokenize (strip text) = ts →
      ∀ d : Grammar.Derivation "x" .expression ts [],
        (parse "x" text : Expr Double) = d.denote := by
    rintro text _ rfl d
    exact parse_eq_denote d
  have hparse : (parse "x" "1/(2)" : Expr Double) = .binary .div
      (.const (Decimal.literalValue ['1'])) (group (.const (Decimal.literalValue ['2']))) :=
    hdenote _ _ htokens (.expression (.term (.base (.number rfl)) (.productsCons .div .slash
      (.base (.delimited .group (.paren rfl) (.expression (.term (.base (.number rfl))
        .productsNil) .sumsNil) rfl)) .productsNil)) .sumsNil)
  have hparse' : (parse "x" "1/2" : Expr Double) = .binary .div
      (.const (Decimal.literalValue ['1'])) (.const (Decimal.literalValue ['2'])) :=
    hdenote _ _ htokens' (.expression (.term (.base (.number rfl)) (.productsCons .div .slash
      (.base (.number rfl)) .productsNil)) .sumsNil)
  have hlatex : (parse "x" "1/(2)" : Expr Double).latex = "\\frac\x7b1\x7d\x7b2\x7d" := by
    rw [hparse]
    decide
  have hlatex' : (parse "x" "1/2" : Expr Double).latex = "\\frac\x7b1\x7d\x7b2\x7d" := by
    rw [hparse']
    decide
  have hsame := hlatex.trans hlatex'.symm
  refine ⟨hlatex, ungroup_eq_of_latex_eq "x" "1/(2)" "1/2" ?_ ?_ ?_ ?_ hsame⟩
  · rw [hparse]
    rfl
  · rw [hparse']
    rfl
  · intro c hc
    rw [hparse, nodes_eq_postOrder] at hc
    rcases (by simpa [postOrder] using hc : c = _ ∨ c = _) with rfl | rfl <;> decide
  · intro c hc
    rw [hparse', nodes_eq_postOrder] at hc
    rcases (by simpa [postOrder] using hc : c = _ ∨ c = _) with rfl | rfl <;> decide

end Expr

end Univariate
