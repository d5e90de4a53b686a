import Univariate.Diagnostic.Reading
import Univariate.Proofs.Reading

/-!
# Diagnostics point at the offending token

An error leaf holds nothing but a byte offset. The tokens that were read are gone when a diagnostic
is made from it, so the text is cut a second time, from the offset on, and the offset is converted
into a number of characters. The diagnostic is of use only if both agree with the tokens that the
reader had: the text that it quotes has to be the lexeme of the token at which reading stopped, and
the span has to mark that lexeme where it stands, and not where the same text stands once more.

## Why the second cutting agrees with the first

The first token of a text depends on what the text starts with, and not on anything in front of it.
So cutting can be taken up again wherever a token starts, and it goes on with the tokens that were
found there before. No assumption about the width of the characters enters: the bytes and the
characters in front of a token are counted on the same list, the lexemes of the tokens before it.

## Main results

* `exists_rest_of_tokensFrom_eq_append`, `exists_rest_of_tokenize_eq_append`: cutting can be taken
  up again at any token.
* `Diagnostic.exists_ofOffset_start`: the diagnostic for the offset of a token.
* `Expr.diagnostics_parse`: the diagnostics of a tree that was read.
-/

namespace Univariate

open Univariate.Text

/-! ### Taking up the cutting at a token -/

/-- **Cutting can be taken up again at any token.** The lexemes of the first tokens are the
beginning of the text, and the rest of the text, cut from there on, gives the other tokens. -/
theorem exists_rest_of_tokensFrom_eq_append {start : Nat} {cs : List Char} {p ys : List Token}
    (h : tokensFrom start cs = p ++ ys) :
    ∃ rest, cs = p.flatMap Token.lexeme ++ rest ∧
      tokensFrom (start + byteLength (p.flatMap Token.lexeme)) rest = ys := by
  induction p generalizing start cs with
  | nil => exact ⟨cs, rfl, h⟩
  | cons t p ih =>
    cases cs with
    | nil =>
      rw [tokensFrom] at h
      contradiction
    | cons c cs =>
      rw [tokensFrom, List.cons_append, List.cons.injEq] at h
      obtain ⟨rfl, h⟩ := h
      obtain ⟨rest, hrest, hys⟩ := ih h
      refine ⟨rest, ?_, ?_⟩
      · rw [List.flatMap_cons, List.append_assoc, ← hrest]
        exact (splitToken_append c cs).symm
      · rw [List.flatMap_cons, byteLength_append, ← Nat.add_assoc]
        exact hys

/-- The first token starts where the text does. -/
theorem start_of_tokensFrom_eq_cons {start : Nat} {cs : List Char} {t : Token} {ts : List Token}
    (h : tokensFrom start cs = t :: ts) : t.start = start := by
  cases cs with
  | nil =>
    rw [tokensFrom] at h
    contradiction
  | cons c cs =>
    rw [tokensFrom, List.cons.injEq] at h
    rw [← h.1]

/-- **In a whole text, cutting is taken up again at the offset of a token.** The lexemes in front of
the token take up the bytes before that offset, and its own lexeme comes next. -/
theorem exists_rest_of_tokenize_eq_append {text : String} {p ys : List Token} {t : Token}
    (h : tokenize text = p ++ t :: ys) :
    ∃ rest, text.toList = p.flatMap Token.lexeme ++ rest ∧
      byteLength (p.flatMap Token.lexeme) = t.start ∧
      rest = t.lexeme ++ ys.flatMap Token.lexeme ∧ tokensFrom t.start rest = t :: ys := by
  obtain ⟨rest, htext, hrest⟩ := exists_rest_of_tokensFrom_eq_append h
  rw [Nat.zero_add] at hrest
  have hbefore := (start_of_tokensFrom_eq_cons hrest).symm
  have hlexeme := flatMap_lexeme_tokensFrom (byteLength (p.flatMap Token.lexeme)) rest
  rw [hrest, List.flatMap_cons] at hlexeme
  exact ⟨rest, htext, hbefore, hlexeme.symm, hbefore ▸ hrest⟩

/-- No token is empty. -/
theorem lexeme_ne_nil_of_mem_tokensFrom {start : Nat} {cs : List Char} {t : Token}
    (ht : t ∈ tokensFrom start cs) : t.lexeme ≠ [] := by
  fun_induction tokensFrom start cs with
  | case1 => contradiction
  | case2 start c cs first ih =>
    rcases List.mem_cons.mp ht with rfl | ht
    · exact splitToken_lexeme_ne_nil c cs
    · exact ih ht

/-- Where no token is left, the offset is that of the end of the text. -/
theorem Parser.offset_nil (name text : String) :
    State.offset (Scope.ofText name text) ⟨[], false⟩ = byteLength text.toList := rfl

/-- Otherwise it is that of the next token. -/
theorem Parser.offset_cons (scope : Scope) (t : Token) (ys : List Token) :
    State.offset scope ⟨t :: ys, false⟩ = t.start := rfl

/-! ### The diagnostic for one offset -/

/-- A text that ends too early is reported at its end. -/
theorem Diagnostic.ofOffset_byteLength (name text : String) :
    ofOffset name text (byteLength text.toList) =
      ⟨[⟨text.length, text.length⟩], .unexpectedEnd⟩ := by
  have hsuffix := suffixAt?_append text.toList []
  have hchars := charsBefore_append text.toList []
  rw [List.append_nil] at hsuffix hchars
  rw [ofOffset, hsuffix, hchars, Option.getD_some, tokensFrom, String.length_toList]

/-- An offset at which a token starts is reported by quoting that token. The text is the token's
lexeme between the characters that take up the bytes in front of it and some others, and the span
starts behind the former and marks the lexeme. -/
theorem Diagnostic.exists_ofOffset_start (name : String) {text : String} {p ys : List Token}
    {t : Token} (h : tokenize text = p ++ t :: ys) :
    ∃ before after : List Char, text.toList = before ++ t.lexeme ++ after ∧
      byteLength before = t.start ∧
      ∃ span : Span, span = ⟨before.length, before.length + t.lexeme.length⟩ ∧
        span.Marks text.toList t.lexeme ∧
        ofOffset name text t.start = ⟨[span], .unexpectedInput t.text name⟩ := by
  obtain ⟨rest, htext, hbefore, hlexeme, hrest⟩ := exists_rest_of_tokenize_eq_append h
  have hmem : t ∈ tokensFrom t.start rest := by
    rw [hrest]
    exact List.mem_cons_self ..
  have hparts : text.toList =
      p.flatMap Token.lexeme ++ t.lexeme ++ ys.flatMap Token.lexeme := by
    rw [htext, hlexeme, List.append_assoc]
  have hsuffix : suffixAt? t.start text.toList = some rest := by
    rw [htext, ← hbefore, suffixAt?_append]
  have hchars : charsBefore t.start text.toList = (p.flatMap Token.lexeme).length := by
    rw [htext, ← hbefore, charsBefore_append]
  refine ⟨_, _, hparts, hbefore, _, rfl, ?_, ?_⟩
  · rw [hparts]
    exact Span.marks_append _ _ (lexeme_ne_nil_of_mem_tokensFrom hmem)
  · rw [ofOffset, hsuffix, hchars, Option.getD_some, hrest]

/-- The sign `×` takes two bytes, but it is one character. The star in front of it is not meant. -/
example : Diagnostic.ofOffset "x" "x*x×*x" 5 = ⟨[⟨4, 5⟩], .unexpectedInput "*" "x"⟩ := by cbv

/-! ### Trees that were read -/

variable {R : Type} [Zero R] [BEq R] [One R] [Numeral R] [OfScientific R]

/-- **The diagnostics of a tree that was read.** There are none if and only if the tree has no
error, and otherwise there is one. It either reports that the text has ended, with an empty span
behind the last character, or it quotes the token that starts at the error. Then the text is that
token's lexeme between the characters that take up the bytes in front of the error and some others,
and the span starts behind the former and marks the lexeme. -/
theorem Expr.diagnostics_parse (name text : String) :
    let source := strip text
    let t : Expr R := parse name text
    let ds := t.diagnostics name source
    (ds = [] ↔ t.hasError = false) ∧
      (ds = [] ∨ ∃ o, t.errorOffsets = [o] ∧
        (o = byteLength source.toList ∧
            ds = [⟨[⟨source.length, source.length⟩], .unexpectedEnd⟩] ∨
          ∃ token ∈ tokenize source, token.start = o ∧ ∃ before after : List Char,
            source.toList = before ++ token.lexeme ++ after ∧ byteLength before = o ∧
              ∃ span : Span, span = ⟨before.length, before.length + token.lexeme.length⟩ ∧
                span.Marks source.toList token.lexeme ∧
                ds = [⟨[span], .unexpectedInput token.text name⟩])) := by
  intro source t ds
  have hds : ds = t.errorOffsets.map (Diagnostic.ofOffset name source) := rfl
  have hnil : ds = [] ↔ t.hasError = false := by
    rw [hds, List.map_eq_nil_iff, hasError_eq_false_iff]
  refine ⟨hnil, ?_⟩
  obtain ⟨d, hd⟩ | ⟨p, ys, htokens, -, herror⟩ := parse_cases (R := R) name text
  · refine .inl ?_
    rw [hds, show t = d.denote from hd, d.errorFree_denote, List.map_nil]
  · refine .inr ⟨_, herror, ?_⟩
    rw [hds, show t.errorOffsets = _ from herror]
    cases ys with
    | nil =>
      rw [Parser.offset_nil, List.map_cons, List.map_nil, Diagnostic.ofOffset_byteLength]
      exact .inl ⟨rfl, rfl⟩
    | cons token ys =>
      have hmem : token ∈ tokenize source := by
        rw [htokens]
        exact List.mem_append_right p (List.mem_cons_self ..)
      obtain ⟨before, after, hsource, hbefore, span, hspan, hmarks, hdiagnostic⟩ :=
        Diagnostic.exists_ofOffset_start name htokens
      rw [Parser.offset_cons, List.map_cons, List.map_nil, hdiagnostic]
      exact .inr ⟨token, hmem, rfl, before, after, hsource, hbefore, span, hspan, hmarks, rfl⟩

end Univariate
