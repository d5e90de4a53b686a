import Mathlib
import Univariate.Proofs.DoubleText
import Univariate.Proofs.Reading
import Univariate.Proofs.Spelling

/-!
# Plain texts read back

The plain text of a tree that was read, or of a derivative of it, is read back as the same tree:
with the same operations, the same parentheses and the same numbers. The only exception is a tree
with a number that is not finite. Such a number is written `inf`, which is read as a name.

That such a tree does not read back needs a reason that holds for every tree around the number. The
names `inf` are counted. A tree is written with one for each variable of that name and one for each
number that is not finite. A tree that is read has one variable of that name for each in the text.
So a tree that reads back has no number that is not finite.

All of this holds for any numbers whose texts are as `LawfulNumeral` says. For doubles that has been
shown, so the main result is stated for them.

## Main definitions

* `Expr.namedInfinite`: how many variables of a tree are named `inf`.
* `Expr.iteratedDerivative`: the result of differentiating several times.

## Main results

* `Expr.Writable.parse_plain_iff`: a writable tree reads back if and only if its numbers are finite.
* `Expr.parse_plain_iteratedDerivative`: the same for all derivatives of what was read.
-/

namespace Univariate

open Univariate.Text

variable {R : Type} [Zero R] [BEq R] [Numeral R]

/-! ### Counting the name of infinity -/

namespace Expr

variable {v : String} {t : Expr R}

/-- How many variables of a tree are named `inf`. -/
def namedInfinite : Expr R → Nat
  | .var name => if name = "inf" then 1 else 0
  | .unary _ u => u.namedInfinite
  | .binary _ l r => l.namedInfinite + r.namedInfinite
  | _ => 0

/-- How many numbers of a tree are not finite. -/
def infiniteCount : Expr R → Nat
  | .const c => if Numeral.isFinite c then 0 else 1
  | .unary _ u => u.infiniteCount
  | .binary _ l r => l.infiniteCount + r.infiniteCount
  | _ => 0

theorem allFinite_of_infiniteCount_eq_zero (h : t.infiniteCount = 0) : t.AllFinite := by
  intro c hc
  rw [nodes_eq_postOrder] at hc
  induction t with
  | unary op u ih => exact ih h (by simpa [postOrder] using hc)
  | binary op l r ihl ihr =>
    obtain ⟨hl, hr⟩ := Nat.add_eq_zero_iff.mp h
    rcases (by simpa [postOrder] using hc : const c ∈ l.postOrder ∨ const c ∈ r.postOrder) with
      hc | hc
    · exact ihl hl hc
    · exact ihr hr hc
  | const c' =>
    obtain rfl : c = c' := by simpa [postOrder] using hc
    simpa [infiniteCount] using h
  | _ => simp [postOrder] at hc

theorem count_parenthesized (ps : List Piece) :
    (parenthesized ps).count infinitePiece = ps.count infinitePiece := by
  simp [parenthesized, infinitePiece]

/-- The pieces of an operation are not names. -/
theorem count_cons_piece (op : BinaryOp) (ps : List Piece) :
    (op.piece :: ps).count infinitePiece = ps.count infinitePiece := by
  refine List.count_cons_of_ne ?_
  intro h
  have hkind := congrArg Prod.fst h
  cases op <;> exact absurd hkind (by decide)

variable [One R] [NatCast R] [OfScientific R] [LawfulNumeral R]

theorem count_constantPiece (c : R) :
    [constantPiece c].count infinitePiece = if Numeral.isFinite c then 0 else 1 := by
  rw [constantPiece]
  split
  · next hpi =>
    rw [LawfulNumeral.eq_pi_of_beq c hpi, if_pos LawfulNumeral.isFinite_pi]
    rfl
  · split
    · simp [infinitePiece]
    · simp

/-- What a tree is written as has one name of infinity for each variable of that name, and one for
each number that is not finite. -/
theorem Writable.count_spelling (h : Writable v t) :
    t.spelling.count infinitePiece = t.namedInfinite + t.infiniteCount := by
  induction h with
  | var =>
    have hname : ((TokenKind.name, v.toList) : Piece) = infinitePiece ↔ v = "inf" := by
      rw [infinitePiece, Prod.mk.injEq, ← String.toList_inj]
      simp
    by_cases hv : v = "inf"
    · rw [spelling, hname.mpr hv, namedInfinite, if_pos hv]
      rfl
    · rw [spelling, List.count_cons_of_ne (mt hname.mp hv), namedInfinite, if_neg hv]
      rfl
  | const => simpa [spelling, namedInfinite, infiniteCount] using count_constantPiece _
  | negate _ _ ih => rw [spelling, count_cons_piece, ih]; rfl
  | group _ ih => rw [spelling, count_parenthesized, ih]; rfl
  | exp _ ih =>
    rw [spelling, List.count_cons_of_ne (by decide), count_cons_piece, count_parenthesized, ih]
    rfl
  | call f _ ih =>
    have hname : ((TokenKind.name, f.name.toList) : Piece) ≠ infinitePiece := by
      cases f <;> decide
    rw [spelling, List.count_cons_of_ne hname, count_parenthesized, ih]
    rfl
  | binary op _ _ _ _ ihl ihr =>
    rw [spelling, List.count_append, count_cons_piece, ihl, ihr, namedInfinite, infiniteCount]
    omega

end Expr

namespace Grammar

variable [One R] [OfScientific R] {v : String}

/-- The number of tokens that are the name of infinity. -/
def infiniteNames (xs : List Token) : Nat :=
  (xs.map Token.piece).count infinitePiece

theorem infiniteNames_cons_of_ne {t : Token} (h : t.piece ≠ infinitePiece) (xs : List Token) :
    infiniteNames (t :: xs) = infiniteNames xs :=
  List.count_cons_of_ne h

theorem infiniteNames_cons_of_kind {t : Token} {k : TokenKind} (h : t.kind = k) (hk : k ≠ .name)
    (xs : List Token) : infiniteNames (t :: xs) = infiniteNames xs :=
  infiniteNames_cons_of_ne (fun hpiece => hk (h.symm.trans (congrArg Prod.fst hpiece))) xs

theorem infiniteNames_cons_of_isName {t : Token} {name : String} (h : t.IsName name)
    (xs : List Token) :
    infiniteNames (t :: xs) = (if name = "inf" then 1 else 0) + infiniteNames xs := by
  have hpiece : t.piece = infinitePiece ↔ name = "inf" := by
    rw [← h.2, Token.piece, Token.text, infinitePiece, h.1, Prod.mk.injEq, ← String.toList_inj]
    simp
  split
  · next hname =>
    rw [infiniteNames, List.map_cons, hpiece.mpr hname, List.count_cons_self, Nat.add_comm]
    rfl
  · next hname => rw [infiniteNames_cons_of_ne (mt hpiece.mp hname), Nat.zero_add]

theorem SumSign.ne_name {k : TokenKind} {op : BinaryOp} (h : SumSign k op) : k ≠ .name := by
  cases h <;> decide

theorem ProductSign.ne_name {k : TokenKind} {op : BinaryOp} (h : ProductSign k op) : k ≠ .name := by
  cases h <;> decide

theorem Opening.infiniteNames {xs ys : List Token} {closing : TokenKind} {op : UnaryOp}
    (h : Opening xs ys closing op) :
    closing ≠ .name ∧ infiniteNames xs = infiniteNames ys := by
  cases h with
  | paren h => exact ⟨by decide, infiniteNames_cons_of_kind h (by decide) _⟩
  | bar h => exact ⟨by decide, infiniteNames_cons_of_kind h (by decide) _⟩
  | @call _ _ _ f h h' =>
    have hf : f.name ≠ "inf" := by cases f <;> decide
    rw [infiniteNames_cons_of_isName h, if_neg hf, infiniteNames_cons_of_kind h' (by decide)]
    exact ⟨by decide, Nat.zero_add _⟩
  | exp h hc h' =>
    rw [infiniteNames_cons_of_isName h, infiniteNames_cons_of_kind hc (by decide),
      infiniteNames_cons_of_kind h' (by decide)]
    exact ⟨by decide, Nat.zero_add _⟩

/-- What is denoted has `n` variables named `inf`, or a chain adds as many. -/
def Symbol.NamesInfinite (n : Nat) : (s : Symbol) → s.Denotation R → Prop
  | .sums, chain | .products, chain =>
    ∀ left : Expr R, (chain left).namedInfinite = left.namedInfinite + n
  | .expression, tree | .term, tree | .factor, tree | .primary, tree => tree.namedInfinite = n

/-- A tree that is read has one variable named `inf` for each such name in the text. -/
theorem Derivation.infiniteNames_eq {s : Symbol} {xs ys : List Token} (d : Derivation v s xs ys) :
    ∃ n, infiniteNames xs = n + infiniteNames ys ∧
      s.NamesInfinite n (d.denote : s.Denotation R) := by
  induction d with
  | expression first more ihf ihm =>
    obtain ⟨m, hm, hfirst⟩ := ihf
    obtain ⟨n, hn, hmore⟩ := ihm
    exact ⟨m + n, by omega, (hmore _).trans (by rw [hfirst])⟩
  | sumsNil => exact ⟨0, (Nat.zero_add _).symm, fun left => rfl⟩
  | sumsCons op hsign right more ihr ihm =>
    obtain ⟨m, hm, hright⟩ := ihr
    obtain ⟨n, hn, hmore⟩ := ihm
    refine ⟨m + n, ?_, fun left => (hmore _).trans ?_⟩
    · rw [infiniteNames_cons_of_kind rfl hsign.ne_name, hm, hn, Nat.add_assoc]
    · rw [Expr.namedInfinite, hright, Nat.add_assoc]
  | term first more ihf ihm =>
    obtain ⟨m, hm, hfirst⟩ := ihf
    obtain ⟨n, hn, hmore⟩ := ihm
    exact ⟨m + n, by omega, (hmore _).trans (by rw [hfirst])⟩
  | productsNil => exact ⟨0, (Nat.zero_add _).symm, fun left => rfl⟩
  | productsCons op hsign right more ihr ihm =>
    obtain ⟨m, hm, hright⟩ := ihr
    obtain ⟨n, hn, hmore⟩ := ihm
    refine ⟨m + n, ?_, fun left => (hmore _).trans ?_⟩
    · rw [infiniteNames_cons_of_kind rfl hsign.ne_name, hm, hn, Nat.add_assoc]
    · rw [Expr.namedInfinite, hright, Nat.add_assoc]
  | negation hminus u ih =>
    obtain ⟨n, hn, hu⟩ := ih
    exact ⟨n, by rw [infiniteNames_cons_of_kind hminus (by decide), hn], hu⟩
  | base b ih => exact ih
  | power b hcaret exponent ihb ihe =>
    obtain ⟨m, hm, hb⟩ := ihb
    obtain ⟨n, hn, hexponent⟩ := ihe
    rw [infiniteNames_cons_of_kind hcaret (by decide)] at hm
    exact ⟨m + n, by omega, congrArg₂ (· + ·) hb hexponent⟩
  | exponential he hcaret _ u ih =>
    obtain ⟨n, hn, hu⟩ := ih
    refine ⟨n, ?_, hu⟩
    rw [infiniteNames_cons_of_isName he, infiniteNames_cons_of_kind hcaret (by decide), hn]
    simp
  | number h => exact ⟨0, by rw [infiniteNames_cons_of_kind h (by decide), Nat.zero_add], rfl⟩
  | var h => exact ⟨_, infiniteNames_cons_of_isName h _, rfl⟩
  | pi h => exact ⟨_, infiniteNames_cons_of_isName h _, rfl⟩
  | euler h => exact ⟨_, infiniteNames_cons_of_isName h _, rfl⟩
  | delimited op hopening u hclosing ih =>
    obtain ⟨n, hn, hu⟩ := ih
    obtain ⟨hname, hopens⟩ := hopening.infiniteNames
    rw [infiniteNames_cons_of_kind hclosing hname] at hn
    exact ⟨n, hopens.trans hn, hu⟩

end Grammar

/-! ### Reading back -/

namespace Expr

variable [One R] [NatCast R] [OfScientific R] [LawfulNumeral R] {v : String} {t : Expr R}

/-- What is read from a text can be written. -/
theorem writable_parse {text : String} (h : (parse v text : Expr R).hasError = false) :
    Writable v (parse v text : Expr R) := by
  obtain ⟨d, hd⟩ := exists_denote h
  rw [hd]
  refine d.writable ?_
  intro t ht hname
  have hlexeme : t.lexeme = v.toList := by
    rw [← hname.2, Token.text, String.toList_ofList]
  rw [← hlexeme]
  refine ⟨isNameText_of_mem_tokensFrom ht hname.1, ?_⟩
  intro c hc
  have hmem : c ∈ (strip text).toList := by
    rw [← flatMap_lexeme_tokensFrom 0 (strip text).toList]
    exact List.mem_flatMap.mpr ⟨t, ht, hc⟩
  rw [toList_strip] at hmem
  simpa using (List.mem_filter.mp hmem).2

/-- The result of differentiating a tree several times. -/
def iteratedDerivative [Mul R] (t : Expr R) : Nat → Except Diagnostic (Expr R)
  | 0 => .ok t
  | n + 1 => (t.iteratedDerivative n).bind derivative

theorem Writable.exists_iteratedDerivative [Mul R] (h : Writable v t) (n : Nat) :
    ∃ d, t.iteratedDerivative n = .ok d ∧ Writable v d := by
  induction n with
  | zero => exact ⟨t, rfl, h⟩
  | succ n ih =>
    obtain ⟨d, hd, hwrite⟩ := ih
    rw [iteratedDerivative, hd]
    exact hwrite.exists_derivative

variable [Neg R]

/-- **A writable tree reads back if and only if its numbers are finite.** -/
theorem Writable.parse_plain_iff (h : Writable v t) : parse v t.plain = t ↔ t.AllFinite := by
  constructor
  · intro hread
    have herror : (parse v t.plain : Expr R).hasError = false := by
      rw [hasError_eq_false_iff, hread, h.errorOffsets]
    obtain ⟨d, hd⟩ := exists_denote herror
    obtain ⟨n, hn, hnamed⟩ := d.infiniteNames_eq (R := R)
    rw [Grammar.infiniteNames, h.cuts_plain.map_piece_tokenize, h.count_spelling] at hn
    have hnamed : t.namedInfinite = n := by rw [← hnamed, ← hd, hread]
    have hnil : Grammar.infiniteNames [] = 0 := rfl
    exact allFinite_of_infiniteCount_eq_zero (by omega)
  · intro hfinite
    have hspells := (h.spellsAt hfinite).expression _ [] h.cuts_plain.map_piece_tokenize
    rw [List.append_nil] at hspells
    obtain ⟨d, hd⟩ := hspells
    rw [parse_eq_denote d, hd]

/-- **What was read, and every derivative of it, reads back.** If a text is read without an error,
all derivatives of its tree exist, and the plain text of each is read as that derivative if and only
if the numbers in it are finite. -/
theorem parse_plain_iteratedDerivative (v text : String) (n : Nat)
    (h : (parse v text : Expr Double).hasError = false) :
    ∃ d, (parse v text : Expr Double).iteratedDerivative n = .ok d ∧
      (parse v d.plain = d ↔ ∀ c : Double, const c ∈ d.nodes → c.isFinite = true) := by
  obtain ⟨d, hd, hwrite⟩ := (writable_parse h).exists_iteratedDerivative n
  exact ⟨d, hd, hwrite.parse_plain_iff⟩

/-- The derivative of a square reads back. -/
theorem parse_plain_derivative_square :
    (parse "x" "x^2" : Expr Double).hasError = false ∧
      ∃ d, (parse "x" "x^2" : Expr Double).iteratedDerivative 1 = .ok d ∧
        d.plain = "2 × x ^ (2 - 1)" ∧ parse "x" d.plain = d := by
  have hstrip : strip "x^2" = "x^2" := by cbv
  have htokens : tokenize (strip "x^2") =
      [⟨.name, 0, ['x']⟩, ⟨.caret, 1, ['^']⟩, ⟨.number, 2, ['2']⟩] := by
    rw [hstrip]
    cbv
  have hfree : ¬ IsReserved "x" := by
    rintro (h | h | ⟨f, h⟩)
    · exact absurd h (by decide)
    · exact absurd h (by decide)
    · cases f <;> exact absurd h (by decide)
  have hdenote : ∀ ts, tokenize (strip "x^2") = ts → ∀ d : Grammar.Derivation "x" .expression ts [],
      (parse "x" "x^2" : Expr Double) = d.denote := by
    rintro _ rfl d
    exact parse_eq_denote d
  have htwo : (Decimal.literalValue ['2'] : Double) = 2 := by
    have hbits : (2 : Double) = ⟨0x4000000000000000⟩ := rfl
    rw [hbits]
    rfl
  have hparse : (parse "x" "x^2" : Expr Double) = .binary .pow (.var "x") (.const 2) := by
    rw [← htwo]
    exact hdenote _ htokens (.expression (.term (.power (.var ⟨rfl, rfl⟩ hfree) rfl
      (.base (.number rfl))) .productsNil) .sumsNil)
  have herror : (parse "x" "x^2" : Expr Double).hasError = false := by
    rw [hparse]
    rfl
  obtain ⟨d, hd, hread⟩ := parse_plain_iteratedDerivative "x" "x^2" 1 herror
  have hsquare : d = .binary .times (.const 2)
      (.binary .pow (.var "x") (group (.binary .minus (.const 2) (.const 1)))) := by
    rw [hparse] at hd
    exact (Except.ok.inj hd).symm
  refine ⟨herror, d, hd, ?_, hread.mpr ?_⟩
  · rw [hsquare]
    decide
  · intro c hc
    rw [hsquare, nodes_eq_postOrder] at hc
    rcases (by simpa [postOrder] using hc : c = 2 ∨ c = 2 ∨ c = 1) with rfl | rfl | rfl <;> decide

end Expr

end Univariate
