import Univariate.Expr.Walk
import Univariate.Proofs.Stuck

/-!
# Reading is deriving

The readers accept exactly the language of the grammar. Started without an error, each of them ends
in one of two ways. Either it has found a derivation of its symbol, returns the tree that the
derivation denotes, and stops where the symbol ends; or it is stuck at the place where the tokens
stop making sense, and leaves one error there. That these exclude each other was shown without any
reader, so a derivation, if there is one, is found.

## How the recursion is cut

All nine readers are mutually recursive, but every way around goes through a factor with fewer
tokens. So the outcome of factors of up to `n` tokens is taken as a hypothesis, `FactorsUpTo`, from
which the outcomes of products, sums and delimited expressions follow one level after the other. The
recursion is closed once, for the factors.

## Main results

* `Parser.outcome_expression`: what reading an expression results in.
* `Expr.parse_iff_language`: the texts that are read without an error, and their trees.
-/

namespace Univariate

namespace Parser

open Grammar

variable {R : Type} [Zero R] [BEq R]

/-! ### One step of each reader -/

/-- A result without the proof that comes with its state. -/
def bare {s : State} (r : Expr R × After s) : Expr R × State :=
  (r.1, r.2.1)

@[simp] theorem bare_widen {s s' : State} (h : s.rest.length ≤ s'.rest.length)
    (r : Expr R × After s) : bare (widen h r) = bare r := rfl

@[simp] theorem bare_apply {s : State} (op : UnaryOp) (r : Expr R × After s) :
    bare (apply op r) = (.unary op (bare r).1, (bare r).2) := rfl

@[simp] theorem bare_fail (scope : Scope) (s : State) :
    bare (fail scope s : Expr R × After s) = (.error (s.offset scope), ⟨[], true⟩) := rfl

theorem bare_close_of_eq (scope : Scope) {closing : TokenKind} {t : Token} (h : t.kind = closing)
    (tree : Expr R) (ts : List Token) (failed : Bool) :
    bare (close scope closing tree ⟨t :: ts, failed⟩) = (tree, ⟨ts, failed⟩) := by
  rw [close, if_pos h]
  rfl

theorem bare_close_of_ne (scope : Scope) {closing : TokenKind} {ts : List Token}
    (h : nextKind ts ≠ some closing) (tree : Expr R) :
    bare (close scope closing tree ⟨ts, false⟩) =
      (.error (State.offset scope ⟨ts, false⟩), ⟨[], true⟩) := by
  cases ts with
  | nil => rfl
  | cons t ts =>
    rw [close, if_neg fun ht => h (congrArg some ht)]
    rfl

theorem bare_close_failed (scope : Scope) (closing : TokenKind) (tree : Expr R) :
    bare (close scope closing tree ⟨[], true⟩) = (tree, ⟨[], true⟩) := rfl

theorem sumOp?_eq_some_iff {k : TokenKind} {op : BinaryOp} :
    sumOp? k = some op ↔ SumSign k op := by
  constructor
  · intro h
    cases k <;> simp [sumOp?] at h <;> subst h <;> constructor
  · rintro ⟨⟩ <;> rfl

theorem productOp?_eq_some_iff {k : TokenKind} {op : BinaryOp} :
    productOp? k = some op ↔ ProductSign k op := by
  constructor
  · intro h
    cases k <;> simp [productOp?] at h <;> subst h <;> constructor
  · rintro ⟨⟩ <;> rfl

variable [One R] [Numeral R] [OfScientific R] (scope : Scope)

theorem bare_expression (s : State) :
    bare (expression scope s : Expr R × After s) =
      bare (sums scope (bare (term scope s : Expr R × After s)).1
        (bare (term scope s : Expr R × After s)).2) := by
  rw [expression]
  rfl

theorem bare_term (s : State) :
    bare (term scope s : Expr R × After s) =
      bare (products scope (bare (factor scope s : Expr R × After s)).1
        (bare (factor scope s : Expr R × After s)).2) := by
  rw [term]
  rfl

theorem bare_sums_nil (left : Expr R) (failed : Bool) :
    bare (sums scope left ⟨[], failed⟩) = (left, ⟨[], failed⟩) := by
  rw [sums]
  rfl

theorem bare_sums_cons (left : Expr R) {t : Token} {op : BinaryOp} (h : SumSign t.kind op)
    (ts : List Token) (failed : Bool) :
    bare (sums scope left ⟨t :: ts, failed⟩) =
      bare (sums scope (.binary op left (bare (term scope ⟨ts, failed⟩)).1)
        (bare (term scope ⟨ts, failed⟩ : Expr R × After ⟨ts, failed⟩)).2) := by
  rw [sums]
  split
  · next hnone => rw [sumOp?_eq_some_iff.mpr h] at hnone; contradiction
  · next op' hsome =>
    obtain rfl := h.unique (sumOp?_eq_some_iff.mp hsome)
    rfl

theorem bare_sums_of_not_sign (left : Expr R) {ts : List Token}
    (h : ∀ k op, nextKind ts = some k → ¬ SumSign k op) (failed : Bool) :
    bare (sums scope left ⟨ts, failed⟩) = (left, ⟨ts, failed⟩) := by
  cases ts with
  | nil => exact bare_sums_nil scope left failed
  | cons t ts =>
    rw [sums]
    split
    · rfl
    · next op hsome => exact (h _ op rfl (sumOp?_eq_some_iff.mp hsome)).elim

theorem bare_products_nil (left : Expr R) (failed : Bool) :
    bare (products scope left ⟨[], failed⟩) = (left, ⟨[], failed⟩) := by
  rw [products]
  rfl

theorem bare_products_cons (left : Expr R) {t : Token} {op : BinaryOp} (h : ProductSign t.kind op)
    (ts : List Token) (failed : Bool) :
    bare (products scope left ⟨t :: ts, failed⟩) =
      bare (products scope (.binary op left (bare (factor scope ⟨ts, failed⟩)).1)
        (bare (factor scope ⟨ts, failed⟩ : Expr R × After ⟨ts, failed⟩)).2) := by
  rw [products]
  split
  · next hnone => rw [productOp?_eq_some_iff.mpr h] at hnone; contradiction
  · next op' hsome =>
    obtain rfl := h.unique (productOp?_eq_some_iff.mp hsome)
    rfl

theorem bare_products_of_not_sign (left : Expr R) {ts : List Token}
    (h : ∀ k op, nextKind ts = some k → ¬ ProductSign k op) (failed : Bool) :
    bare (products scope left ⟨ts, failed⟩) = (left, ⟨ts, failed⟩) := by
  cases ts with
  | nil => exact bare_products_nil scope left failed
  | cons t ts =>
    rw [products]
    split
    · rfl
    · next op hsome => exact (h _ op rfl (productOp?_eq_some_iff.mp hsome)).elim

theorem bare_factor_nil (failed : Bool) :
    bare (factor scope ⟨[], failed⟩ : Expr R × After _) =
      (.error (State.offset scope ⟨[], failed⟩), ⟨[], true⟩) := by
  rw [factor]
  rfl

theorem bare_factor_minus {t : Token} (h : t.kind = .minus) (ts : List Token) (failed : Bool) :
    bare (factor scope ⟨t :: ts, failed⟩ : Expr R × After _) =
      (.unary .negate (bare (factor scope ⟨ts, failed⟩ : Expr R × After _)).1,
        (bare (factor scope ⟨ts, failed⟩ : Expr R × After _)).2) := by
  rw [factor, if_pos h]
  rfl

theorem bare_factor_primary {t : Token} (h : t.kind ≠ .minus) (ts : List Token) (failed : Bool) :
    bare (factor scope ⟨t :: ts, failed⟩ : Expr R × After _) =
      bare (power scope (bare (primary scope t ts failed : Expr R × After _)).1
        (bare (primary scope t ts failed : Expr R × After _)).2) := by
  rw [factor, if_neg h]
  rfl

theorem bare_power_caret (base : Expr R) {c : Token} (h : c.kind = .caret) (ts : List Token)
    (failed : Bool) :
    bare (power scope base ⟨c :: ts, failed⟩) =
      (.binary .pow base (bare (factor scope ⟨ts, failed⟩ : Expr R × After _)).1,
        (bare (factor scope ⟨ts, failed⟩ : Expr R × After _)).2) := by
  rw [power, if_pos h]
  rfl

theorem bare_power_of_ne (base : Expr R) {ts : List Token} (h : nextKind ts ≠ some .caret)
    (failed : Bool) : bare (power scope base ⟨ts, failed⟩) = (base, ⟨ts, failed⟩) := by
  cases ts with
  | nil =>
    rw [power]
    rfl
  | cons t ts =>
    rw [power, if_neg fun ht => h (congrArg some ht)]
    rfl

theorem bare_delimited (op : UnaryOp) (closing : TokenKind) (t : Token) (ts : List Token)
    (failed : Bool) :
    bare (delimited scope op closing t ts failed : Expr R × After _) =
      bare (close scope closing
        (.unary op (bare (expression scope ⟨ts, failed⟩ : Expr R × After _)).1)
        (bare (expression scope ⟨ts, failed⟩ : Expr R × After _)).2) := by
  rw [delimited]
  rfl

theorem bare_exponential_of_ne {ts : List Token} (h : nextKind ts ≠ some .caret) (failed : Bool) :
    bare (exponential scope ⟨ts, failed⟩ : Expr R × After _) =
      (.unary .exp (.const 1), ⟨ts, failed⟩) := by
  cases ts with
  | nil =>
    rw [exponential]
    rfl
  | cons t ts =>
    have ht : t.kind ≠ .caret := fun ht => h (congrArg some ht)
    rw [exponential.eq_def]
    simp only [ht, if_false]
    rfl

theorem bare_exponential_paren {c t : Token} (hc : c.kind = .caret) (h : t.kind = .openParen)
    (ts : List Token) (failed : Bool) :
    bare (exponential scope ⟨c :: t :: ts, failed⟩ : Expr R × After _) =
      bare (delimited scope .exp .closeParen t ts failed : Expr R × After _) := by
  rw [exponential.eq_def]
  simp only [hc, h, if_true]
  rfl

theorem bare_exponential_factor {c : Token} {ts : List Token} (hc : c.kind = .caret)
    (h : nextKind ts ≠ some .openParen) (failed : Bool) :
    bare (exponential scope ⟨c :: ts, failed⟩ : Expr R × After _) =
      (.unary .exp (bare (factor scope ⟨ts, failed⟩ : Expr R × After _)).1,
        (bare (factor scope ⟨ts, failed⟩ : Expr R × After _)).2) := by
  cases ts with
  | nil =>
    rw [exponential.eq_def]
    simp only [hc, if_true]
    rfl
  | cons t ts =>
    have ht : t.kind ≠ .openParen := fun ht => h (congrArg some ht)
    rw [exponential.eq_def]
    simp only [hc, ht, if_true, if_false]
    rfl

/-- A primary that opens an expression is that expression and what closes it. -/
theorem bare_primary_opening {t : Token} {ts ys : List Token} {closing : TokenKind} {op : UnaryOp}
    (h : Opening (t :: ts) ys closing op) (failed : Bool) :
    bare (primary scope t ts failed : Expr R × After _) =
      bare (close scope closing
        (.unary op (bare (expression scope ⟨ys, failed⟩ : Expr R × After _)).1)
        (bare (expression scope ⟨ys, failed⟩ : Expr R × After _)).2) := by
  cases h with
  | paren h =>
    rw [primary.eq_def]
    split <;> simp_all [bare_delimited]
  | bar h =>
    rw [primary.eq_def]
    split <;> simp_all [bare_delimited]
  | @call t t' xs f h h' =>
    rw [primary.eq_def]
    split <;> simp_all [bare_delimited, Token.IsName]
  | @exp t c t' xs h hc h' =>
    have hnone : Func.ofName? t.text = none := by rw [h.2]; rfl
    rw [primary.eq_def]
    split <;> simp_all [Token.IsName, bare_exponential_paren, bare_delimited]

theorem bare_primary_number {t : Token} (h : t.kind = .number) (ts : List Token) (failed : Bool) :
    bare (primary scope t ts failed : Expr R × After _) =
      (.const (Decimal.literalValue t.lexeme), ⟨ts, failed⟩) := by
  rw [primary.eq_def]
  split <;> simp_all
  rfl

theorem bare_primary_pi {t : Token} (h : t.IsName "pi") (ts : List Token) (failed : Bool) :
    bare (primary scope t ts failed : Expr R × After _) = (.const Numeral.pi, ⟨ts, failed⟩) := by
  have hnone : Func.ofName? t.text = none := by rw [h.2]; rfl
  rw [primary.eq_def]
  split <;> simp_all [Token.IsName]
  rfl

theorem bare_primary_e {t : Token} (h : t.IsName "e") (ts : List Token) (failed : Bool) :
    bare (primary scope t ts failed : Expr R × After _) =
      bare (exponential scope ⟨ts, failed⟩ : Expr R × After _) := by
  have hnone : Func.ofName? t.text = none := by rw [h.2]; rfl
  rw [primary.eq_def]
  split <;> simp_all [Token.IsName]

theorem bare_primary_var {t : Token} (h : t.IsName scope.name) (hfree : ¬ IsReserved scope.name)
    (ts : List Token) (failed : Bool) :
    bare (primary scope t ts failed : Expr R × After _) = (.var scope.name, ⟨ts, failed⟩) := by
  have hnone : Func.ofName? t.text = none :=
    Func.ofName?_eq_none_iff.mpr fun f hf => hfree (by rw [← h.2, hf]; exact isReserved_name f)
  have hpi : t.text ≠ "pi" := fun hpi => hfree (by rw [← h.2, hpi]; exact isReserved_pi)
  have he : t.text ≠ "e" := fun he => hfree (by rw [← h.2, he]; exact isReserved_e)
  rw [primary.eq_def]
  split <;> simp_all [Token.IsName]
  rfl

theorem bare_primary_call {t : Token} {f : Func} (h : t.IsName f.name) {ts : List Token}
    (hparen : nextKind ts ≠ some .openParen) (failed : Bool) :
    bare (primary scope t ts failed : Expr R × After _) =
      (.error (State.offset scope ⟨ts, failed⟩), ⟨[], true⟩) := by
  rw [primary.eq_def]
  cases ts with
  | nil => split <;> simp_all [Token.IsName]
  | cons t' ts => split <;> simp_all [Token.IsName]

theorem bare_primary_of_not_canStart {t : Token} {ts : List Token}
    (h : ¬ CanStart scope.name (t :: ts)) (failed : Bool) :
    bare (primary scope t ts failed : Expr R × After _) =
      (.error (State.offset scope ⟨t :: ts, failed⟩), ⟨[], true⟩) := by
  have hname : t.kind = .name → ¬ IsReserved t.text ∧ t.text ≠ scope.name := by
    intro hk
    constructor
    · exact fun hreserved => h ⟨t, rfl, by simp [hk, hreserved]⟩
    · exact fun hvar => h ⟨t, rfl, by simp [hk, hvar]⟩
  rw [primary.eq_def]
  split
  · next hk => exact (h ⟨t, rfl, by simp [hk]⟩).elim
  · next hk => exact (h ⟨t, rfl, by simp [hk]⟩).elim
  · next hk => exact (h ⟨t, rfl, by simp [hk]⟩).elim
  · next hk =>
    obtain ⟨hfree, hvar⟩ := hname hk
    have hnone : Func.ofName? t.text = none :=
      Func.ofName?_eq_none_iff.mpr fun f hf => hfree (hf ▸ isReserved_name f)
    have hpi : t.text ≠ "pi" := fun hpi => hfree (hpi ▸ isReserved_pi)
    have he : t.text ≠ "e" := fun he => hfree (he ▸ isReserved_e)
    simp [hnone, hpi, he, hvar]
  · rfl

/-! ### What reading results in -/

/-- What has become of reading the symbol `s` from the tokens `xs`: a derivation was found, of whose
tree `build` makes the result, or the reader got stuck and left an error there. -/
inductive Outcome (s : Symbol) (xs : List Token) (build : s.Denotation R → Expr R) :
    Expr R × State → Prop
  | derived {ys} (d : Derivation scope.name s xs ys) : s.EndsBefore ys →
      Outcome s xs build (build d.denote, ⟨ys, false⟩)
  | stuck {p ys tree} : xs = p ++ ys → Stuck scope.name s p ys →
      tree.errorOffsets = [State.offset scope ⟨ys, false⟩] → Outcome s xs build (tree, ⟨[], true⟩)

/-- Every list of up to `n` tokens is read as a factor, or reading it gets stuck. -/
def FactorsUpTo (R : Type) [Zero R] [BEq R] [One R] [Numeral R] [OfScientific R] (n : Nat) : Prop :=
  ∀ xs : List Token, xs.length ≤ n →
    Outcome scope .factor xs id (bare (factor scope ⟨xs, false⟩ : Expr R × After _))

variable {scope} {n : Nat}

theorem outcome_products (hfactor : FactorsUpTo scope R n) {left : Expr R}
    (hleft : left.errorOffsets = []) {xs : List Token} (hends : Symbol.EndsBefore .factor xs)
    (hn : xs.length ≤ n) :
    Outcome scope .products xs (fun chain : Expr R → Expr R => chain left)
      (bare (products scope left ⟨xs, false⟩)) := by
  -- the induction is on the number of tokens, since a factor takes any number of them
  induction hm : xs.length using Nat.strong_induction_on generalizing xs left with
  | _ m ih =>
    by_cases hsign : ∃ k op, nextKind xs = some k ∧ ProductSign k op
    · obtain ⟨k, op, hk, hsign⟩ := hsign
      obtain ⟨t, ts, rfl, rfl⟩ := exists_cons_of_nextKind hk
      rw [List.length_cons] at hm hn
      have hright := hfactor ts (by omega)
      rw [bare_products_cons scope left hsign]
      generalize bare (factor scope ⟨ts, false⟩ : Expr R × After _) = r at hright ⊢
      cases hright with
      | @derived ys d hright =>
        have hlength := d.length_lt (by simp) (by simp)
        have hproduct : (Expr.binary op left (d.denote : Expr R)).errorOffsets = [] := by
          rw [Expr.errorOffsets_binary, hleft, d.errorFree_denote]
          rfl
        have hmore := ih ys.length (by omega) hproduct hright (by omega) rfl
        dsimp only [id]
        generalize bare (products scope (Expr.binary op left (d.denote : Expr R)) _) = r
          at hmore ⊢
        cases hmore with
        | derived more hend => exact .derived (.productsCons op hsign d more) hend
        | @stuck q zs tree hq hstuck htree =>
          subst hq
          obtain ⟨p, rfl, -, -⟩ := d.exists_append
          exact .stuck (by simp) (.productsMore hsign d hstuck) htree
      | @stuck p zs tree hp hstuck htree =>
        subst hp
        rw [bare_products_nil]
        refine .stuck (List.cons_append ..).symm (.productsOperand hsign hstuck) ?_
        rw [Expr.errorOffsets_binary, hleft]
        exact htree
    · have hnone : ∀ k op, nextKind xs = some k → ¬ ProductSign k op :=
        fun k op hk h => hsign ⟨k, op, hk, h⟩
      rw [bare_products_of_not_sign scope left hnone]
      exact .derived .productsNil (hends.products hnone)

theorem outcome_term (hfactor : FactorsUpTo scope R n) {xs : List Token} (hn : xs.length ≤ n) :
    Outcome scope .term xs id (bare (term scope ⟨xs, false⟩ : Expr R × After _)) := by
  have hfirst := hfactor xs hn
  rw [bare_term]
  generalize bare (factor scope ⟨xs, false⟩ : Expr R × After _) = r at hfirst ⊢
  cases hfirst with
  | @derived ys d hends =>
    have hlength := d.length_lt (by simp) (by simp)
    have hmore := outcome_products hfactor d.errorFree_denote hends (by omega)
    dsimp only [id]
    generalize bare (products scope (d.denote : Expr R) _) = r at hmore ⊢
    cases hmore with
    | derived more hend => exact .derived (.term d more) hend
    | @stuck q zs tree hq hstuck htree =>
      subst hq
      obtain ⟨p, rfl, -, -⟩ := d.exists_append
      exact .stuck (List.append_assoc ..).symm (.termMore d hstuck) htree
  | @stuck p zs tree hp hstuck htree =>
    rw [bare_products_nil]
    exact .stuck hp (.termFirst hstuck) htree

theorem outcome_sums (hfactor : FactorsUpTo scope R n) {left : Expr R}
    (hleft : left.errorOffsets = []) {xs : List Token} (hends : Symbol.EndsBefore .term xs)
    (hn : xs.length ≤ n) :
    Outcome scope .sums xs (fun chain : Expr R → Expr R => chain left)
      (bare (sums scope left ⟨xs, false⟩)) := by
  induction hm : xs.length using Nat.strong_induction_on generalizing xs left with
  | _ m ih =>
    by_cases hsign : ∃ k op, nextKind xs = some k ∧ SumSign k op
    · obtain ⟨k, op, hk, hsign⟩ := hsign
      obtain ⟨t, ts, rfl, rfl⟩ := exists_cons_of_nextKind hk
      rw [List.length_cons] at hm hn
      have hright := outcome_term hfactor (show ts.length ≤ n by omega)
      rw [bare_sums_cons scope left hsign]
      generalize bare (term scope ⟨ts, false⟩ : Expr R × After _) = r at hright ⊢
      cases hright with
      | @derived ys d hright =>
        have hlength := d.length_lt (by simp) (by simp)
        have hsum : (Expr.binary op left (d.denote : Expr R)).errorOffsets = [] := by
          rw [Expr.errorOffsets_binary, hleft, d.errorFree_denote]
          rfl
        have hmore := ih ys.length (by omega) hsum hright (by omega) rfl
        dsimp only [id]
        generalize bare (sums scope (Expr.binary op left (d.denote : Expr R)) _) = r at hmore ⊢
        cases hmore with
        | derived more hend => exact .derived (.sumsCons op hsign d more) hend
        | @stuck q zs tree hq hstuck htree =>
          subst hq
          obtain ⟨p, rfl, -, -⟩ := d.exists_append
          exact .stuck (by simp) (.sumsMore hsign d hstuck) htree
      | @stuck p zs tree hp hstuck htree =>
        subst hp
        rw [bare_sums_nil]
        refine .stuck (List.cons_append ..).symm (.sumsOperand hsign hstuck) ?_
        rw [Expr.errorOffsets_binary, hleft]
        exact htree
    · have hnone : ∀ k op, nextKind xs = some k → ¬ SumSign k op :=
        fun k op hk h => hsign ⟨k, op, hk, h⟩
      rw [bare_sums_of_not_sign scope left hnone]
      exact .derived .sumsNil (hends.sums hnone)

theorem outcome_expression_of_factors (hfactor : FactorsUpTo scope R n) {xs : List Token}
    (hn : xs.length ≤ n) :
    Outcome scope .expression xs id (bare (expression scope ⟨xs, false⟩ : Expr R × After _)) := by
  have hfirst := outcome_term hfactor hn
  rw [bare_expression]
  generalize bare (term scope ⟨xs, false⟩ : Expr R × After _) = r at hfirst ⊢
  cases hfirst with
  | @derived ys d hends =>
    have hlength := d.length_lt (by simp) (by simp)
    have hmore := outcome_sums hfactor d.errorFree_denote hends (by omega)
    dsimp only [id]
    generalize bare (sums scope (d.denote : Expr R) _) = r at hmore ⊢
    cases hmore with
    | derived more hend => exact .derived (.expression d more) hend
    | @stuck q zs tree hq hstuck htree =>
      subst hq
      obtain ⟨p, rfl, -, -⟩ := d.exists_append
      exact .stuck (List.append_assoc ..).symm (.expressionMore d hstuck) htree
  | @stuck p zs tree hp hstuck htree =>
    rw [bare_sums_nil]
    exact .stuck hp (.expressionFirst hstuck) htree

/-- What has become of reading a primary that opens an expression: the primary, or the reader got
stuck. -/
theorem outcome_opening (hfactor : FactorsUpTo scope R n) {t : Token} {ts ys : List Token}
    {closing : TokenKind} {op : UnaryOp} (hopening : Opening (t :: ts) ys closing op)
    (hn : ts.length ≤ n) :
    (∃ zs, ∃ d : Derivation scope.name .primary (t :: ts) zs,
      bare (primary scope t ts false : Expr R × After _) = (d.denote, ⟨zs, false⟩)) ∨
    Outcome scope .factor (t :: ts) id (bare (primary scope t ts false : Expr R × After _)) := by
  obtain ⟨p, hp, happend, -⟩ := hopening.exists_append
  have hlength : ys.length ≤ n := by
    have := congrArg List.length happend
    have := List.length_pos_iff.mpr hp
    simp only [List.length_cons, List.length_append] at *
    omega
  have hopens : Opening (p ++ ys) ys closing op := happend ▸ hopening
  have hinner := outcome_expression_of_factors hfactor hlength
  rw [bare_primary_opening scope hopening]
  generalize bare (expression scope ⟨ys, false⟩ : Expr R × After _) = r at hinner ⊢
  cases hinner with
  | @derived zs d hends =>
    by_cases hclosing : nextKind zs = some closing
    · obtain ⟨t', zs, rfl, ht'⟩ := exists_cons_of_nextKind hclosing
      rw [bare_close_of_eq scope ht']
      exact .inl ⟨zs, .delimited op hopening d ht', rfl⟩
    · rw [bare_close_of_ne scope hclosing, happend]
      obtain ⟨q, rfl, -, -⟩ := d.exists_append
      exact .inr (.stuck (List.append_assoc ..).symm (.unclosed hopens d hends hclosing) rfl)
  | @stuck q zs tree hq hstuck htree =>
    subst hq
    rw [bare_close_failed, happend]
    refine .inr (.stuck (List.append_assoc ..).symm (.inner hopens hstuck) ?_)
    exact (Expr.errorOffsets_unary _ _).trans htree

/-- What has become of reading an `e` that does not open an expression. -/
theorem outcome_e (hfactor : FactorsUpTo scope R n) {t : Token} (he : t.IsName "e")
    {ts : List Token} (hopening : ¬ ∃ ys closing op, Opening (t :: ts) ys closing op)
    (hn : ts.length ≤ n) :
    (∃ zs, ∃ d : Derivation scope.name .primary (t :: ts) zs,
      bare (primary scope t ts false : Expr R × After _) = (d.denote, ⟨zs, false⟩)) ∨
    Outcome scope .factor (t :: ts) id (bare (primary scope t ts false : Expr R × After _)) := by
  rw [bare_primary_e scope he]
  by_cases hcaret : nextKind ts = some .caret
  · obtain ⟨c, us, rfl, hc⟩ := exists_cons_of_nextKind hcaret
    have hparen : nextKind us ≠ some .openParen := by
      intro hparen
      obtain ⟨t', us, rfl, ht⟩ := exists_cons_of_nextKind hparen
      exact hopening ⟨us, _, _, .exp he hc ht⟩
    have hexponent := hfactor us (by rw [List.length_cons] at hn; omega)
    rw [bare_exponential_factor scope hc hparen]
    generalize bare (factor scope ⟨us, false⟩ : Expr R × After _) = r at hexponent ⊢
    cases hexponent with
    | derived d hends => exact .inr (.derived (.exponential he hc hparen d) hends)
    | @stuck p ys tree hp hstuck htree =>
      subst hp
      refine .inr (.stuck (p := t :: c :: p) rfl (.exponential he hc hparen hstuck) ?_)
      exact (Expr.errorOffsets_unary _ _).trans htree
  · rw [bare_exponential_of_ne scope hcaret]
    exact .inl ⟨ts, .euler he hcaret, rfl⟩

/-- What has become of reading any primary: a primary, or what is to be said of the factor. -/
theorem outcome_primary (hfactor : FactorsUpTo scope R n) {t : Token} (hminus : t.kind ≠ .minus)
    {ts : List Token} (hn : ts.length ≤ n) :
    (∃ zs, ∃ d : Derivation scope.name .primary (t :: ts) zs,
      bare (primary scope t ts false : Expr R × After _) = (d.denote, ⟨zs, false⟩)) ∨
    Outcome scope .factor (t :: ts) id (bare (primary scope t ts false : Expr R × After _)) := by
  by_cases hopening : ∃ ys closing op, Opening (t :: ts) ys closing op
  · obtain ⟨ys, closing, op, hopening⟩ := hopening
    exact outcome_opening hfactor hopening hn
  by_cases hstart : CanStart scope.name (t :: ts)
  · obtain ⟨t', ht', hkind⟩ := hstart
    obtain rfl : t = t' := Option.some.inj ht'
    rcases hkind with h | h | h | h | ⟨hk, h⟩
    · contradiction
    · exact .inl ⟨ts, .number h, bare_primary_number scope h ts false⟩
    · exact absurd ⟨_, _, _, .paren h⟩ hopening
    · exact absurd ⟨_, _, _, .bar h⟩ hopening
    · by_cases hvar : t.text = scope.name ∧ ¬ IsReserved scope.name
      · have hname : t.IsName scope.name := ⟨hk, hvar.1⟩
        exact .inl ⟨ts, .var hname hvar.2, bare_primary_var scope hname hvar.2 ts false⟩
      have hreserved : IsReserved t.text := by
        rcases h with h | h
        · exact h
        · exact Classical.byContradiction fun hfree => hvar ⟨h, h ▸ hfree⟩
      obtain hpi | he | ⟨f, hf⟩ := hreserved
      · exact .inl ⟨ts, .pi ⟨hk, hpi⟩, bare_primary_pi scope ⟨hk, hpi⟩ ts false⟩
      · exact outcome_e hfactor ⟨hk, he⟩ hopening hn
      · have hparen : nextKind ts ≠ some .openParen := by
          intro hparen
          obtain ⟨t', ts, rfl, ht⟩ := exists_cons_of_nextKind hparen
          exact hopening ⟨ts, _, _, .call ⟨hk, hf⟩ ht⟩
        rw [bare_primary_call scope ⟨hk, hf⟩ hparen]
        exact .inr (.stuck (p := [t]) rfl (.call ⟨hk, hf⟩ hparen) rfl)
  · rw [bare_primary_of_not_canStart scope hstart]
    exact .inr (.stuck (p := []) rfl (.nothing hstart) rfl)

/-- A factor that has been read has no exponent behind it. -/
theorem Outcome.power_eq {xs : List Token} {r : Expr R × State}
    (h : Outcome scope .factor xs id r) :
    bare (power scope r.1 r.2) = r := by
  cases h with
  | derived d hends =>
    exact bare_power_of_ne scope _ (fun hcaret => absurd (hends _ hcaret) (by decide)) _
  | stuck => exact bare_power_of_ne scope _ (by simp) _

/-- What has become of reading the exponent behind a primary, if there is one. -/
theorem outcome_power (hfactor : FactorsUpTo scope R n) {xs ys : List Token}
    (d : Derivation scope.name .primary xs ys) (hn : ys.length ≤ n) :
    Outcome scope .factor xs id (bare (power scope (d.denote : Expr R) ⟨ys, false⟩)) := by
  by_cases hcaret : nextKind ys = some .caret
  · obtain ⟨c, ys, rfl, hc⟩ := exists_cons_of_nextKind hcaret
    have hexponent := hfactor ys (by rw [List.length_cons] at hn; omega)
    rw [bare_power_caret scope _ hc]
    generalize bare (factor scope ⟨ys, false⟩ : Expr R × After _) = r at hexponent ⊢
    cases hexponent with
    | derived e hends => exact .derived (.power d hc e) hends
    | @stuck q zs tree hq hstuck htree =>
      subst hq
      obtain ⟨p, rfl, -, -⟩ := d.exists_append
      refine .stuck (List.append_assoc p (c :: q) zs).symm (.exponent d hc hstuck) ?_
      rw [Expr.errorOffsets_binary, d.errorFree_denote]
      exact htree
  · rw [bare_power_of_ne scope _ hcaret]
    refine .derived (.base d) fun k hk => decide_eq_false ?_
    rintro rfl
    exact hcaret hk

/-- **Every factor is read, or reading it gets stuck.** -/
theorem outcome_factor (scope : Scope) (n : Nat) : FactorsUpTo scope R n := by
  induction n with
  | zero =>
    intro xs hn
    obtain rfl := List.length_eq_zero_iff.mp (Nat.le_zero.mp hn)
    rw [bare_factor_nil]
    exact .stuck (p := []) rfl (.nothing (by simp [CanStart])) rfl
  | succ n ih =>
    intro xs hn
    cases xs with
    | nil =>
      rw [bare_factor_nil]
      exact .stuck (p := []) rfl (.nothing (by simp [CanStart])) rfl
    | cons t ts =>
      have hn : ts.length ≤ n := by simpa using hn
      by_cases hminus : t.kind = .minus
      · have hoperand := ih ts hn
        rw [bare_factor_minus scope hminus]
        generalize bare (factor scope ⟨ts, false⟩ : Expr R × After _) = r at hoperand ⊢
        cases hoperand with
        | derived d hends => exact .derived (.negation hminus d) hends
        | @stuck p ys tree hp hstuck htree =>
          subst hp
          refine .stuck (p := t :: p) rfl (.negation hminus hstuck) ?_
          exact (Expr.errorOffsets_unary _ _).trans htree
      · rw [bare_factor_primary scope hminus]
        obtain ⟨ys, d, heq⟩ | hfactor := outcome_primary ih hminus hn
        · have hlength := d.length_lt (by simp) (by simp)
          rw [List.length_cons] at hlength
          rw [heq]
          exact outcome_power ih d (by omega)
        · rw [hfactor.power_eq]
          exact hfactor

/-- **Every expression is read, or reading it gets stuck.** -/
theorem outcome_expression (scope : Scope) (xs : List Token) :
    Outcome scope .expression xs id (bare (expression scope ⟨xs, false⟩ : Expr R × After _)) :=
  outcome_expression_of_factors (outcome_factor scope xs.length) (Nat.le_refl _)

/-! ### What reading a whole text results in -/

/-- **Every text is read, or refused.** A text that is refused leaves one error, at the place where
it stops making sense. -/
theorem full_cases (scope : Scope) (xs : List Token) :
    (∃ d : Derivation scope.name .expression xs [],
      (full scope ⟨xs, false⟩ : Expr R × After _).1 = d.denote) ∨
    ∃ p ys, xs = p ++ ys ∧ Refused scope.name p ys ∧
      (full scope ⟨xs, false⟩ : Expr R × After _).1.errorOffsets =
        [State.offset scope ⟨ys, false⟩] := by
  have houtcome := outcome_expression (R := R) scope xs
  rw [full]
  generalize (expression scope ⟨xs, false⟩ : Expr R × After _) = r at houtcome ⊢
  obtain ⟨tree, ⟨rest, failed⟩, hafter⟩ := r
  dsimp only [bare] at houtcome
  cases houtcome with
  | derived d hends =>
    cases rest with
    | nil => exact .inl ⟨d, rfl⟩
    | cons t ts =>
      obtain ⟨p, rfl, -, -⟩ := d.exists_append
      exact .inr ⟨p, t :: ts, rfl, .behind d hends (by simp), rfl⟩
  | stuck hp hstuck htree => exact .inr ⟨_, _, hp, .inside hstuck, htree⟩

end Parser

/-! ### Texts -/

variable {R : Type} [Zero R] [BEq R] [One R] [Numeral R] [OfScientific R]

/-- The same for a text whose blanks are removed first. -/
theorem Expr.parse_cases (v text : String) :
    (∃ d : Grammar.Derivation v .expression (tokenize (Text.strip text)) [],
      (parse v text : Expr R) = d.denote) ∨
    ∃ p ys, tokenize (Text.strip text) = p ++ ys ∧ Grammar.Refused v p ys ∧
      (parse v text : Expr R).errorOffsets =
        [Parser.State.offset (Parser.Scope.ofText v (Text.strip text)) ⟨ys, false⟩] :=
  Parser.full_cases (Parser.Scope.ofText v (Text.strip text)) (tokenize (Text.strip text))

/-- A text that derives from the grammar is read as what the derivation denotes. -/
theorem Expr.parse_eq_denote {v text : String}
    (d : Grammar.Derivation v .expression (tokenize (Text.strip text)) []) :
    (parse v text : Expr R) = d.denote := by
  obtain ⟨d', hd'⟩ | ⟨p, ys, htokens, hrefused, -⟩ := parse_cases (R := R) v text
  · rw [hd', d'.eq_of_nil d]
  · rw [htokens] at d
    exact absurd ⟨d⟩ (hrefused.append_not_mem rfl)

/-- The same for a text whose tokens are known. -/
theorem Expr.parse_eq_denote_of_tokens {v text : String} {ts : List Token}
    (htokens : tokenize (Text.strip text) = ts) (d : Grammar.Derivation v .expression ts []) :
    (parse v text : Expr R) = d.denote := by
  subst htokens
  exact parse_eq_denote d

/-- A text that is read without an error derives from the grammar. -/
theorem Expr.exists_denote {v text : String} (h : (parse v text : Expr R).hasError = false) :
    ∃ d : Grammar.Derivation v .expression (tokenize (Text.strip text)) [],
      (parse v text : Expr R) = d.denote := by
  obtain hd | ⟨p, ys, -, -, herror⟩ := parse_cases (R := R) v text
  · exact hd
  · rw [hasError_eq_false_iff, herror] at h
    contradiction

/-- **The texts that are read, and how.** The tree of a text has no error exactly if the tokens of
the text, with its blanks removed, derive from the grammar. There is then one derivation, and the
tree is the one it denotes. -/
theorem Expr.parse_iff_language (v text : String) :
    ((parse v text : Expr R).hasError = false ↔ tokenize (Text.strip text) ∈ Grammar.language v) ∧
      ∀ d : Grammar.Derivation v .expression (tokenize (Text.strip text)) [],
        (parse v text : Expr R) = d.denote ∧ ∀ d', d' = d := by
  refine ⟨⟨fun h => ?_, fun ⟨d⟩ => ?_⟩, fun d => ⟨parse_eq_denote d, fun d' => d'.eq_of_nil d⟩⟩
  · obtain ⟨d, -⟩ := exists_denote h
    exact ⟨d⟩
  · rw [hasError_eq_false_iff, parse_eq_denote d]
    exact d.errorFree_denote

end Univariate
