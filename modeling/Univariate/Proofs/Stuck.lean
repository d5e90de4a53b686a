import Univariate.Proofs.Grammar

/-!
# Where a text stops making sense

A text that does not derive from the grammar has a first token that cannot be. `Stuck v s p xs` says
that this is where `xs` begins, when the symbol `s` is looked for in `p ++ xs` from the left: the
tokens of `p` still fit, and what comes next does not. The rules name each way in which this can
happen, together with the part of `p` that has been understood by then.

Two things make the place exact, and neither of them mentions a reader. What has been understood can
be completed (`Stuck.viable`), so the place is not too late. And the next token rules out every
continuation (`Stuck.not_derivation`), so it is not too early. The second holds at the end of a text
too, where no token comes next.

## Main definitions

* `CanStart`: whether a factor can start with the first of some tokens.
* `Stuck`: the place, when a symbol is looked for.
* `Refused`: the place, when a whole text is to be an expression.

## Main results

* `Stuck.viable`: the tokens in front of the place are the beginning of something that derives.
* `Stuck.not_derivation`: no tokens that agree up to and including the next one derive.
* `Refused.exists_append_mem`, `Refused.append_not_mem`: the same for whole texts.
-/

namespace Univariate

namespace Grammar

/-! ### The place -/

/-- Whether a factor can start with the first of the tokens. -/
def CanStart (v : String) (ts : List Token) : Prop :=
  ∃ t ∈ ts.head?, t.kind = .minus ∨ t.kind = .number ∨ t.kind = .openParen ∨ t.kind = .bar ∨
    (t.kind = .name ∧ (IsReserved t.text ∨ t.text = v))

/-- `Stuck v s p xs`: the symbol `s` cannot be found in `p ++ xs`, since what `xs` starts with does
not fit behind `p`. -/
inductive Stuck (v : String) : Symbol → List Token → List Token → Prop
  | expressionFirst {p xs} : Stuck v .term p xs → Stuck v .expression p xs
  | expressionMore {p q xs} : Derivation v .term (p ++ (q ++ xs)) (q ++ xs) → Stuck v .sums q xs →
      Stuck v .expression (p ++ q) xs
  | sumsOperand {t op p xs} : SumSign t.kind op → Stuck v .term p xs → Stuck v .sums (t :: p) xs
  | sumsMore {t op p q xs} : SumSign t.kind op → Derivation v .term (p ++ (q ++ xs)) (q ++ xs) →
      Stuck v .sums q xs → Stuck v .sums (t :: (p ++ q)) xs
  | termFirst {p xs} : Stuck v .factor p xs → Stuck v .term p xs
  | termMore {p q xs} : Derivation v .factor (p ++ (q ++ xs)) (q ++ xs) → Stuck v .products q xs →
      Stuck v .term (p ++ q) xs
  | productsOperand {t op p xs} : ProductSign t.kind op → Stuck v .factor p xs →
      Stuck v .products (t :: p) xs
  | productsMore {t op p q xs} : ProductSign t.kind op →
      Derivation v .factor (p ++ (q ++ xs)) (q ++ xs) → Stuck v .products q xs →
      Stuck v .products (t :: (p ++ q)) xs
  | nothing {xs} : ¬ CanStart v xs → Stuck v .factor [] xs
  | negation {t p xs} : t.kind = .minus → Stuck v .factor p xs → Stuck v .factor (t :: p) xs
  | exponent {c p q xs} : Derivation v .primary (p ++ c :: (q ++ xs)) (c :: (q ++ xs)) →
      c.kind = .caret → Stuck v .factor q xs → Stuck v .factor (p ++ c :: q) xs
  | exponential {t c p xs} : t.IsName "e" → c.kind = .caret → nextKind (p ++ xs) ≠ some .openParen →
      Stuck v .factor p xs → Stuck v .factor (t :: c :: p) xs
  | call {t xs} {f : Func} : t.IsName f.name → nextKind xs ≠ some .openParen →
      Stuck v .factor [t] xs
  | inner {p q xs closing op} : Opening (p ++ (q ++ xs)) (q ++ xs) closing op →
      Stuck v .expression q xs → Stuck v .factor (p ++ q) xs
  | unclosed {p q xs closing op} : Opening (p ++ (q ++ xs)) (q ++ xs) closing op →
      Derivation v .expression (q ++ xs) xs → Symbol.EndsBefore .expression xs →
      nextKind xs ≠ some closing → Stuck v .factor (p ++ q) xs

/-! ### Moving to other tokens -/

variable {v : String} {s : Symbol} {p : List Token}

/-- A derivation stays one in front of other tokens that start with the same kind of token. -/
theorem Derivation.move {ys : List Token} (d : Derivation v s (p ++ ys) ys) (zs : List Token)
    (h : nextKind zs = some .caret → nextKind ys = some .caret) :
    Nonempty (Derivation v s (p ++ zs) zs) := by
  obtain ⟨q, hq, -, hmove⟩ := d.exists_append
  rw [List.append_cancel_right hq]
  exact hmove zs h

theorem Opening.move {ys : List Token} {closing : TokenKind} {op : UnaryOp}
    (h : Opening (p ++ ys) ys closing op) (zs : List Token) : Opening (p ++ zs) zs closing op := by
  obtain ⟨q, -, hq, hmove⟩ := h.exists_append
  rw [List.append_cancel_right hq]
  exact hmove zs

theorem Opening.closing_ne_caret {xs ys : List Token} {closing : TokenKind} {op : UnaryOp}
    (h : Opening xs ys closing op) : closing ≠ .caret := by
  cases h <;> decide

theorem nextKind_congr {ys zs : List Token} (h : zs.head? = ys.head?) : nextKind zs = nextKind ys :=
  congrArg (Option.map Token.kind) h

theorem head?_append_congr {ys zs : List Token} (h : zs.head? = ys.head?) (p : List Token) :
    (p ++ zs).head? = (p ++ ys).head? := by
  cases p with
  | nil => exact h
  | cons t p => rfl

theorem Symbol.EndsBefore.congr {ys zs : List Token} (h : s.EndsBefore ys)
    (hhead : zs.head? = ys.head?) : s.EndsBefore zs := by
  intro k hk
  exact h k ((nextKind_congr hhead).symm.trans hk)

/-! ### The place is not too late -/

/-- A token by which a text can be completed. -/
def filler (kind : TokenKind) (lexeme : String) : Token :=
  ⟨kind, 0, lexeme.toList⟩

/-- The number one, as a token. -/
def fillerOne : Token := filler .number "1"

/-- A closing delimiter, as a token. -/
def fillerClosing (closing : TokenKind) : Token :=
  filler closing (if closing = .bar then "|" else ")")

/-- An expression that consists of the number one. -/
def Derivation.one {ys : List Token} : Derivation v .expression (fillerOne :: ys) ys :=
  .expression (.term (.base (.number rfl)) .productsNil) .sumsNil

/-- A chain of terms gets stuck behind its first sign at the earliest. -/
theorem Stuck.exists_sumSign {xs : List Token} (h : Stuck v .sums p xs) :
    ∃ t q op, p = t :: q ∧ SumSign t.kind op := by
  cases h with
  | sumsOperand hsign => exact ⟨_, _, _, rfl, hsign⟩
  | sumsMore hsign => exact ⟨_, _, _, rfl, hsign⟩

/-- A chain of factors gets stuck behind its first sign at the earliest. -/
theorem Stuck.exists_productSign {xs : List Token} (h : Stuck v .products p xs) :
    ∃ t q op, p = t :: q ∧ ProductSign t.kind op := by
  cases h with
  | productsOperand hsign => exact ⟨_, _, _, rfl, hsign⟩
  | productsMore hsign => exact ⟨_, _, _, rfl, hsign⟩

/-- A term in front of a chain that gets stuck may stand in front of any tokens behind that part of
the chain. -/
theorem Derivation.move_sums {q xs : List Token} (d : Derivation v .term (p ++ (q ++ xs)) (q ++ xs))
    (h : Stuck v .sums q xs) (ys : List Token) :
    Nonempty (Derivation v .term (p ++ (q ++ ys)) (q ++ ys)) := by
  obtain ⟨t, q, op, rfl, -⟩ := h.exists_sumSign
  exact d.move _ id

theorem Derivation.move_products {q xs : List Token}
    (d : Derivation v .factor (p ++ (q ++ xs)) (q ++ xs)) (h : Stuck v .products q xs)
    (ys : List Token) : Nonempty (Derivation v .factor (p ++ (q ++ ys)) (q ++ ys)) := by
  obtain ⟨t, q, op, rfl, -⟩ := h.exists_productSign
  exact d.move _ id

theorem Stuck.endsBefore_term {xs : List Token} (h : Stuck v .sums p xs) (ys : List Token) :
    Symbol.EndsBefore .term (p ++ ys) := by
  obtain ⟨t, q, op, rfl, hsign⟩ := h.exists_sumSign
  exact Symbol.endsBefore_cons.mpr hsign.goesOn.2

theorem Stuck.endsBefore_factor {xs : List Token} (h : Stuck v .products p xs) (ys : List Token) :
    Symbol.EndsBefore .factor (p ++ ys) := by
  obtain ⟨t, q, op, rfl, hsign⟩ := h.exists_productSign
  exact Symbol.endsBefore_cons.mpr hsign.goesOn.2

/-- **The place is not too late.** What has been understood can be completed, whatever stands behind
it that ends the symbol. Where nothing has been understood yet, a number will do. -/
theorem Stuck.viable {xs : List Token} (h : Stuck v s p xs) :
    ∃ more : List Token, (p = [] → nextKind more = some .number) ∧
      ∀ zs, s.EndsBefore zs → Nonempty (Derivation v s (p ++ (more ++ zs)) zs) := by
  induction h with
  | expressionFirst _ ih =>
    obtain ⟨more, hstart, hmore⟩ := ih
    refine ⟨more, hstart, ?_⟩
    intro zs hzs
    obtain ⟨d⟩ := hmore zs hzs.term
    exact ⟨.expression d .sumsNil⟩
  | @expressionMore p q xs first hstuck ih =>
    obtain ⟨more, hstart, hmore⟩ := ih
    refine ⟨more, fun hnil => hstart (List.append_eq_nil_iff.mp hnil).2, ?_⟩
    intro zs hzs
    obtain ⟨d₁⟩ := first.move_sums hstuck (more ++ zs)
    obtain ⟨d₂⟩ := hmore zs hzs
    exact ⟨by rw [List.append_assoc]; exact .expression d₁ d₂⟩
  | @sumsOperand t op p xs hsign _ ih =>
    obtain ⟨more, -, hmore⟩ := ih
    refine ⟨more, by simp, ?_⟩
    intro zs hzs
    obtain ⟨d⟩ := hmore zs hzs.term
    exact ⟨.sumsCons op hsign d .sumsNil⟩
  | @sumsMore t op p q xs hsign right hstuck ih =>
    obtain ⟨more, -, hmore⟩ := ih
    refine ⟨more, by simp, ?_⟩
    intro zs hzs
    obtain ⟨d₁⟩ := right.move_sums hstuck (more ++ zs)
    obtain ⟨d₂⟩ := hmore zs hzs
    exact ⟨by rw [List.cons_append, List.append_assoc]; exact .sumsCons op hsign d₁ d₂⟩
  | termFirst _ ih =>
    obtain ⟨more, hstart, hmore⟩ := ih
    refine ⟨more, hstart, ?_⟩
    intro zs hzs
    obtain ⟨d⟩ := hmore zs hzs.factor
    exact ⟨.term d .productsNil⟩
  | @termMore p q xs first hstuck ih =>
    obtain ⟨more, hstart, hmore⟩ := ih
    refine ⟨more, fun hnil => hstart (List.append_eq_nil_iff.mp hnil).2, ?_⟩
    intro zs hzs
    obtain ⟨d₁⟩ := first.move_products hstuck (more ++ zs)
    obtain ⟨d₂⟩ := hmore zs hzs
    exact ⟨by rw [List.append_assoc]; exact .term d₁ d₂⟩
  | @productsOperand t op p xs hsign _ ih =>
    obtain ⟨more, -, hmore⟩ := ih
    refine ⟨more, by simp, ?_⟩
    intro zs hzs
    obtain ⟨d⟩ := hmore zs hzs.factor
    exact ⟨.productsCons op hsign d .productsNil⟩
  | @productsMore t op p q xs hsign right hstuck ih =>
    obtain ⟨more, -, hmore⟩ := ih
    refine ⟨more, by simp, ?_⟩
    intro zs hzs
    obtain ⟨d₁⟩ := right.move_products hstuck (more ++ zs)
    obtain ⟨d₂⟩ := hmore zs hzs
    exact ⟨by rw [List.cons_append, List.append_assoc]; exact .productsCons op hsign d₁ d₂⟩
  | nothing => exact ⟨[fillerOne], fun _ => rfl, fun zs _ => ⟨.base (.number rfl)⟩⟩
  | negation hminus _ ih =>
    obtain ⟨more, -, hmore⟩ := ih
    refine ⟨more, by simp, ?_⟩
    intro zs hzs
    obtain ⟨d⟩ := hmore zs hzs
    exact ⟨.negation hminus d⟩
  | @exponent c p q xs b hcaret _ ih =>
    obtain ⟨more, -, hmore⟩ := ih
    refine ⟨more, by simp, ?_⟩
    intro zs hzs
    obtain ⟨d₁⟩ := b.move (c :: (q ++ (more ++ zs))) id
    obtain ⟨d₂⟩ := hmore zs hzs
    exact ⟨by rw [List.append_assoc]; exact .power d₁ hcaret d₂⟩
  | @exponential t c p xs he hcaret hparen _ ih =>
    obtain ⟨more, hstart, hmore⟩ := ih
    refine ⟨more, by simp, ?_⟩
    intro zs hzs
    obtain ⟨d⟩ := hmore zs hzs
    refine ⟨.exponential he hcaret ?_ d⟩
    cases p with
    | nil =>
      -- the number that completes the exponent is not a parenthesis
      obtain ⟨t', more, rfl, hnumber⟩ := exists_cons_of_nextKind (hstart rfl)
      simp_all
    | cons t' p => exact hparen
  | @call t xs f hf _ =>
    refine ⟨[filler .openParen "(", fillerOne, fillerClosing .closeParen], by simp, ?_⟩
    intro zs _
    exact ⟨.base (.delimited (.call f) (.call hf rfl) .one rfl)⟩
  | @inner p q xs closing op hopening _ ih =>
    obtain ⟨more, hstart, hmore⟩ := ih
    refine ⟨more ++ [fillerClosing closing], ?_, ?_⟩
    · intro hnil
      have hnumber := hstart (List.append_eq_nil_iff.mp hnil).2
      obtain ⟨t, more, rfl, -⟩ := exists_cons_of_nextKind hnumber
      exact hnumber
    · intro zs _
      obtain ⟨d⟩ := hmore (fillerClosing closing :: zs) (hopening.endsBefore rfl)
      have hopens := hopening.move (q ++ (more ++ fillerClosing closing :: zs))
      exact ⟨.base (by simpa using Derivation.delimited op hopens d rfl)⟩
  | @unclosed p q xs closing op hopening u _ _ =>
    refine ⟨[fillerClosing closing], ?_, ?_⟩
    · intro hnil
      obtain ⟨p', hp', hcancel, -⟩ := hopening.exists_append
      rw [(List.append_eq_nil_iff.mp hnil).1] at hcancel
      exact absurd (List.append_cancel_right hcancel).symm hp'
    · intro zs _
      have hclosing : nextKind (fillerClosing closing :: zs) ≠ some .caret := by
        simpa [fillerClosing, filler] using hopening.closing_ne_caret
      obtain ⟨d⟩ := u.move _ fun hcaret => absurd hcaret hclosing
      have hopens := hopening.move (q ++ (fillerClosing closing :: zs))
      exact ⟨.base (by simpa using Derivation.delimited op hopens d rfl)⟩

/-! ### The place is not too early -/

theorem CanStart.congr {xs ys : List Token} (h : CanStart v xs) (hhead : ys.head? = xs.head?) :
    CanStart v ys := by
  rw [CanStart, hhead]
  exact h

theorem Opening.canStart {xs ys : List Token} {closing : TokenKind} {op : UnaryOp}
    (h : Opening xs ys closing op) : CanStart v xs := by
  cases h with
  | paren h => exact ⟨_, rfl, by simp [h]⟩
  | bar h => exact ⟨_, rfl, by simp [h]⟩
  | call h => exact ⟨_, rfl, by simp [h.1, h.2, isReserved_name]⟩
  | exp h => exact ⟨_, rfl, by simp [h.1, h.2, isReserved_e]⟩

theorem Derivation.canStart_primary {xs ys : List Token} (d : Derivation v .primary xs ys) :
    CanStart v xs := by
  cases d with
  | number h => exact ⟨_, rfl, by simp [h]⟩
  | var h => exact ⟨_, rfl, by simp [h.1, h.2]⟩
  | pi h => exact ⟨_, rfl, by simp [h.1, h.2, isReserved_pi]⟩
  | euler h => exact ⟨_, rfl, by simp [h.1, h.2, isReserved_e]⟩
  | delimited op hopening => exact hopening.canStart

theorem Derivation.canStart_factor {xs ys : List Token} (d : Derivation v .factor xs ys) :
    CanStart v xs := by
  cases d with
  | negation hminus => exact ⟨_, rfl, by simp [hminus]⟩
  | base b => exact b.canStart_primary
  | power b => exact b.canStart_primary
  | exponential he => exact ⟨_, rfl, by simp [he.1, he.2, isReserved_e]⟩

/-- The name of a function that is not called does not start a primary. -/
theorem Derivation.not_primary_of_call {t : Token} {xs ys : List Token} {f : Func}
    (hf : t.IsName f.name) (hparen : nextKind xs ≠ some .openParen)
    (d : Derivation v .primary (t :: xs) ys) : False := by
  cases d with
  | number h => exact absurd (h.symm.trans hf.1) (by decide)
  | var h hfree => exact hfree (h.2.symm.trans hf.2 ▸ isReserved_name f)
  | pi h => exact f.name_ne_pi (hf.2.symm.trans h.2)
  | euler h => exact f.name_ne_e (hf.2.symm.trans h.2)
  | delimited op hopening =>
    cases hopening with
    | paren h => exact absurd (h.symm.trans hf.1) (by decide)
    | bar h => exact absurd (h.symm.trans hf.1) (by decide)
    | call h h' => exact hparen (congrArg some h')
    | exp h => exact f.name_ne_e (hf.2.symm.trans h.2)

/-- A primary that starts with what opens an expression is that expression up to its end. -/
theorem Derivation.exists_inner {xs ys zs : List Token} {closing : TokenKind} {op : UnaryOp}
    (hopening : Opening xs ys closing op) (d : Derivation v .primary xs zs) :
    ∃ t, t.kind = closing ∧ Nonempty (Derivation v .expression ys (t :: zs)) := by
  cases d with
  | number h => exact (hopening.not_number h).elim
  | var h hfree => exact (hopening.not_var h hfree).elim
  | pi h => exact (hopening.not_pi h).elim
  | euler h hnext => exact (hopening.not_euler h hnext).elim
  | delimited op₂ hopening₂ u hclosing =>
    obtain ⟨rfl, rfl, rfl⟩ := hopening.unique hopening₂
    exact ⟨_, hclosing, ⟨u⟩⟩

/-- The same for a factor. -/
theorem Derivation.exists_inner_of_factor {xs ys zs : List Token} {closing : TokenKind}
    {op : UnaryOp} (hopening : Opening xs ys closing op) (d : Derivation v .factor xs zs) :
    ∃ t ts, t.kind = closing ∧ Nonempty (Derivation v .expression ys (t :: ts)) := by
  cases d with
  | negation hminus => cases hopening <;> simp_all [Token.IsName]
  | base b =>
    obtain ⟨t, ht, hinner⟩ := b.exists_inner hopening
    exact ⟨t, _, ht, hinner⟩
  | power b =>
    obtain ⟨t, ht, hinner⟩ := b.exists_inner hopening
    exact ⟨t, _, ht, hinner⟩
  | exponential he hcaret hparen => cases hopening <;> simp_all [Token.IsName]

/-- **The place is not too early.** No tokens that begin with the same ones, up to and including the
next one, derive from the symbol, whatever comes behind them. -/
theorem Stuck.not_derivation {xs ys zs : List Token} (h : Stuck v s p xs)
    (hhead : ys.head? = xs.head?) (hzs : s.EndsBefore zs) (d : Derivation v s (p ++ ys) zs) :
    False := by
  induction h generalizing zs with
  | expressionFirst _ ih =>
    cases d with
    | expression first more => exact ih hhead (more.endsBefore_term hzs) first
  | @expressionMore p q xs first₁ hstuck ih =>
    obtain ⟨first₂⟩ := first₁.move_sums hstuck ys
    rw [List.append_assoc] at d
    cases d with
    | expression first more =>
      have hends := hstuck.endsBefore_term ys
      cases first₂.unique first hends (more.endsBefore_term hzs)
      exact ih hhead hzs more
  | @sumsOperand t op p xs hsign _ ih =>
    cases d with
    | sumsNil => simp [hsign.goesOn.1] at hzs
    | sumsCons _ _ right more => exact ih hhead (more.endsBefore_term hzs) right
  | @sumsMore t op p q xs hsign right₁ hstuck ih =>
    obtain ⟨right₂⟩ := right₁.move_sums hstuck ys
    rw [List.cons_append, List.append_assoc] at d
    cases d with
    | sumsNil => simp [hsign.goesOn.1] at hzs
    | sumsCons _ _ right more =>
      have hends := hstuck.endsBefore_term ys
      cases right₂.unique right hends (more.endsBefore_term hzs)
      exact ih hhead hzs more
  | termFirst _ ih =>
    cases d with
    | term first more => exact ih hhead (more.endsBefore_factor hzs) first
  | @termMore p q xs first₁ hstuck ih =>
    obtain ⟨first₂⟩ := first₁.move_products hstuck ys
    rw [List.append_assoc] at d
    cases d with
    | term first more =>
      have hends := hstuck.endsBefore_factor ys
      cases first₂.unique first hends (more.endsBefore_factor hzs)
      exact ih hhead hzs more
  | @productsOperand t op p xs hsign _ ih =>
    cases d with
    | productsNil => simp [hsign.goesOn.1] at hzs
    | productsCons _ _ right more => exact ih hhead (more.endsBefore_factor hzs) right
  | @productsMore t op p q xs hsign right₁ hstuck ih =>
    obtain ⟨right₂⟩ := right₁.move_products hstuck ys
    rw [List.cons_append, List.append_assoc] at d
    cases d with
    | productsNil => simp [hsign.goesOn.1] at hzs
    | productsCons _ _ right more =>
      have hends := hstuck.endsBefore_factor ys
      cases right₂.unique right hends (more.endsBefore_factor hzs)
      exact ih hhead hzs more
  | nothing hstart => exact hstart (d.canStart_factor.congr hhead.symm)
  | @negation t p xs hminus _ ih =>
    have ih := ih hhead hzs
    rw [List.cons_append] at d
    generalize p ++ ys = ws at d ih
    cases d with
    | negation _ u => exact ih u
    | base b => exact b.nextKind_ne_minus (congrArg some hminus)
    | power b => exact b.nextKind_ne_minus (congrArg some hminus)
    | exponential he => exact absurd (he.1.symm.trans hminus) (by decide)
  | @exponent c p q xs b₁ hcaret _ ih =>
    obtain ⟨b₂⟩ := b₁.move (c :: (q ++ ys)) id
    rw [List.append_assoc, List.cons_append] at d
    generalize hws : p ++ c :: (q ++ ys) = ws at b₂ d
    cases d with
    | negation hminus => exact b₂.nextKind_ne_minus (congrArg some hminus)
    | base b =>
      cases b₂.unique b (fun _ _ => rfl) (fun _ _ => rfl)
      simp [Symbol.goesOn, hcaret] at hzs
    | power b _ exponent =>
      cases b₂.unique b (fun _ _ => rfl) (fun _ _ => rfl)
      exact ih hhead hzs exponent
    | exponential he hcaret hparen => exact b₂.not_primary_of_exponential he hcaret hparen
  | @exponential t c p xs he hcaret hparen _ ih =>
    have hparen' : nextKind (p ++ ys) ≠ some .openParen := by
      rwa [nextKind_congr (head?_append_congr hhead p)]
    cases d with
    | negation hminus => exact absurd (he.1.symm.trans hminus) (by decide)
    | base b => exact b.not_primary_of_exponential he hcaret hparen'
    | power b => exact b.not_primary_of_exponential he hcaret hparen'
    | exponential _ _ _ u => exact ih hhead hzs u
  | @call t xs f hf hparen =>
    have hparen' : nextKind ys ≠ some .openParen := by rwa [nextKind_congr hhead]
    cases d with
    | negation hminus => exact absurd (hf.1.symm.trans hminus) (by decide)
    | base b => exact b.not_primary_of_call hf hparen'
    | power b => exact b.not_primary_of_call hf hparen'
    | exponential he => exact f.name_ne_e (hf.2.symm.trans he.2)
  | @inner p q xs closing op hopening _ ih =>
    rw [List.append_assoc] at d
    obtain ⟨t, ts, ht, ⟨u⟩⟩ := d.exists_inner_of_factor (hopening.move (q ++ ys))
    exact ih hhead (hopening.endsBefore ht) u
  | @unclosed p q xs closing op hopening u₁ hends hclosing =>
    rw [List.append_assoc] at d
    obtain ⟨t, ts, ht, ⟨u⟩⟩ := d.exists_inner_of_factor (hopening.move (q ++ ys))
    obtain ⟨u₂⟩ := u₁.move ys fun h => by rwa [nextKind_congr hhead] at h
    cases u₂.unique u (hends.congr hhead) (hopening.endsBefore ht)
    exact hclosing (by rw [← nextKind_congr hhead, nextKind_cons, ht])

/-! ### Whole texts -/

/-- `Refused v p xs`: as a whole, `p ++ xs` is not an expression, since what `xs` starts with does
not fit behind `p`. -/
inductive Refused (v : String) (p xs : List Token) : Prop
  /-- No expression is found at all. -/
  | inside : Stuck v .expression p xs → Refused v p xs
  /-- An expression is found, and tokens are left behind it. -/
  | behind : Derivation v .expression (p ++ xs) xs → Symbol.EndsBefore .expression xs → xs ≠ [] →
      Refused v p xs

theorem Refused.exists_append_mem {xs : List Token} (h : Refused v p xs) :
    ∃ more, p ++ more ∈ language v := by
  cases h with
  | inside h =>
    obtain ⟨more, -, hmore⟩ := h.viable
    obtain ⟨d⟩ := hmore [] (Symbol.endsBefore_nil _)
    exact ⟨more, ⟨by simpa using d⟩⟩
  | behind d => exact ⟨[], d.move [] (by simp)⟩

theorem Refused.append_not_mem {xs ys : List Token} (h : Refused v p xs)
    (hhead : ys.head? = xs.head?) : p ++ ys ∉ language v := by
  rintro ⟨d⟩
  cases h with
  | inside h => exact h.not_derivation hhead (Symbol.endsBefore_nil _) d
  | behind d₁ hends hne =>
    obtain ⟨d₂⟩ := d₁.move ys fun h => by rwa [nextKind_congr hhead] at h
    cases d₂.unique d (hends.congr hhead) (Symbol.endsBefore_nil _)
    exact hne (List.head?_eq_none_iff.mp hhead.symm)

/-- A text is refused at one place only. -/
theorem Refused.unique {p₁ p₂ ys₁ ys₂ : List Token} (h₁ : Refused v p₁ ys₁)
    (h₂ : Refused v p₂ ys₂) (h : p₁ ++ ys₁ = p₂ ++ ys₂) : p₁ = p₂ ∧ ys₁ = ys₂ := by
  rcases List.append_eq_append_iff.mp h with ⟨q, rfl, rfl⟩ | ⟨q, rfl, rfl⟩
  · cases q with
    | nil => simp
    | cons t q =>
      -- what is understood up to the later place begins with what cannot stand at the earlier one
      obtain ⟨more, hmore⟩ := h₂.exists_append_mem
      rw [List.append_assoc] at hmore
      exact absurd hmore (h₁.append_not_mem rfl)
  · cases q with
    | nil => simp
    | cons t q =>
      obtain ⟨more, hmore⟩ := h₁.exists_append_mem
      rw [List.append_assoc] at hmore
      exact absurd hmore (h₂.append_not_mem rfl)

end Grammar

end Univariate
