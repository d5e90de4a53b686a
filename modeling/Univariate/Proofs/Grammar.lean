import Mathlib.Data.Set.Basic
import Univariate.Expr.Parser
import Univariate.Expr.Walk

/-!
# The grammar of expressions

The language that is read, as a grammar over tokens and independently of any reader. A derivation
is a piece of data: it records which rule was used where, and it denotes a tree.

```text
expression = term { ("+" | "-") term }
term       = factor { ("*" | "/") factor }
factor     = "-" factor | primary | primary "^" factor
           | "e" "^" factor                                  (not starting with "(")
primary    = NUMBER | variable | "pi" | "e"                  ("e" not followed by "^")
           | "(" expression ")" | "|" expression "|"
           | FUNCTION "(" expression ")" | "e" "^" "(" expression ")"
```

## Why derivations are between two token lists

`Derivation v s xs ys` derives the symbol `s` from the tokens that `xs` has in front of `ys`. That
the second list is at hand is what lets the rule for a bare `e` look at the token behind it.

A derivation of a symbol may stop too early, as one of `1` does in front of `+ 2`. So derivations
are unique only where the symbol really ends, which is what `Symbol.EndsBefore` says: the next token
is not one with which the symbol could go on. At the end of a text nothing goes on, and there the
condition holds of itself.

## Main definitions

* `Symbol`, `Derivation`: the symbols and the rules.
* `Derivation.denote`: the tree of a derivation.
* `language`: the token lists that derive from `expression`.

## Main results

* `Derivation.unique`: where a symbol ends, it has at most one derivation.
* `Derivation.exists_append`: a derivation stays one in front of other tokens.
-/

namespace Univariate

/-! ### Names -/

/-- Whether a token is the given name. -/
def Token.IsName (t : Token) (name : String) : Prop :=
  t.kind = .name ∧ t.text = name

/-- The names that never stand for the variable. -/
def IsReserved (name : String) : Prop :=
  name = "pi" ∨ name = "e" ∨ ∃ f : Func, name = f.name

theorem isReserved_pi : IsReserved "pi" := Or.inl rfl

theorem isReserved_e : IsReserved "e" := Or.inr (Or.inl rfl)

theorem isReserved_name (f : Func) : IsReserved f.name := Or.inr (Or.inr ⟨f, rfl⟩)

theorem Func.name_ne_pi (f : Func) : f.name ≠ "pi" := by
  cases f <;> decide

theorem Func.name_ne_e (f : Func) : f.name ≠ "e" := by
  cases f <;> decide

@[simp] theorem Func.ofName?_name (f : Func) : ofName? f.name = some f := by
  cases f <;> rfl

theorem Func.ofName?_eq_some_iff {name : String} {f : Func} :
    ofName? name = some f ↔ name = f.name := by
  constructor
  · intro h
    have hname := List.find?_some h
    exact (eq_of_beq hname).symm
  · rintro rfl
    exact f.ofName?_name

theorem Func.name_injective {f g : Func} (h : f.name = g.name) : f = g :=
  Option.some.inj (by rw [← f.ofName?_name, ← g.ofName?_name, h])

theorem Func.ofName?_eq_none_iff {name : String} :
    ofName? name = none ↔ ∀ f : Func, name ≠ f.name := by
  rw [Option.eq_none_iff_forall_ne_some]
  exact forall_congr' fun f => not_congr ofName?_eq_some_iff

namespace Grammar

/-! ### Symbols and rules -/

/-- The symbols of the grammar. -/
inductive Symbol where
  /-- A sum: a term and the terms chained to it. -/
  | expression
  /-- Any number of terms, each behind a `+` or `-`. -/
  | sums
  /-- A product: a factor and the factors chained to it. -/
  | term
  /-- Any number of factors, each behind a `*` or `/`. -/
  | products
  /-- A negation, a power, or a primary. -/
  | factor
  /-- What brings its own delimiters, or is a single token. -/
  | primary
  deriving DecidableEq, Repr

/-- The signs that chain terms. -/
inductive SumSign : TokenKind → BinaryOp → Prop
  | plus : SumSign .plus .plus
  | minus : SumSign .minus .minus

/-- The signs that chain factors. -/
inductive ProductSign : TokenKind → BinaryOp → Prop
  | times : ProductSign .times .times
  | slash : ProductSign .slash .div

/-- What opens a delimited expression. `Opening xs ys closing op` says that the tokens of `xs` in
front of `ys` open an expression, that a token of the kind `closing` closes it, and that it is the
operand of `op`. -/
inductive Opening : List Token → List Token → TokenKind → UnaryOp → Prop
  | paren {t xs} : t.kind = .openParen → Opening (t :: xs) xs .closeParen .group
  | bar {t xs} : t.kind = .bar → Opening (t :: xs) xs .bar (.call .abs)
  | call {t t' xs} {f : Func} : t.IsName f.name → t'.kind = .openParen →
      Opening (t :: t' :: xs) xs .closeParen (.call f)
  | exp {t c t' xs} : t.IsName "e" → c.kind = .caret → t'.kind = .openParen →
      Opening (t :: c :: t' :: xs) xs .closeParen .exp

/-- The kind of the first token. -/
def nextKind (ts : List Token) : Option TokenKind :=
  ts.head?.map Token.kind

@[simp] theorem nextKind_nil : nextKind [] = none := rfl

@[simp] theorem nextKind_cons (t : Token) (ts : List Token) :
    nextKind (t :: ts) = some t.kind := rfl

theorem exists_cons_of_nextKind {ts : List Token} {k : TokenKind} (h : nextKind ts = some k) :
    ∃ t us, ts = t :: us ∧ t.kind = k := by
  rcases ts with _ | ⟨t, us⟩
  · contradiction
  · exact ⟨t, us, rfl, Option.some.inj h⟩

/-- `Derivation v s xs ys`: how the tokens of `xs` in front of `ys` derive from the symbol `s`,
where `v` is the name of the variable. -/
inductive Derivation (v : String) : Symbol → List Token → List Token → Type
  | expression {xs ys zs} : Derivation v .term xs ys → Derivation v .sums ys zs →
      Derivation v .expression xs zs
  | sumsNil {xs} : Derivation v .sums xs xs
  | sumsCons {t xs ys zs} (op : BinaryOp) : SumSign t.kind op → Derivation v .term xs ys →
      Derivation v .sums ys zs → Derivation v .sums (t :: xs) zs
  | term {xs ys zs} : Derivation v .factor xs ys → Derivation v .products ys zs →
      Derivation v .term xs zs
  | productsNil {xs} : Derivation v .products xs xs
  | productsCons {t xs ys zs} (op : BinaryOp) : ProductSign t.kind op → Derivation v .factor xs ys →
      Derivation v .products ys zs → Derivation v .products (t :: xs) zs
  | negation {t xs ys} : t.kind = .minus → Derivation v .factor xs ys →
      Derivation v .factor (t :: xs) ys
  | base {xs ys} : Derivation v .primary xs ys → Derivation v .factor xs ys
  | power {c xs ys zs} : Derivation v .primary xs (c :: ys) → c.kind = .caret →
      Derivation v .factor ys zs → Derivation v .factor xs zs
  | exponential {t c xs ys} : t.IsName "e" → c.kind = .caret → nextKind xs ≠ some .openParen →
      Derivation v .factor xs ys → Derivation v .factor (t :: c :: xs) ys
  | number {t xs} : t.kind = .number → Derivation v .primary (t :: xs) xs
  | var {t xs} : t.IsName v → ¬ IsReserved v → Derivation v .primary (t :: xs) xs
  | pi {t xs} : t.IsName "pi" → Derivation v .primary (t :: xs) xs
  | euler {t xs} : t.IsName "e" → nextKind xs ≠ some .caret → Derivation v .primary (t :: xs) xs
  | delimited {t xs ys zs closing} (op : UnaryOp) : Opening xs ys closing op →
      Derivation v .expression ys (t :: zs) → t.kind = closing → Derivation v .primary xs zs

/-- The token lists that derive from `expression` as a whole. -/
def language (v : String) : Set (List Token) :=
  {ts | Nonempty (Derivation v .expression ts [])}

/-! ### Trees -/

section Denotation

variable (R : Type) [Zero R] [BEq R]

/-- What a symbol stands for: a tree, or what a chain of operands makes of the operand in front of
it. -/
abbrev Symbol.Denotation : Symbol → Type
  | .sums | .products => Expr R → Expr R
  | .expression | .term | .factor | .primary => Expr R

variable {R} [One R] [Numeral R] [OfScientific R]

/-- The tree that a derivation denotes. Chains of operands associate to the left. -/
def Derivation.denote {v : String} {s : Symbol} {xs ys : List Token} :
    Derivation v s xs ys → s.Denotation R
  | .expression first more => more.denote first.denote
  | .sumsNil => fun left => left
  | .sumsCons op _ right more => fun left => more.denote (.binary op left right.denote)
  | .term first more => more.denote first.denote
  | .productsNil => fun left => left
  | .productsCons op _ right more => fun left => more.denote (.binary op left right.denote)
  | .negation _ u => .unary .negate u.denote
  | .base u => u.denote
  | .power b _ exponent => .binary .pow b.denote exponent.denote
  | .exponential _ _ _ u => .unary .exp u.denote
  | .number (t := t) _ => .const (Decimal.literalValue t.lexeme)
  | .var _ _ => .var v
  | .pi _ => .const Numeral.pi
  | .euler _ _ => .unary .exp (.const 1)
  | .delimited op _ u _ => .unary op u.denote

/-- A denotation without errors: a tree that has none, or a chain that adds none. -/
def Symbol.ErrorFree : (s : Symbol) → s.Denotation R → Prop
  | .sums, chain | .products, chain =>
    ∀ left : Expr R, left.errorOffsets = [] → (chain left).errorOffsets = []
  | .expression, tree | .term, tree | .factor, tree | .primary, tree => tree.errorOffsets = []

/-- What a derivation denotes has no errors. -/
theorem Derivation.errorFree_denote {v : String} {s : Symbol} {xs ys : List Token}
    (d : Derivation v s xs ys) : s.ErrorFree (d.denote : s.Denotation R) := by
  induction d with
  | expression first more ihf ihm => exact ihm _ ihf
  | sumsNil => exact fun left hleft => hleft
  | sumsCons op hsign right more ihr ihm =>
    intro left hleft
    refine ihm (.binary op left right.denote) ?_
    rw [Expr.errorOffsets_binary, hleft, ihr]
    rfl
  | term first more ihf ihm => exact ihm _ ihf
  | productsNil => exact fun left hleft => hleft
  | productsCons op hsign right more ihr ihm =>
    intro left hleft
    refine ihm (.binary op left right.denote) ?_
    rw [Expr.errorOffsets_binary, hleft, ihr]
    rfl
  | negation _ u ih => exact (Expr.errorOffsets_unary _ _).trans ih
  | base b ih => exact ih
  | power b _ exponent ihb ihe =>
    refine (Expr.errorOffsets_binary _ _ _).trans ?_
    rw [ihb, ihe]
    rfl
  | exponential _ _ _ u ih => exact (Expr.errorOffsets_unary _ _).trans ih
  | number => exact Expr.errorOffsets_const _
  | var => exact Expr.errorOffsets_var _
  | pi => exact Expr.errorOffsets_const _
  | euler => exact Expr.errorOffsets_unary _ _
  | delimited op _ u _ ih => exact (Expr.errorOffsets_unary _ _).trans ih

end Denotation

/-! ### Derivations in front of other tokens -/

theorem nextKind_append {k : TokenKind} {xs ys : List Token}
    (h : nextKind ys = some k → nextKind xs = some k) (p : List Token) :
    nextKind (p ++ ys) = some k → nextKind (p ++ xs) = some k := by
  cases p with
  | nil => exact h
  | cons t p => exact id

theorem Opening.exists_append {xs ys : List Token} {closing : TokenKind} {op : UnaryOp}
    (h : Opening xs ys closing op) :
    ∃ p, p ≠ [] ∧ xs = p ++ ys ∧ ∀ zs, Opening (p ++ zs) zs closing op := by
  cases h with
  | paren h => exact ⟨[_], by simp, rfl, fun zs => .paren h⟩
  | bar h => exact ⟨[_], by simp, rfl, fun zs => .bar h⟩
  | call h h' => exact ⟨[_, _], by simp, rfl, fun zs => .call h h'⟩
  | exp h hc h' => exact ⟨[_, _, _], by simp, rfl, fun zs => .exp h hc h'⟩

/-- A derivation stays one if other tokens stand behind what it derives, unless a `^` stands there
that was not there before: it would take a bare `e` away. Only chains derive from nothing. -/
theorem Derivation.exists_append {v : String} {s : Symbol} {xs ys : List Token}
    (d : Derivation v s xs ys) :
    ∃ p, xs = p ++ ys ∧ (s ≠ .sums → s ≠ .products → p ≠ []) ∧
      ∀ zs, (nextKind zs = some .caret → nextKind ys = some .caret) →
        Nonempty (Derivation v s (p ++ zs) zs) := by
  induction d with
  | expression first more ihf ihm =>
    obtain ⟨p, rfl, hp, hfirst⟩ := ihf
    obtain ⟨q, rfl, -, hmore⟩ := ihm
    refine ⟨p ++ q, by simp, fun _ _ h => hp (by simp) (by simp) (by simp_all), ?_⟩
    intro zs hzs
    obtain ⟨d₁⟩ := hfirst (q ++ zs) (nextKind_append hzs q)
    obtain ⟨d₂⟩ := hmore zs hzs
    exact ⟨by rw [List.append_assoc]; exact .expression d₁ d₂⟩
  | sumsNil => exact ⟨[], rfl, by simp, fun zs _ => ⟨.sumsNil⟩⟩
  | @sumsCons t _ _ _ op hsign right more ihr ihm =>
    obtain ⟨p, rfl, -, hright⟩ := ihr
    obtain ⟨q, rfl, -, hmore⟩ := ihm
    refine ⟨t :: p ++ q, by simp, by simp, ?_⟩
    intro zs hzs
    obtain ⟨d₁⟩ := hright (q ++ zs) (nextKind_append hzs q)
    obtain ⟨d₂⟩ := hmore zs hzs
    exact ⟨by rw [List.append_assoc]; exact .sumsCons op hsign d₁ d₂⟩
  | term first more ihf ihm =>
    obtain ⟨p, rfl, hp, hfirst⟩ := ihf
    obtain ⟨q, rfl, -, hmore⟩ := ihm
    refine ⟨p ++ q, by simp, fun _ _ h => hp (by simp) (by simp) (by simp_all), ?_⟩
    intro zs hzs
    obtain ⟨d₁⟩ := hfirst (q ++ zs) (nextKind_append hzs q)
    obtain ⟨d₂⟩ := hmore zs hzs
    exact ⟨by rw [List.append_assoc]; exact .term d₁ d₂⟩
  | productsNil => exact ⟨[], rfl, by simp, fun zs _ => ⟨.productsNil⟩⟩
  | @productsCons t _ _ _ op hsign right more ihr ihm =>
    obtain ⟨p, rfl, -, hright⟩ := ihr
    obtain ⟨q, rfl, -, hmore⟩ := ihm
    refine ⟨t :: p ++ q, by simp, by simp, ?_⟩
    intro zs hzs
    obtain ⟨d₁⟩ := hright (q ++ zs) (nextKind_append hzs q)
    obtain ⟨d₂⟩ := hmore zs hzs
    exact ⟨by rw [List.append_assoc]; exact .productsCons op hsign d₁ d₂⟩
  | @negation t _ _ hminus u ih =>
    obtain ⟨p, rfl, -, hu⟩ := ih
    refine ⟨t :: p, rfl, by simp, ?_⟩
    intro zs hzs
    obtain ⟨d⟩ := hu zs hzs
    exact ⟨.negation hminus d⟩
  | base b ih =>
    obtain ⟨p, rfl, hp, hb⟩ := ih
    refine ⟨p, rfl, fun _ _ => hp (by simp) (by simp), ?_⟩
    intro zs hzs
    obtain ⟨d⟩ := hb zs hzs
    exact ⟨.base d⟩
  | @power c _ _ _ b hcaret exponent ihb ihe =>
    obtain ⟨p, rfl, -, hb⟩ := ihb
    obtain ⟨q, rfl, -, hexponent⟩ := ihe
    refine ⟨p ++ c :: q, by simp, by simp, ?_⟩
    intro zs hzs
    obtain ⟨d₁⟩ := hb (c :: (q ++ zs)) id
    obtain ⟨d₂⟩ := hexponent zs hzs
    exact ⟨by rw [List.append_assoc]; exact .power d₁ hcaret d₂⟩
  | @exponential t c _ _ he hcaret hparen u ih =>
    obtain ⟨p, rfl, hp, hu⟩ := ih
    refine ⟨t :: c :: p, rfl, by simp, ?_⟩
    intro zs hzs
    obtain ⟨d⟩ := hu zs hzs
    refine ⟨.exponential he hcaret ?_ d⟩
    cases p with
    | nil => exact absurd rfl (hp (by simp) (by simp))
    | cons t' p => exact hparen
  | number h => exact ⟨[_], rfl, by simp, fun zs _ => ⟨.number h⟩⟩
  | var h hfree => exact ⟨[_], rfl, by simp, fun zs _ => ⟨.var h hfree⟩⟩
  | pi h => exact ⟨[_], rfl, by simp, fun zs _ => ⟨.pi h⟩⟩
  | euler h hcaret => exact ⟨[_], rfl, by simp, fun zs hzs => ⟨.euler h fun hc => hcaret (hzs hc)⟩⟩
  | @delimited t _ _ _ closing op hopening u hclosing ih =>
    obtain ⟨p, hp, rfl, hopens⟩ := hopening.exists_append
    obtain ⟨q, rfl, -, hu⟩ := ih
    refine ⟨p ++ (q ++ [t]), by simp, by simp [hp], ?_⟩
    intro zs hzs
    obtain ⟨d⟩ := hu (t :: zs) id
    exact ⟨by simpa using Derivation.delimited op (hopens (q ++ t :: zs)) d hclosing⟩

/-- Whatever is not a chain takes at least one token. -/
theorem Derivation.length_lt {v : String} {s : Symbol} {xs ys : List Token}
    (d : Derivation v s xs ys) (hsums : s ≠ .sums) (hproducts : s ≠ .products) :
    ys.length < xs.length := by
  obtain ⟨p, rfl, hp, -⟩ := d.exists_append
  have := List.length_pos_iff.mpr (hp hsums hproducts)
  rw [List.length_append]
  omega

/-! ### Uniqueness -/

/-- Whether the symbol can go on with a token of the given kind. -/
def Symbol.goesOn : Symbol → TokenKind → Bool
  | .primary, _ => false
  | .factor, k => k = .caret
  | .term, k | .products, k => k = .caret ∨ k = .times ∨ k = .slash
  | .expression, k | .sums, k =>
    k = .caret ∨ k = .times ∨ k = .slash ∨ k = .plus ∨ k = .minus

/-- Whether the symbol ends in front of the tokens. -/
def Symbol.EndsBefore (s : Symbol) (ts : List Token) : Prop :=
  ∀ k, nextKind ts = some k → s.goesOn k = false

@[simp] theorem Symbol.endsBefore_nil (s : Symbol) : s.EndsBefore [] := by
  simp [EndsBefore]

@[simp] theorem Symbol.endsBefore_cons {s : Symbol} {t : Token} {ts : List Token} :
    s.EndsBefore (t :: ts) ↔ s.goesOn t.kind = false := by
  simp [EndsBefore]

theorem SumSign.goesOn {k : TokenKind} {op : BinaryOp} (h : SumSign k op) :
    Symbol.goesOn .sums k = true ∧ Symbol.goesOn .term k = false := by
  cases h <;> exact ⟨rfl, rfl⟩

theorem SumSign.unique {k : TokenKind} {op₁ op₂ : BinaryOp} (h₁ : SumSign k op₁)
    (h₂ : SumSign k op₂) : op₁ = op₂ := by
  cases h₁ <;> cases h₂ <;> rfl

theorem ProductSign.goesOn {k : TokenKind} {op : BinaryOp} (h : ProductSign k op) :
    Symbol.goesOn .products k = true ∧ Symbol.goesOn .factor k = false := by
  cases h <;> exact ⟨rfl, rfl⟩

theorem ProductSign.unique {k : TokenKind} {op₁ op₂ : BinaryOp} (h₁ : ProductSign k op₁)
    (h₂ : ProductSign k op₂) : op₁ = op₂ := by
  cases h₁ <;> cases h₂ <;> rfl

theorem Symbol.EndsBefore.term {ts : List Token} (h : Symbol.EndsBefore .sums ts) :
    Symbol.EndsBefore .term ts := by
  intro k hk
  have := h k hk
  simp_all [Symbol.goesOn]

theorem Symbol.EndsBefore.factor {ts : List Token} (h : Symbol.EndsBefore .products ts) :
    Symbol.EndsBefore .factor ts := by
  intro k hk
  have := h k hk
  simp_all [Symbol.goesOn]

/-- A chain of terms ends where a term does and no sign follows. -/
theorem Symbol.EndsBefore.sums {ts : List Token} (h : Symbol.EndsBefore .term ts)
    (hsign : ∀ k op, nextKind ts = some k → ¬ SumSign k op) : Symbol.EndsBefore .sums ts := by
  intro k hk
  have hterm := h k hk
  have hplus : k ≠ .plus := by rintro rfl; exact hsign _ _ hk .plus
  have hminus : k ≠ .minus := by rintro rfl; exact hsign _ _ hk .minus
  simp_all [Symbol.goesOn]

/-- A chain of factors ends where a factor does and no sign follows. -/
theorem Symbol.EndsBefore.products {ts : List Token} (h : Symbol.EndsBefore .factor ts)
    (hsign : ∀ k op, nextKind ts = some k → ¬ ProductSign k op) :
    Symbol.EndsBefore .products ts := by
  intro k hk
  have hfactor := h k hk
  have htimes : k ≠ .times := by rintro rfl; exact hsign _ _ hk .times
  have hslash : k ≠ .slash := by rintro rfl; exact hsign _ _ hk .slash
  simp_all [Symbol.goesOn]

/-- What comes behind a chain of terms ends the term in front of the chain. -/
theorem Derivation.endsBefore_term {v : String} {xs ys : List Token}
    (d : Derivation v .sums xs ys) (h : Symbol.EndsBefore .sums ys) :
    Symbol.EndsBefore .term xs := by
  cases d with
  | sumsNil => exact h.term
  | sumsCons op hsign => exact Symbol.endsBefore_cons.mpr hsign.goesOn.2

/-- What comes behind a chain of factors ends the factor in front of the chain. -/
theorem Derivation.endsBefore_factor {v : String} {xs ys : List Token}
    (d : Derivation v .products xs ys) (h : Symbol.EndsBefore .products ys) :
    Symbol.EndsBefore .factor xs := by
  cases d with
  | productsNil => exact h.factor
  | productsCons op hsign => exact Symbol.endsBefore_cons.mpr hsign.goesOn.2

theorem Opening.unique {xs ys₁ ys₂ : List Token} {closing₁ closing₂ : TokenKind}
    {op₁ op₂ : UnaryOp} (h₁ : Opening xs ys₁ closing₁ op₁) (h₂ : Opening xs ys₂ closing₂ op₂) :
    ys₁ = ys₂ ∧ closing₁ = closing₂ ∧ op₁ = op₂ := by
  cases h₁ with
  | call h h' =>
    cases h₂ with
    | call g g' => exact ⟨rfl, rfl, by rw [Func.name_injective (h.2.symm.trans g.2)]⟩
    | _ => simp_all [Token.IsName]
  | _ => cases h₂ <;> simp_all [Token.IsName]

/-- The first token of what opens an expression. -/
theorem Opening.head {t : Token} {xs ys : List Token} {closing : TokenKind} {op : UnaryOp}
    (h : Opening (t :: xs) ys closing op) :
    t.kind = .openParen ∨ t.kind = .bar ∨ (∃ f : Func, t.IsName f.name) ∨
      (t.IsName "e" ∧ nextKind xs = some .caret) := by
  cases h with
  | paren h => exact .inl h
  | bar h => exact .inr (.inl h)
  | call h h' => exact .inr (.inr (.inl ⟨_, h⟩))
  | exp h hc h' => exact .inr (.inr (.inr ⟨h, congrArg some hc⟩))

/-- A closing delimiter ends the expression in front of it. -/
theorem Opening.endsBefore {t : Token} {xs ys zs : List Token} {closing : TokenKind} {op : UnaryOp}
    (h : Opening xs ys closing op) (hclosing : t.kind = closing) :
    Symbol.EndsBefore .expression (t :: zs) := by
  rw [Symbol.endsBefore_cons, hclosing]
  cases h <;> rfl

theorem Opening.not_number {t : Token} {xs ys : List Token} {closing : TokenKind} {op : UnaryOp}
    (h : Opening (t :: xs) ys closing op) (hnumber : t.kind = .number) : False := by
  obtain h | h | ⟨f, h⟩ | ⟨h, -⟩ := h.head <;> simp_all [Token.IsName]

theorem Opening.not_name {t : Token} {xs ys : List Token} {closing : TokenKind} {op : UnaryOp}
    (h : Opening (t :: xs) ys closing op) {name : String} (hname : t.IsName name)
    (hcall : ∀ f : Func, name ≠ f.name) (he : name = "e" → nextKind xs ≠ some .caret) : False := by
  obtain h | h | ⟨f, h⟩ | ⟨h, hnext⟩ := h.head
  · exact absurd (hname.1.symm.trans h) (by decide)
  · exact absurd (hname.1.symm.trans h) (by decide)
  · exact hcall f (hname.2.symm.trans h.2)
  · exact he (hname.2.symm.trans h.2) hnext

theorem Opening.not_var {v : String} {t : Token} {xs ys : List Token} {closing : TokenKind}
    {op : UnaryOp} (h : Opening (t :: xs) ys closing op) (hname : t.IsName v)
    (hfree : ¬ IsReserved v) : False := by
  refine h.not_name hname ?_ ?_
  · intro f hf
    exact hfree (hf ▸ isReserved_name f)
  · intro he
    exact (hfree (he ▸ isReserved_e)).elim

theorem Opening.not_pi {t : Token} {xs ys : List Token} {closing : TokenKind} {op : UnaryOp}
    (h : Opening (t :: xs) ys closing op) (hname : t.IsName "pi") : False :=
  h.not_name hname (fun f => f.name_ne_pi.symm) fun he => absurd he (by decide)

theorem Opening.not_euler {t : Token} {xs ys : List Token} {closing : TokenKind} {op : UnaryOp}
    (h : Opening (t :: xs) ys closing op) (hname : t.IsName "e")
    (hnext : nextKind xs ≠ some .caret) : False :=
  h.not_name hname (fun f => f.name_ne_e.symm) fun _ => hnext

/-- A primary does not start with a minus. -/
theorem Derivation.nextKind_ne_minus {v : String} {xs ys : List Token}
    (d : Derivation v .primary xs ys) : nextKind xs ≠ some .minus := by
  cases d with
  | delimited op hopening => cases hopening <;> simp_all [Token.IsName]
  | _ => simp_all [Token.IsName]

/-- What the rule for `e` and a factor derives from does not start with a primary. -/
theorem Derivation.not_primary_of_exponential {v : String} {t c : Token} {xs ys : List Token}
    (he : t.IsName "e") (hcaret : c.kind = .caret) (hparen : nextKind xs ≠ some .openParen)
    (d : Derivation v .primary (t :: c :: xs) ys) : False := by
  cases d with
  | number h => simp_all [Token.IsName]
  | var h hfree => exact hfree (by rw [← h.2, he.2]; exact isReserved_e)
  | pi h => exact absurd (h.2.symm.trans he.2) (by decide)
  | euler h hnext => exact hnext (congrArg some hcaret)
  | delimited op hopening =>
    cases hopening with
    | call h h' => simp_all
    | exp h hc h' => simp_all
    | _ => simp_all [Token.IsName]

/-! A primary is told by its first token, and for an `e` by the token behind it. -/

section Primary

variable {v : String} {t : Token} {xs ys : List Token} (d : Derivation v .primary (t :: xs) ys)

/-- A primary that starts with a number is that number. -/
theorem Derivation.eq_number (h : t.kind = .number) :
    (⟨ys, d⟩ : (ys : List Token) × Derivation v .primary (t :: xs) ys) = ⟨xs, .number h⟩ := by
  cases d with
  | number => rfl
  | var g => exact absurd (h.symm.trans g.1) (by decide)
  | pi g => exact absurd (h.symm.trans g.1) (by decide)
  | euler g => exact absurd (h.symm.trans g.1) (by decide)
  | delimited op hopening => exact (hopening.not_number h).elim

/-- A primary that starts with the variable is the variable. -/
theorem Derivation.eq_var (h : t.IsName v) (hfree : ¬ IsReserved v) :
    (⟨ys, d⟩ : (ys : List Token) × Derivation v .primary (t :: xs) ys) = ⟨xs, .var h hfree⟩ := by
  cases d with
  | number g => exact absurd (g.symm.trans h.1) (by decide)
  | var => rfl
  | pi g => exact (hfree (h.2.symm.trans g.2 ▸ isReserved_pi)).elim
  | euler g => exact (hfree (h.2.symm.trans g.2 ▸ isReserved_e)).elim
  | delimited op hopening => exact (hopening.not_var h hfree).elim

/-- A primary that starts with `pi` is that constant. -/
theorem Derivation.eq_pi (h : t.IsName "pi") :
    (⟨ys, d⟩ : (ys : List Token) × Derivation v .primary (t :: xs) ys) = ⟨xs, .pi h⟩ := by
  cases d with
  | number g => exact absurd (g.symm.trans h.1) (by decide)
  | var g gfree => exact (gfree (g.2.symm.trans h.2 ▸ isReserved_pi)).elim
  | pi => rfl
  | euler g => exact absurd (h.2.symm.trans g.2) (by decide)
  | delimited op hopening => exact (hopening.not_pi h).elim

/-- A primary that starts with an `e` without an exponent is that constant. -/
theorem Derivation.eq_euler (h : t.IsName "e") (hnext : nextKind xs ≠ some .caret) :
    (⟨ys, d⟩ : (ys : List Token) × Derivation v .primary (t :: xs) ys) = ⟨xs, .euler h hnext⟩ := by
  cases d with
  | number g => exact absurd (g.symm.trans h.1) (by decide)
  | var g gfree => exact (gfree (g.2.symm.trans h.2 ▸ isReserved_e)).elim
  | pi g => exact absurd (h.2.symm.trans g.2) (by decide)
  | euler => rfl
  | delimited op hopening => exact (hopening.not_euler h hnext).elim

end Primary

/-- **Derivations are unique.** A symbol that ends has at most one derivation, and it ends at one
place only. -/
theorem Derivation.unique {v : String} {s : Symbol} {xs ys₁ ys₂ : List Token}
    (d₁ : Derivation v s xs ys₁) (d₂ : Derivation v s xs ys₂) (h₁ : s.EndsBefore ys₁)
    (h₂ : s.EndsBefore ys₂) :
    (⟨ys₁, d₁⟩ : (ys : List Token) × Derivation v s xs ys) = ⟨ys₂, d₂⟩ := by
  induction d₁ generalizing ys₂ with
  | expression first more ihf ihm =>
    cases d₂ with
    | expression first₂ more₂ =>
      cases ihf first₂ (more.endsBefore_term h₁) (more₂.endsBefore_term h₂)
      cases ihm more₂ h₁ h₂
      rfl
  | sumsNil =>
    cases d₂ with
    | sumsNil => rfl
    | sumsCons op hsign =>
      rw [Symbol.endsBefore_cons, hsign.goesOn.1] at h₁
      contradiction
  | sumsCons op hsign right more ihr ihm =>
    cases d₂ with
    | sumsNil =>
      rw [Symbol.endsBefore_cons, hsign.goesOn.1] at h₂
      contradiction
    | sumsCons op₂ hsign₂ right₂ more₂ =>
      obtain rfl := hsign.unique hsign₂
      cases ihr right₂ (more.endsBefore_term h₁) (more₂.endsBefore_term h₂)
      cases ihm more₂ h₁ h₂
      rfl
  | term first more ihf ihm =>
    cases d₂ with
    | term first₂ more₂ =>
      cases ihf first₂ (more.endsBefore_factor h₁) (more₂.endsBefore_factor h₂)
      cases ihm more₂ h₁ h₂
      rfl
  | productsNil =>
    cases d₂ with
    | productsNil => rfl
    | productsCons op hsign =>
      rw [Symbol.endsBefore_cons, hsign.goesOn.1] at h₁
      contradiction
  | productsCons op hsign right more ihr ihm =>
    cases d₂ with
    | productsNil =>
      rw [Symbol.endsBefore_cons, hsign.goesOn.1] at h₂
      contradiction
    | productsCons op₂ hsign₂ right₂ more₂ =>
      obtain rfl := hsign.unique hsign₂
      cases ihr right₂ (more.endsBefore_factor h₁) (more₂.endsBefore_factor h₂)
      cases ihm more₂ h₁ h₂
      rfl
  | negation hminus u ih =>
    cases d₂ with
    | negation _ u₂ =>
      cases ih u₂ h₁ h₂
      rfl
    | base b₂ => exact absurd (congrArg some hminus) b₂.nextKind_ne_minus
    | power b₂ => exact absurd (congrArg some hminus) b₂.nextKind_ne_minus
    | exponential he₂ => exact absurd (he₂.1.symm.trans hminus) (by decide)
  | base b ih =>
    cases d₂ with
    | negation hminus₂ => exact absurd (congrArg some hminus₂) b.nextKind_ne_minus
    | base b₂ =>
      cases ih b₂ (fun _ _ => rfl) (fun _ _ => rfl)
      rfl
    | power b₂ hcaret₂ =>
      cases ih b₂ (fun _ _ => rfl) (fun _ _ => rfl)
      simp [Symbol.goesOn, hcaret₂] at h₁
    | exponential he₂ hcaret₂ hparen₂ =>
      exact (b.not_primary_of_exponential he₂ hcaret₂ hparen₂).elim
  | power b hcaret exponent ihb ihe =>
    cases d₂ with
    | negation hminus₂ => exact absurd (congrArg some hminus₂) b.nextKind_ne_minus
    | base b₂ =>
      cases ihb b₂ (fun _ _ => rfl) (fun _ _ => rfl)
      simp [Symbol.goesOn, hcaret] at h₂
    | power b₂ hcaret₂ exponent₂ =>
      cases ihb b₂ (fun _ _ => rfl) (fun _ _ => rfl)
      cases ihe exponent₂ h₁ h₂
      rfl
    | exponential he₂ hcaret₂ hparen₂ =>
      exact (b.not_primary_of_exponential he₂ hcaret₂ hparen₂).elim
  | exponential he hcaret hparen u ih =>
    cases d₂ with
    | negation hminus₂ => exact absurd (he.1.symm.trans hminus₂) (by decide)
    | base b₂ => exact (b₂.not_primary_of_exponential he hcaret hparen).elim
    | power b₂ => exact (b₂.not_primary_of_exponential he hcaret hparen).elim
    | exponential he₂ hcaret₂ hparen₂ u₂ =>
      cases ih u₂ h₁ h₂
      rfl
  | number h => exact (d₂.eq_number h).symm
  | var h hfree => exact (d₂.eq_var h hfree).symm
  | pi h => exact (d₂.eq_pi h).symm
  | euler h hnext => exact (d₂.eq_euler h hnext).symm
  | delimited op hopening u hclosing ih =>
    cases d₂ with
    | number g => exact (hopening.not_number g).elim
    | var g gfree => exact (hopening.not_var g gfree).elim
    | pi g => exact (hopening.not_pi g).elim
    | euler g gnext => exact (hopening.not_euler g gnext).elim
    | delimited op₂ hopening₂ u₂ hclosing₂ =>
      obtain ⟨rfl, rfl, rfl⟩ := hopening.unique hopening₂
      cases ih u₂ (hopening.endsBefore hclosing) (hopening₂.endsBefore hclosing₂)
      rfl

/-- At the end of a text, a symbol has at most one derivation. -/
theorem Derivation.eq_of_nil {v : String} {s : Symbol} {xs : List Token}
    (d₁ d₂ : Derivation v s xs []) : d₁ = d₂ := by
  have h := d₁.unique d₂ s.endsBefore_nil s.endsBefore_nil
  exact eq_of_heq (Sigma.mk.inj h).2

end Grammar

end Univariate
