import Univariate.Proofs.Expandable

/-!
# The variable of an expansion

A polynomial keeps the name of its variable beside its coefficients, so that the name has to be
chosen whenever two polynomials are combined. It is chosen by the degrees. After a cancellation the
degrees tell little: `x - x` has degree zero, as every constant has, and still it is a polynomial in
`x`. What makes the choice safe is that a polynomial without a name has degree zero. So it never has
the larger degree, and where the degrees agree an operand without a name gives way to the other one.

A tree in one variable is expanded into a polynomial in that variable if it mentions the variable at
all, and otherwise into one without a name. It does not matter where in the tree the variable
stands, or what becomes of its coefficients, and so nothing is assumed of the numbers here.

## Main definitions

* `Poly.InVariable`: the polynomials in one variable, and those without a name.
* `Expr.InVariable`, `Expr.Mentions`: the trees in one variable, and those that mention it.

## Main results

* `Poly.InVariable.combined`: what holds of the name of a combination.
* `Expr.name_of_expand?`: the name of an expansion.
* `Expr.mentions_normalize`: the variable is neither lost nor invented.
* `Expr.name_of_normalize`: the same for the name of the polynomial that a tree becomes.
-/

namespace Univariate

variable {R : Type} [Zero R] [BEq R] {v : String}

/-! ### Polynomials -/

namespace Poly

variable {p q r : Poly R}

/-- A polynomial in the variable `v`. One without a name has degree zero. -/
def InVariable (v : String) (p : Poly R) : Prop :=
  p.name = v ∨ p.name = "" ∧ p.degree = 0

theorem InVariable.degree_eq_zero (h : p.InVariable v) (hv : v ≠ "") (hname : p.name = "") :
    p.degree = 0 := by
  obtain hp | ⟨-, hdegree⟩ := h
  · exact absurd (hp.symm.trans hname) hv
  · exact hdegree

/-- A polynomial in the same variable, of degree zero if the other one is. -/
theorem InVariable.of_name_eq (h : p.InVariable v) (hname : r.name = p.name)
    (hdegree : p.degree = 0 → r.degree = 0) : r.InVariable v := by
  rw [InVariable, hname]
  exact h.imp_right (And.imp_right hdegree)

/-- **The name of a combination.** It is the variable if one of the operands has it as its name. If
none of them has, the combination has degree zero, as long as it has no larger degree than a
product. -/
theorem InVariable.combined (hp : p.InVariable v) (hq : q.InVariable v) (hv : v ≠ "")
    (hname : r.name = combinedName p q) (hdegree : r.degree ≤ p.degree + q.degree) :
    r.InVariable v ∧ (r.name = v ↔ p.name = v ∨ q.name = v) := by
  rw [InVariable, hname, combinedName]
  obtain hp | ⟨hp, hpdegree⟩ := hp
  · obtain hq | ⟨hq, hqdegree⟩ := hq
    · simp [hp, hq]
    · simp [hp, hqdegree, hv]
  · obtain hq | ⟨hq, hqdegree⟩ := hq
    · simp [hp, hq]
    · have hzero : r.degree = 0 := by omega
      simp [hp, hq, hzero]

theorem name_powAux [Add R] [Mul R] (result square : Poly R) (k : Nat)
    (h : result.name = square.name) : (powAux result square k).name = square.name := by
  have hmul : ∀ a b : Poly R, a.name = b.name → (a.mul b).name = b.name := by
    intro a b hab
    rw [mul, name_ofCoeffs, combinedName, hab, ite_self]
  induction k using Nat.strongRecOn generalizing result square with
  | ind k ih =>
    have hdigit : (if k % 2 = 1 then result.mul square else result).name = square.name := by
      split
      · exact hmul result square h
      · exact h
    rw [powAux]
    split
    · exact h
    · next hk =>
      dsimp only
      split
      · exact hdigit
      · have hsquare : (square.mul square).name = square.name := hmul square square rfl
        rw [ih (k / 2) (by omega) _ _ (hdigit.trans hsquare.symm), hsquare]

/-- A power is a polynomial in the variable of its base. -/
theorem name_pow [One R] [Add R] [Mul R] (p : Poly R) (k : Nat) : (p.pow k).name = p.name :=
  name_powAux (ofCoeffs p.name [1]) p k rfl

end Poly

/-! ### Trees -/

namespace Expr

variable {t u l r : Expr R} {p : Poly R}

/-- A tree in which no other variable stands than `v`. -/
structure InVariable (v : String) (t : Expr R) : Prop where
  /-- The leaves that are variables. -/
  var : ∀ name, .var name ∈ t.nodes → name = v
  /-- The leaves that are polynomials. -/
  poly : ∀ q, .poly q ∈ t.nodes → q.InVariable v

/-- The tree mentions the variable `v`, be it in a polynomial. -/
def Mentions (v : String) (t : Expr R) : Prop :=
  .var v ∈ t.nodes ∨ ∃ q : Poly R, .poly q ∈ t.nodes ∧ q.name = v

theorem InVariable.of_unary {op : UnaryOp} (h : InVariable v (unary op u)) : InVariable v u where
  var name hmem := h.var name (mem_nodes_unary.mpr (.inl hmem))
  poly q hmem := h.poly q (mem_nodes_unary.mpr (.inl hmem))

theorem InVariable.left {op : BinaryOp} (h : InVariable v (binary op l r)) : InVariable v l where
  var name hmem := h.var name (mem_nodes_binary.mpr (.inl hmem))
  poly q hmem := h.poly q (mem_nodes_binary.mpr (.inl hmem))

theorem InVariable.right {op : BinaryOp} (h : InVariable v (binary op l r)) : InVariable v r where
  var name hmem := h.var name (mem_nodes_binary.mpr (.inr (.inl hmem)))
  poly q hmem := h.poly q (mem_nodes_binary.mpr (.inr (.inl hmem)))

theorem mentions_poly : Mentions v (poly p) ↔ p.name = v := by
  constructor
  · rintro (hmem | ⟨q, hmem, hname⟩)
    · have := List.mem_singleton.mp hmem
      contradiction
    · rwa [← Expr.poly.inj (List.mem_singleton.mp hmem)]
  · exact fun h => .inr ⟨p, List.mem_singleton_self _, h⟩

theorem mentions_unary {op : UnaryOp} : Mentions v (unary op u) ↔ Mentions v u := by
  simp [Mentions, mem_nodes_unary]

theorem mentions_binary {op : BinaryOp} :
    Mentions v (binary op l r) ↔ Mentions v l ∨ Mentions v r := by
  simp only [Mentions, mem_nodes_binary, reduceCtorEq, or_false, or_and_right, exists_or]
  exact or_or_or_comm

theorem not_mentions_const {c : R} : ¬ Mentions v (const c) := by
  rintro (hmem | ⟨q, hmem, -⟩)
  · have := List.mem_singleton.mp hmem
    contradiction
  · have := List.mem_singleton.mp hmem
    contradiction

/-- An expansion is a polynomial in `v`, whose name tells whether the tree mentions `v`. -/
def NamedFor (v : String) (t : Expr R) (p : Poly R) : Prop :=
  p.InVariable v ∧ (p.name = v ↔ Mentions v t)

theorem NamedFor.combined {op : BinaryOp} {q s : Poly R} (hl : NamedFor v l p)
    (hr : NamedFor v r q) (hv : v ≠ "") (hname : s.name = Poly.combinedName p q)
    (hdegree : s.degree ≤ p.degree + q.degree) : NamedFor v (binary op l r) s := by
  obtain ⟨hs, hiff⟩ := hl.1.combined hr.1 hv hname hdegree
  refine ⟨hs, ?_⟩
  rw [hiff, mentions_binary, hl.2, hr.2]

variable [One R] [Add R] [Sub R] [Mul R] [Neg R] [Numeral R] [Elementary R]

/-- The exponent of a power that is expanded is a number, so that only the base can mention the
variable. -/
theorem namedFor_pow {base exponent : Expr R} (ht : InVariable v (binary .pow base exponent))
    (hv : v ≠ "") (hbase : ∀ q, base.expand? = some q → NamedFor v base q)
    (h : (binary .pow base exponent).expand? = some p) :
    NamedFor v (binary .pow base exponent) p := by
  cases hn : expandableExponent? base exponent with
  | none =>
    rw [expand?_pow_of_none hn] at h
    contradiction
  | some n =>
    obtain ⟨k, rfl, -, -⟩ := exists_const_of_expandableExponent? hn
    rw [NamedFor, mentions_binary, or_iff_left not_mentions_const]
    rw [expand?_pow_of_some hn] at h
    split at h
    · obtain rfl := Option.some.inj h
      exact ⟨.inr ⟨rfl, rfl⟩, iff_of_false hv.symm not_mentions_const⟩
    · next name _ =>
      obtain rfl := Option.some.inj h
      have hmem : var name ∈ (var name : Expr R).nodes := List.mem_singleton_self _
      obtain rfl := ht.left.var name hmem
      exact ⟨.inl rfl, iff_of_true rfl (.inl hmem)⟩
    · obtain ⟨q, hq, hpower⟩ := Option.bind_eq_some_iff.mp h
      obtain ⟨hq, hmentions⟩ := hbase q hq
      rw [expandPower?, Option.ite_none_right_eq_some] at hpower
      obtain rfl := Option.some.inj hpower.2
      have hname := Poly.name_pow q n
      have hdegree : q.degree = 0 → (q.pow n).degree = 0 := by
        intro hzero
        have hle := Poly.degree_pow_le q n
        rwa [hzero, Nat.zero_mul, Nat.le_zero_eq] at hle
      exact ⟨hq.of_name_eq hname hdegree, by rw [hname, hmentions]⟩

/-- **The name of an expansion.** -/
theorem name_of_expand? (ht : t.InVariable v) (hv : v ≠ "") (h : t.expand? = some p) :
    NamedFor v t p := by
  induction t generalizing p with
  | const c =>
    obtain rfl := Option.some.inj h
    exact ⟨.inr ⟨rfl, rfl⟩, iff_of_false hv.symm not_mentions_const⟩
  | var name =>
    obtain rfl := Option.some.inj h
    have hmem : var name ∈ (var name : Expr R).nodes := List.mem_singleton_self _
    obtain rfl := ht.var name hmem
    exact ⟨.inl rfl, iff_of_true rfl (.inl hmem)⟩
  | error offset => simp [expand?] at h
  | poly q =>
    obtain rfl := Option.some.inj h
    exact ⟨ht.poly q (List.mem_singleton_self _), mentions_poly.symm⟩
  | unary op u ih =>
    have ih := fun q => ih (p := q) ht.of_unary
    rw [NamedFor, mentions_unary]
    cases op with
    | group => exact ih p h
    | negate =>
      rw [expand?] at h
      obtain ⟨q, hq, rfl⟩ := Option.map_eq_some_iff.mp h
      obtain ⟨hnamed, hiff⟩ := ih q hq
      have hdegree : q.degree = 0 → q.neg.degree = 0 := by
        have hle := Poly.degree_neg_le q
        omega
      exact ⟨hnamed.of_name_eq rfl hdegree, hiff⟩
    | _ => simp [expand?] at h
  | binary op l r ihl ihr =>
    have ihl := fun q => ihl (p := q) ht.left
    have ihr := fun q => ihr (p := q) ht.right
    cases op with
    | plus =>
      rw [expand?] at h
      obtain ⟨p, q, hp, hq, rfl⟩ := exists_of_both h
      have hle := Poly.degree_add_le p q
      exact (ihl p hp).combined (ihr q hq) hv rfl (by omega)
    | minus =>
      rw [expand?] at h
      obtain ⟨p, q, hp, hq, rfl⟩ := exists_of_both h
      have hle := Poly.degree_sub_le p q
      exact (ihl p hp).combined (ihr q hq) hv rfl (by omega)
    | times =>
      rw [expand?] at h
      obtain ⟨p, q, hp, hq, rfl⟩ := exists_of_both h
      exact (ihl p hp).combined (ihr q hq) hv rfl (Poly.degree_mul_le p q)
    | div => simp [expand?] at h
    | pow => exact namedFor_pow ht hv ihl h

/-- **The variable is neither lost nor invented.** A tree in `v` is normalized into a tree in `v`,
and the one mentions `v` if and only if the other does, whether it is expanded or not. -/
theorem mentions_normalize (ht : t.InVariable v) (hv : v ≠ "") :
    t.normalize.InVariable v ∧ (t.normalize.Mentions v ↔ t.Mentions v) := by
  obtain hself | ⟨p, hp⟩ := t.normalize_cases
  · rw [hself]
    exact ⟨ht, Iff.rfl⟩
  · obtain ⟨hnamed, hiff⟩ := name_of_expand? ht hv (normalize_eq_poly_iff.mp hp)
    rw [hp, mentions_poly]
    refine ⟨⟨fun name hmem => ?_, fun q hmem => ?_⟩, hiff⟩
    · have := List.mem_singleton.mp hmem
      contradiction
    · rwa [Expr.poly.inj (List.mem_singleton.mp hmem)]

/-- **The name of the polynomial that a tree becomes.** Let no other variable than `v` stand in a
tree, and no polynomial. If the tree becomes a polynomial, its name is `v` if a variable stands in
the tree at all, and otherwise it has no name. A polynomial without a name has degree zero. -/
theorem name_of_normalize (hv : v ≠ "") (hvars : ∀ name, var name ∈ t.nodes → name = v)
    (hleaves : ∀ q, poly q ∉ t.nodes) (h : t.normalize = .poly p) :
    ((∃ name, var name ∈ t.nodes) → p.name = v) ∧
      ((∀ name, var name ∉ t.nodes) → p.name = "") ∧ (p.name = "" → p.degree = 0) := by
  have ht : t.InVariable v := ⟨hvars, fun q hmem => absurd hmem (hleaves q)⟩
  obtain ⟨hp, hiff⟩ := name_of_expand? ht hv (normalize_eq_poly_iff.mp h)
  refine ⟨?_, fun hnone => ?_, hp.degree_eq_zero hv⟩
  · rintro ⟨name, hmem⟩
    obtain rfl := hvars name hmem
    exact hiff.mpr (.inl hmem)
  · have hnot : ¬ Mentions v t := by
      rintro (hmem | ⟨q, hmem, -⟩)
      · exact hnone v hmem
      · exact hleaves q hmem
    exact (hp.resolve_left fun hname => hnot (hiff.mp hname)).1

/-- The polynomial of `2 + (x - x)` has the name `x`, although it is a constant on both sides of the
sum. -/
theorem name_of_normalize_cancelled :
    let t : Expr Double := .binary .plus (.const 2) (.binary .minus (.var "x") (.var "x"))
    (∀ name, var name ∈ t.nodes → name = "x") ∧ (∀ q, poly q ∉ t.nodes) ∧
      ∃ p, t.normalize = .poly p ∧ p.name = "x" ∧ p.degree = 0 := by
  intro t
  have hnodes : t.nodes =
      [.const 2, .var "x", .var "x", .binary .minus (.var "x") (.var "x"), t] := by
    rw [nodes_eq_postOrder]
    rfl
  have hvars : ∀ name, var name ∈ t.nodes → name = "x" := by simp [hnodes, t]
  have hleaves : ∀ q, poly q ∉ t.nodes := by simp [hnodes, t]
  obtain ⟨p, hp⟩ : ∃ p, t.normalize = .poly p := ⟨_, rfl⟩
  obtain ⟨hname, -, -⟩ := name_of_normalize (by decide) hvars hleaves hp
  refine ⟨hvars, hleaves, p, hp, hname ⟨"x", by simp [hnodes]⟩, ?_⟩
  obtain rfl := Expr.poly.inj hp
  decide

end Expr

end Univariate
