import Mathlib
import Univariate.Proofs.Degree

/-!
# Which trees are expanded

Two recursions decide whether a tree is expanded. One looks at the form of the tree only, the other
one builds the polynomial and may give up on the way. It gives up where a power of a composite base
would lead beyond the bound on the degree, and this depends on the degree that the base has after it
was expanded, which the form of the tree does not tell.

So the two agree up to that condition. A tree is expanded if and only if it has the form of a
polynomial and all the powers in it stay within the bound. The exponents of these powers are doubles
that stand for natural numbers, and none of them is too large to be counted with.

## Main definitions

* `Double.value?`: the rational number that a double stands for.
* `Expr.RaisesWithin`, `Expr.PowersWithin`: the powers that stay within the bound.

## Main results

* `Double.toNat?_eq_some_iff`: a double is turned into the natural number that it stands for.
* `Expr.isPolynomial_of_expand?`: only trees of the form of a polynomial are expanded.
* `Expr.isSome_expand?_iff`: which trees are expanded.
* `Expr.normalize_eq_poly_iff_powersWithin`: what becomes of a tree, and of the exponents in it.
-/

namespace Univariate

/-! ### Exponents -/

/-- A power of two as a fraction of natural numbers. -/
theorem two_zpow_eq_div (q : ℤ) : (2 : ℚ) ^ q = 2 ^ q.toNat / 2 ^ (-q).toNat := by
  obtain ⟨n, rfl | rfl⟩ := q.eq_nat_or_neg
  · simp
  · simp

/-- A fraction of natural numbers is the natural number that is left when it divides. -/
theorem natCast_div_eq_iff {a b n : ℕ} (hb : 0 < b) :
    (a : ℚ) / b = n ↔ a % b = 0 ∧ a / b = n := by
  have hne : (b : ℚ) ≠ 0 := by exact_mod_cast hb.ne'
  rw [div_eq_iff hne]
  norm_cast
  constructor
  · rintro rfl
    exact ⟨Nat.mul_mod_left n b, Nat.mul_div_cancel n hb⟩
  · rintro ⟨hmod, rfl⟩
    exact (Nat.div_mul_cancel (Nat.dvd_of_mod_eq_zero hmod)).symm

namespace Double

/-- The number that a finite double stands for. -/
def value? (x : Double) : Option ℚ :=
  x.parts?.map fun p => (if p.negative then -1 else 1) * (p.m * 2 ^ p.q)

/-- **A double is turned into the natural number that it stands for**, and no other double is turned
into a natural number. -/
theorem toNat?_eq_some_iff (x : Double) (n : ℕ) : x.toNat? = some n ↔ x.value? = some (n : ℚ) := by
  rw [toNat?, value?]
  cases x.parts? with
  | none => simp
  | some p =>
    obtain ⟨negative, m, q, narrow⟩ := p
    have hunit : 0 < 2 ^ (-q).toNat := Nat.two_pow_pos _
    have hvalue : (m : ℚ) * 2 ^ q = (m * 2 ^ q.toNat : ℕ) / (2 ^ (-q).toNat : ℕ) := by
      rw [two_zpow_eq_div, mul_div_assoc']
      push_cast
      rfl
    have hnat := natCast_div_eq_iff (a := m * 2 ^ q.toNat) (n := n) hunit
    rw [← hvalue] at hnat
    cases negative with
    | false => simpa using hnat.symm
    | true =>
      -- of the numbers with a sign, only zero is a natural number
      rcases Nat.eq_zero_or_pos m with rfl | hm
      · simpa using hnat.symm
      · have hpos : (0 : ℚ) < m * 2 ^ q := by positivity
        have hneg : -((m : ℚ) * 2 ^ q) ≠ n := by
          have : (0 : ℚ) ≤ n := n.cast_nonneg
          intro h
          linarith
        simp [hm.ne', hneg]

end Double

/-! ### Trees -/

namespace Expr

variable {R : Type} [Zero R] [BEq R] [Numeral R] {t u l r base exponent : Expr R} {p : Poly R}

/-- Every part of a tree that has the form of a polynomial has that form, the exponents included. -/
theorem isPolynomial_of_mem_nodes (h : t.isPolynomial = true) (hu : u ∈ t.nodes) :
    u.isPolynomial = true := by
  induction t with
  | unary op w ih =>
    obtain hmem | rfl := mem_nodes_unary.mp hu
    · cases op with
      | group | negate => exact ih h hmem
      | _ => contradiction
    · exact h
  | binary op l r ihl ihr =>
    obtain hmem | hmem | rfl := mem_nodes_binary.mp hu
    · cases op with
      | plus | minus | times | pow => exact ihl (Bool.and_eq_true_iff.mp h).1 hmem
      | div => contradiction
    · cases op with
      | plus | minus | times => exact ihr (Bool.and_eq_true_iff.mp h).2 hmem
      | div => contradiction
      | pow =>
        obtain ⟨n, hn⟩ := Option.isSome_iff_exists.mp (Bool.and_eq_true_iff.mp h).2
        obtain ⟨k, rfl, -⟩ := exists_const_of_expandableExponent? hn
        obtain rfl := List.mem_singleton.mp hmem
        rfl
    · exact h
  | _ =>
    obtain rfl := List.mem_singleton.mp hu
    exact h

variable [One R] [Add R] [Sub R] [Mul R] [Neg R] [Elementary R]

/-- A power whose base is expanded, and leads no further than to the largest degree. -/
def RaisesWithin (base exponent : Expr R) : Prop :=
  ∃ p k n, base.normalize = .poly p ∧ exponent = .const k ∧ Numeral.toNat? k = some n ∧
    p.degree * n ≤ maxDegree

/-- The powers in a tree stay within the bound on the degree. Those of a number and of the variable
do so by their form. -/
def PowersWithin (t : Expr R) : Prop :=
  ∀ base exponent, binary .pow base exponent ∈ t.nodes → base.isConst = false →
    base.isVar = false → RaisesWithin base exponent

theorem powersWithin_unary {op : UnaryOp} : (unary op u).PowersWithin ↔ u.PowersWithin := by
  constructor
  · exact fun h base exponent hmem => h base exponent (mem_nodes_unary.mpr (.inl hmem))
  · intro h base exponent hmem
    obtain hmem | heq := mem_nodes_unary.mp hmem
    · exact h base exponent hmem
    · contradiction

theorem powersWithin_binary {op : BinaryOp} : (binary op l r).PowersWithin ↔
    l.PowersWithin ∧ r.PowersWithin ∧
      (op = .pow → l.isConst = false → l.isVar = false → RaisesWithin l r) := by
  constructor
  · intro h
    refine ⟨fun base exponent hmem => ?_, fun base exponent hmem => ?_, ?_⟩
    · exact h base exponent (mem_nodes_binary.mpr (.inl hmem))
    · exact h base exponent (mem_nodes_binary.mpr (.inr (.inl hmem)))
    · rintro rfl
      exact h l r (mem_nodes_binary.mpr (.inr (.inr rfl)))
  · rintro ⟨hl, hr, hpow⟩ base exponent hmem
    obtain hmem | hmem | heq := mem_nodes_binary.mp hmem
    · exact hl base exponent hmem
    · exact hr base exponent hmem
    · obtain ⟨rfl, rfl, rfl⟩ := Expr.binary.inj heq
      exact hpow rfl

/-- A leaf contains no powers. -/
theorem powersWithin_of_nodes_eq (h : t.nodes = [t]) (hkind : t.kind ≠ .binary .pow) :
    t.PowersWithin := by
  intro base exponent hmem
  rw [h] at hmem
  obtain rfl := List.mem_singleton.mp hmem
  exact absurd rfl hkind

/-- **Only trees of the form of a polynomial are expanded.** -/
theorem isPolynomial_of_expand? (h : t.expand? = some p) : t.isPolynomial = true := by
  induction t generalizing p with
  | error offset => simp [expand?] at h
  | unary op u ih =>
    cases op with
    | group => exact ih h
    | negate =>
      rw [expand?] at h
      obtain ⟨q, hq, -⟩ := Option.map_eq_some_iff.mp h
      exact ih hq
    | _ => simp [expand?] at h
  | binary op l r ihl ihr =>
    cases op with
    | plus | minus | times =>
      rw [expand?] at h
      obtain ⟨q₁, q₂, hq₁, hq₂, -⟩ := exists_of_both h
      exact Bool.and_eq_true_iff.mpr ⟨ihl hq₁, ihr hq₂⟩
    | div => simp [expand?] at h
    | pow =>
      cases hn : expandableExponent? l r with
      | none =>
        rw [expand?_pow_of_none hn] at h
        contradiction
      | some n =>
        obtain ⟨k, rfl, -⟩ := exists_const_of_expandableExponent? hn
        refine Bool.and_eq_true_iff.mpr ⟨?_, Option.isSome_iff_exists.mpr ⟨n, hn⟩⟩
        rw [expand?_pow_of_some hn] at h
        split at h
        · rfl
        · rfl
        · obtain ⟨q, hq, -⟩ := Option.bind_eq_some_iff.mp h
          exact ihl hq
  | _ => rfl

/-- The polynomial in place of a tree is what the tree is expanded into. -/
theorem normalize_eq_poly_iff : t.normalize = .poly p ↔ t.expand? = some p := by
  refine ⟨expand?_of_normalize_eq_poly, fun h => ?_⟩
  rw [normalize, if_pos (isPolynomial_of_expand? h), h]

omit [Numeral R] [One R] [Add R] [Sub R] [Mul R] [Neg R] [Elementary R] in
/-- Two operands are combined if both are expanded. -/
theorem isSome_both {x y : Option (Poly R)} {f : Poly R → Poly R → Poly R} :
    (do return f (← x) (← y)).isSome = (x.isSome && y.isSome) := by
  cases x <;> cases y <;> rfl

/-- The base of a power that stays within the bound is expanded. -/
theorem isSome_expand?_base
    (h : base.isConst = false → base.isVar = false → RaisesWithin base exponent) :
    base.expand?.isSome = true := by
  cases base with
  | const c => rfl
  | var name => rfl
  | _ =>
    obtain ⟨p, -, -, hp, -⟩ := h rfl rfl
    exact Option.isSome_iff_exists.mpr ⟨p, normalize_eq_poly_iff.mp hp⟩

/-- A power of the form of a polynomial is expanded if it stays within the bound. -/
theorem isSome_expand?_pow_iff : (binary .pow l r).expand?.isSome = true ↔
    (expandableExponent? l r).isSome = true ∧
      (l.isConst = false → l.isVar = false → RaisesWithin l r) := by
  cases hn : expandableExponent? l r with
  | none => simp [expand?_pow_of_none hn]
  | some n =>
    obtain ⟨k, rfl, hk, -⟩ := exists_const_of_expandableExponent? hn
    have hraises : (l.expand?.bind fun p => expandPower? p n).isSome = true ↔
        RaisesWithin l (.const k) := by
      rw [Option.isSome_iff_exists]
      constructor
      · rintro ⟨q, hq⟩
        obtain ⟨p, hp, hpower⟩ := Option.bind_eq_some_iff.mp hq
        rw [expandPower?, Option.ite_none_right_eq_some] at hpower
        exact ⟨p, k, n, normalize_eq_poly_iff.mpr hp, rfl, hk, hpower.1⟩
      · rintro ⟨p, k', n', hp, hk', hn', hle⟩
        obtain rfl := Expr.const.inj hk'
        obtain rfl : n = n' := Option.some.inj (hk.symm.trans hn')
        refine ⟨p.pow n, ?_⟩
        rw [normalize_eq_poly_iff.mp hp, Option.bind_some, expandPower?, if_pos hle]
    rw [expand?_pow_of_some hn]
    cases l with
    | const c => simp [isConst]
    | var name => simp [isVar]
    | _ => simpa [isConst, isVar] using hraises

/-- **Which trees are expanded.** A tree is expanded if and only if it has the form of a polynomial
and the powers in it stay within the bound. -/
theorem isSome_expand?_iff :
    t.expand?.isSome = true ↔ t.isPolynomial = true ∧ t.PowersWithin := by
  induction t with
  | unary op u ih =>
    rw [powersWithin_unary]
    cases op with
    | group => exact ih
    | negate =>
      rw [expand?, Option.isSome_map]
      exact ih
    | _ => simp [expand?, isPolynomial]
  | binary op l r ihl ihr =>
    rw [powersWithin_binary]
    cases op with
    | plus | minus | times =>
      rw [expand?, isSome_both, isPolynomial, Bool.and_eq_true, Bool.and_eq_true, ihl, ihr]
      simp only [reduceCtorEq, false_imp_iff, and_true]
      exact and_and_and_comm
    | div => simp [expand?, isPolynomial]
    | pow =>
      rw [isSome_expand?_pow_iff, isPolynomial, Bool.and_eq_true]
      constructor
      · rintro ⟨hexponent, hraises⟩
        obtain ⟨hform, hwithin⟩ := ihl.mp (isSome_expand?_base hraises)
        obtain ⟨n, hn⟩ := Option.isSome_iff_exists.mp hexponent
        obtain ⟨k, rfl, -⟩ := exists_const_of_expandableExponent? hn
        exact ⟨⟨hform, hexponent⟩, hwithin, powersWithin_of_nodes_eq rfl (by simp [kind]),
          fun _ => hraises⟩
      · rintro ⟨⟨-, hexponent⟩, -, -, hraises⟩
        exact ⟨hexponent, hraises rfl⟩
  | error offset => simp [expand?, isPolynomial]
  | _ => exact iff_of_true rfl ⟨rfl, powersWithin_of_nodes_eq rfl (by simp [kind])⟩

/-- A tree that is not expanded stays as it is. -/
theorem normalize_cases (t : Expr R) : t.normalize = t ∨ ∃ p, t.normalize = .poly p := by
  cases h : t.expand? with
  | none =>
    left
    rw [normalize, h]
    split <;> rfl
  | some p => exact .inr ⟨p, normalize_eq_poly_iff.mpr h⟩

omit [One R] [Add R] [Sub R] [Mul R] [Neg R] [Elementary R] in
/-- The exponents in a tree of the form of a polynomial are natural numbers, and those of composite
bases are within the bound. -/
theorem exists_exponent_of_isPolynomial (h : t.isPolynomial = true)
    (hmem : binary .pow base exponent ∈ t.nodes) (hbase : base.isConst = false) :
    ∃ k n, exponent = .const k ∧ Numeral.toNat? k = some n ∧ n ≤ maxDegree := by
  have hpow := isPolynomial_of_mem_nodes h hmem
  obtain ⟨n, hn⟩ := Option.isSome_iff_exists.mp (Bool.and_eq_true_iff.mp hpow).2
  obtain ⟨k, rfl, hk, hbound⟩ := exists_const_of_expandableExponent? hn
  exact ⟨k, n, rfl, hk, hbound.resolve_left (by simp [hbase])⟩

/-- **The form of a tree and its expansion agree.** A tree stays as it is or becomes a polynomial.
It becomes one if and only if it has the form of a polynomial, and the base of each power in it,
except for numbers and the variable, becomes a polynomial whose degree times the exponent is within
the bound. No tree of another form is expanded. The exponents that are counted with stand for
natural numbers within the bound, so that nothing is cut off when they are turned into natural
numbers. -/
theorem normalize_eq_poly_iff_powersWithin (t : Expr Double) :
    (t.normalize = t ∨ ∃ p, t.normalize = .poly p) ∧
    ((∃ p, t.normalize = .poly p) ↔ t.isPolynomial = true ∧
      ∀ base exponent, binary .pow base exponent ∈ t.nodes → base.isConst = false →
        base.isVar = false → ∃ (p : Poly Double) (k : Double) (n : ℕ), base.normalize = .poly p ∧
          exponent = .const k ∧ k.value? = some (n : ℚ) ∧ p.degree * n ≤ maxDegree) ∧
    (∀ p, t.expand? = some p → t.isPolynomial = true) ∧
    (t.isPolynomial = true → ∀ base exponent, binary .pow base exponent ∈ t.nodes →
      base.isConst = false → ∃ (k : Double) (n : ℕ), exponent = .const k ∧ k.toNat? = some n ∧
        k.value? = some (n : ℚ) ∧ n ≤ maxDegree) := by
  have hvalue : ∀ base exponent : Expr Double, RaisesWithin base exponent ↔
      ∃ (p : Poly Double) (k : Double) (n : ℕ), base.normalize = .poly p ∧ exponent = .const k ∧
        k.value? = some (n : ℚ) ∧ p.degree * n ≤ maxDegree := by
    intro base exponent
    simp only [← Double.toNat?_eq_some_iff]
    rfl
  refine ⟨t.normalize_cases, ?_, fun _ => isPolynomial_of_expand?, ?_⟩
  · simp only [← hvalue]
    have hexpand : (∃ p, t.normalize = .poly p) ↔ t.expand?.isSome = true := by
      simp only [normalize_eq_poly_iff, Option.isSome_iff_exists]
    exact hexpand.trans isSome_expand?_iff
  · intro h base exponent hmem hbase
    obtain ⟨k, n, hexponent, hk, hle⟩ := exists_exponent_of_isPolynomial h hmem hbase
    exact ⟨k, n, hexponent, hk, (k.toNat?_eq_some_iff n).mp hk, hle⟩

end Expr

end Univariate
