import Mathlib.Order.Bounds.Basic
import Mathlib.Order.MinMax
import Univariate.Double.Text
import Univariate.Normalize
import Univariate.Proofs.ReadBack
import Univariate.Proofs.VariableNames

/-!
# Degrees of expansions

The bound on the degree is looked at where a power is expanded, and nowhere else. Sums and
differences do not need it, since they do not raise the degree. Products do. A product of two
polynomials within the bound may have any degree up to twice the bound, and it is expanded all the
same.

How far a tree can lead beyond the bound depends on how many factors are multiplied in it. A power
counts as one factor, however large its exponent is, because it was expanded within the bound, and
what has no variable counts as none. The degree of an expansion is at most the bound times the
number of factors, and for each number of factors there is a tree that comes to exactly that degree.

## Main definitions

* `Expr.LeavesWithin`: the trees that are within the bound before they are expanded.
* `Expr.factorCount`: the number of factors in a tree.
* `Expr.HasOverflow`: the trees with a product that leads beyond the bound.
* `Expr.powerProduct`: a product of powers, each of which reaches the bound.

## Main results

* `Expr.degree_of_expand?`: the number of factors bounds the degree.
* `Expr.hasOverflow_of_expand?`: only products lead beyond the bound.
* `Expr.isGreatest_degree`: there is no smaller bound by the number of factors.
* `Expr.degree_of_normalize`, `Expr.degree_of_normalize_parse`: what this says of the expansion of a
  tree, and of a text.
-/

namespace Univariate

variable {R : Type} [Zero R] [BEq R]

/-! ### Polynomials -/

theorem length_dropZeros_le (cs : List R) : (dropZeros cs).length ≤ cs.length := by
  fun_induction dropZeros cs <;> simp_all

namespace Poly

theorem length_coeffs (p : Poly R) : p.coeffs.length = p.degree + 1 := by
  have := List.length_pos_iff.mpr p.isTrimmed.1
  rw [degree]
  omega

/-- Trimming does not raise the degree. -/
theorem degree_ofCoeffs_le (name : String) (cs : List R) :
    (ofCoeffs name cs).degree ≤ cs.length - 1 := by
  rw [degree, coeffs_ofCoeffs]
  cases cs with
  | nil => rfl
  | cons c cs => exact length_dropZeros_le cs

theorem degree_monomial_le (name : String) (power : Nat) (c : R) :
    (monomial name power c).degree ≤ power := by
  have h := degree_ofCoeffs_le name (List.replicate power 0 ++ [c])
  rwa [List.length_append, List.length_replicate, List.length_singleton, Nat.add_sub_cancel] at h

theorem degree_neg_le [Neg R] (p : Poly R) : p.neg.degree ≤ p.degree := by
  have h := degree_ofCoeffs_le p.name (p.coeffs.map fun c => -c)
  rwa [List.length_map, length_coeffs, Nat.add_sub_cancel] at h

/-- Padding does not raise the degree above the larger of the two. -/
theorem degree_zipPadded_le (name : String) (op : R → R → R) (p q : Poly R) :
    (ofCoeffs name (zipPadded op p.coeffs q.coeffs)).degree ≤ max p.degree q.degree := by
  have h := degree_ofCoeffs_le name (zipPadded op p.coeffs q.coeffs)
  rw [length_zipPadded, length_coeffs, length_coeffs] at h
  omega

theorem degree_add_le [Add R] (p q : Poly R) : (p.add q).degree ≤ max p.degree q.degree :=
  degree_zipPadded_le _ _ p q

theorem degree_sub_le [Sub R] (p q : Poly R) : (p.sub q).degree ≤ max p.degree q.degree :=
  degree_zipPadded_le _ _ p q

variable [Add R] [Mul R]

theorem degree_mul_le (p q : Poly R) : (p.mul q).degree ≤ p.degree + q.degree := by
  have h := degree_ofCoeffs_le (combinedName p q) (convolve p.coeffs q.coeffs)
  rw [length_convolve, length_coeffs, length_coeffs] at h
  rw [mul]
  omega

/-- What one round of repeated squaring preserves: the degree of the result, and `k` times that of
the square. -/
theorem degree_powAux_le (result square : Poly R) (k : Nat) :
    (powAux result square k).degree ≤ result.degree + square.degree * k := by
  induction k using Nat.strongRecOn generalizing result square with
  | ind k ih =>
    have hdigits : k = 2 * (k / 2) + k % 2 := (Nat.div_add_mod k 2).symm
    have hdigit : (if k % 2 = 1 then result.mul square else result).degree ≤
        result.degree + square.degree * (k % 2) := by
      split
      · next hodd =>
        rw [hodd, Nat.mul_one]
        exact degree_mul_le result square
      · exact Nat.le_add_right ..
    rw [powAux]
    split
    · exact Nat.le_add_right ..
    · next hk =>
      dsimp only
      split
      · next hlast =>
        rw [show k % 2 = k by omega] at hdigit ⊢
        exact hdigit
      · have hsquare : (square.mul square).degree * (k / 2) ≤ square.degree * (2 * (k / 2)) := by
          rw [← Nat.mul_assoc, Nat.mul_two]
          exact Nat.mul_le_mul_right _ (degree_mul_le square square)
        have hsum : square.degree * k =
            square.degree * (2 * (k / 2)) + square.degree * (k % 2) := by
          rw [← Nat.mul_add, ← hdigits]
        have hrest := ih (k / 2) (by omega)
          (if k % 2 = 1 then result.mul square else result) (square.mul square)
        omega

theorem degree_pow_le [One R] (p : Poly R) (k : Nat) : (p.pow k).degree ≤ p.degree * k := by
  have h := degree_powAux_le (ofCoeffs p.name [1]) p k
  rwa [show (ofCoeffs p.name [(1 : R)]).degree = 0 from rfl, Nat.zero_add] at h

end Poly

/-! ### Trees -/

namespace Expr

/-- The polynomials in the leaves of a tree are within the bound. -/
def LeavesWithin (t : Expr R) : Prop :=
  ∀ q : Poly R, poly q ∈ t.nodes → q.degree ≤ maxDegree

theorem leavesWithin_var (name : String) : LeavesWithin (var name : Expr R) := by
  intro q hq
  have := List.mem_singleton.mp hq
  contradiction

theorem leavesWithin_const (c : R) : LeavesWithin (const c) := by
  intro q hq
  have := List.mem_singleton.mp hq
  contradiction

theorem LeavesWithin.unary {u : Expr R} (op : UnaryOp) (h : LeavesWithin u) :
    LeavesWithin (.unary op u) := by
  intro q hq
  obtain hq | hq := mem_nodes_unary.mp hq
  · exact h q hq
  · contradiction

theorem LeavesWithin.binary {l r : Expr R} (op : BinaryOp) (hl : LeavesWithin l)
    (hr : LeavesWithin r) : LeavesWithin (.binary op l r) := by
  intro q hq
  obtain hq | hq | hq := mem_nodes_binary.mp hq
  · exact hl q hq
  · exact hr q hq
  · contradiction

theorem LeavesWithin.of_unary {op : UnaryOp} {u : Expr R} (h : LeavesWithin (.unary op u)) :
    LeavesWithin u :=
  fun q hq => h q (mem_nodes_unary.mpr (.inl hq))

theorem LeavesWithin.of_binary {op : BinaryOp} {l r : Expr R} (h : LeavesWithin (.binary op l r)) :
    LeavesWithin l ∧ LeavesWithin r :=
  ⟨fun q hq => h q (mem_nodes_binary.mpr (.inl hq)),
    fun q hq => h q (mem_nodes_binary.mpr (.inr (.inl hq)))⟩

/-- The number of factors that are multiplied with each other in a tree. What has no variable is not
counted, and a power counts as one. -/
def factorCount : Expr R → Nat
  | .var _ => 1
  | .poly p => min 1 p.degree
  | .unary _ u => u.factorCount
  | .binary .times l r => l.factorCount + r.factorCount
  | .binary .pow base _ => min 1 base.factorCount
  | .binary .plus l r | .binary .minus l r | .binary .div l r => max l.factorCount r.factorCount
  | .const _ | .error _ => 0

variable [One R] [Add R] [Sub R] [Mul R] [Neg R] [Numeral R] [Elementary R] {t : Expr R}
  {p : Poly R}

/-- What a power is expanded into: a constant, a power of the variable, or a power of what the base
is expanded into. The bound is looked at in the last two cases. -/
theorem degree_of_expand?_pow {base exponent : Expr R}
    (h : (binary .pow base exponent).expand? = some p) :
    p.degree = 0 ∨ (base.isVar = true ∧ p.degree ≤ maxDegree) ∨
      ∃ q k, base.expand? = some q ∧ p.degree ≤ q.degree * k ∧ q.degree * k ≤ maxDegree := by
  cases hn : expandableExponent? base exponent with
  | none =>
    rw [expand?_pow_of_none hn] at h
    contradiction
  | some n =>
    obtain ⟨k, rfl, -, hbound⟩ := exists_const_of_expandableExponent? hn
    rw [expand?_pow_of_some hn] at h
    split at h
    · obtain rfl := Option.some.inj h
      exact .inl rfl
    · next name _ =>
      obtain rfl := Option.some.inj h
      have hle : n ≤ maxDegree := by simpa [isConst] using hbound
      exact .inr (.inl ⟨rfl, (Poly.degree_monomial_le name n 1).trans hle⟩)
    · obtain ⟨q, hq, hpower⟩ := Option.bind_eq_some_iff.mp h
      rw [expandPower?, Option.ite_none_right_eq_some] at hpower
      obtain ⟨hle, hpower⟩ := hpower
      obtain rfl := Option.some.inj hpower
      exact .inr (.inr ⟨q, n, hq, Poly.degree_pow_le q n, hle⟩)

/-- A power is expanded within the bound, whatever its base is. -/
theorem degree_le_of_expand?_pow {base exponent : Expr R}
    (h : (binary .pow base exponent).expand? = some p) : p.degree ≤ maxDegree := by
  obtain hzero | ⟨-, hle⟩ | ⟨q, k, -, hpower, hle⟩ := degree_of_expand?_pow h
  · omega
  · exact hle
  · exact hpower.trans hle

/-- **The number of factors bounds the degree.** -/
theorem degree_of_expand? (hleaves : LeavesWithin t) (h : t.expand? = some p) :
    p.degree ≤ maxDegree * t.factorCount := by
  induction t generalizing p with
  | const c =>
    obtain rfl := Option.some.inj h
    exact Nat.zero_le _
  | var name =>
    obtain rfl := Option.some.inj h
    have hone : 1 ≤ maxDegree := by decide
    exact (Poly.degree_monomial_le name 1 1).trans hone
  | error offset => simp [expand?] at h
  | poly q =>
    obtain rfl := Option.some.inj h
    have hq := hleaves q (List.mem_singleton.mpr rfl)
    rcases Nat.eq_zero_or_pos q.degree with hzero | hpos
    · exact hzero ▸ Nat.zero_le _
    · rwa [factorCount, Nat.min_eq_left hpos, Nat.mul_one]
  | unary op u ih =>
    have ih := fun q => ih (p := q) hleaves.of_unary
    cases op with
    | group => exact ih p h
    | negate =>
      rw [expand?] at h
      obtain ⟨q, hq, rfl⟩ := Option.map_eq_some_iff.mp h
      exact (Poly.degree_neg_le q).trans (ih q hq)
    | _ => simp [expand?] at h
  | binary op l r ihl ihr =>
    have ihl := fun q => ihl (p := q) hleaves.of_binary.1
    have ihr := fun q => ihr (p := q) hleaves.of_binary.2
    cases op with
    | plus =>
      rw [expand?] at h
      obtain ⟨q₁, q₂, hq₁, hq₂, rfl⟩ := exists_of_both h
      rw [factorCount, ← Nat.mul_max_mul_left]
      exact (Poly.degree_add_le q₁ q₂).trans (max_le_max (ihl q₁ hq₁) (ihr q₂ hq₂))
    | minus =>
      rw [expand?] at h
      obtain ⟨q₁, q₂, hq₁, hq₂, rfl⟩ := exists_of_both h
      rw [factorCount, ← Nat.mul_max_mul_left]
      exact (Poly.degree_sub_le q₁ q₂).trans (max_le_max (ihl q₁ hq₁) (ihr q₂ hq₂))
    | times =>
      rw [expand?] at h
      obtain ⟨q₁, q₂, hq₁, hq₂, rfl⟩ := exists_of_both h
      rw [factorCount, Nat.mul_add]
      exact (Poly.degree_mul_le q₁ q₂).trans (Nat.add_le_add (ihl q₁ hq₁) (ihr q₂ hq₂))
    | div => simp [expand?] at h
    | pow =>
      have hle := degree_le_of_expand?_pow h
      rw [factorCount]
      rcases Nat.eq_zero_or_pos l.factorCount with hzero | hpos
      · -- a base without a factor is not the variable, and is expanded into a constant
        obtain hp | ⟨hvar, -⟩ | ⟨q, k, hq, hpower, -⟩ := degree_of_expand?_pow h
        · exact hp ▸ Nat.zero_le _
        · cases l <;> simp [isVar, factorCount] at hvar hzero
        · have hconstant := ihl q hq
          rw [hzero, Nat.mul_zero, Nat.le_zero] at hconstant
          rw [hconstant, Nat.zero_mul] at hpower
          exact hpower.trans (Nat.zero_le _)
      · rwa [Nat.min_eq_left hpos, Nat.mul_one]

/-- A product in a tree of two operands that are expanded within the bound, while the product is
expanded beyond it. -/
def HasOverflow (t : Expr R) : Prop :=
  ∃ l r q₁ q₂, binary .times l r ∈ t.nodes ∧ l.expand? = some q₁ ∧ r.expand? = some q₂ ∧
    q₁.degree ≤ maxDegree ∧ q₂.degree ≤ maxDegree ∧ maxDegree < (q₁.mul q₂).degree

theorem HasOverflow.unary {op : UnaryOp} {u : Expr R} (h : HasOverflow u) :
    HasOverflow (.unary op u) := by
  obtain ⟨l, r, q₁, q₂, hmem, hrest⟩ := h
  exact ⟨l, r, q₁, q₂, mem_nodes_unary.mpr (.inl hmem), hrest⟩

theorem HasOverflow.binary {op : BinaryOp} {l r : Expr R} (h : HasOverflow l ∨ HasOverflow r) :
    HasOverflow (.binary op l r) := by
  obtain ⟨l', r', q₁, q₂, hmem, hrest⟩ | ⟨l', r', q₁, q₂, hmem, hrest⟩ := h
  · exact ⟨l', r', q₁, q₂, mem_nodes_binary.mpr (.inl hmem), hrest⟩
  · exact ⟨l', r', q₁, q₂, mem_nodes_binary.mpr (.inr (.inl hmem)), hrest⟩

/-- **Only products lead beyond the bound.** -/
theorem hasOverflow_of_expand? (hleaves : LeavesWithin t) (h : t.expand? = some p)
    (hp : maxDegree < p.degree) : HasOverflow t := by
  induction t generalizing p with
  | const c =>
    obtain rfl := Option.some.inj h
    exact absurd hp (Nat.not_lt_zero _)
  | var name =>
    obtain rfl := Option.some.inj h
    have hone : 1 ≤ maxDegree := by decide
    exact absurd ((Poly.degree_monomial_le name 1 1).trans hone) (Nat.not_le_of_lt hp)
  | error offset => simp [expand?] at h
  | poly q =>
    obtain rfl := Option.some.inj h
    exact absurd (hleaves q (List.mem_singleton.mpr rfl)) (Nat.not_le_of_lt hp)
  | unary op u ih =>
    have hu := fun q => ih (p := q) hleaves.of_unary
    cases op with
    | group => exact (hu p h hp).unary
    | negate =>
      rw [expand?] at h
      obtain ⟨q, hq, rfl⟩ := Option.map_eq_some_iff.mp h
      exact (hu q hq (hp.trans_le (Poly.degree_neg_le q))).unary
    | _ => simp [expand?] at h
  | binary op l r ihl ihr =>
    have hl := fun q => ihl (p := q) hleaves.of_binary.1
    have hr := fun q => ihr (p := q) hleaves.of_binary.2
    cases op with
    | plus =>
      rw [expand?] at h
      obtain ⟨q₁, q₂, hq₁, hq₂, rfl⟩ := exists_of_both h
      have hmax := lt_max_iff.mp (hp.trans_le (Poly.degree_add_le q₁ q₂))
      exact .binary (hmax.imp (hl q₁ hq₁) (hr q₂ hq₂))
    | minus =>
      rw [expand?] at h
      obtain ⟨q₁, q₂, hq₁, hq₂, rfl⟩ := exists_of_both h
      have hmax := lt_max_iff.mp (hp.trans_le (Poly.degree_sub_le q₁ q₂))
      exact .binary (hmax.imp (hl q₁ hq₁) (hr q₂ hq₂))
    | times =>
      rw [expand?] at h
      obtain ⟨q₁, q₂, hq₁, hq₂, rfl⟩ := exists_of_both h
      -- either this is the product, or an operand is beyond the bound already
      by_cases hwithin : q₁.degree ≤ maxDegree ∧ q₂.degree ≤ maxDegree
      · exact ⟨l, r, q₁, q₂, mem_nodes_binary.mpr (.inr (.inr rfl)), hq₁, hq₂, hwithin.1, hwithin.2,
          hp⟩
      · have hone : maxDegree < q₁.degree ∨ maxDegree < q₂.degree := by omega
        exact .binary (hone.imp (hl q₁ hq₁) (hr q₂ hq₂))
    | div => simp [expand?] at h
    | pow => exact absurd (degree_le_of_expand?_pow h) (Nat.not_le_of_lt hp)

/-- A tree whose expansion is a polynomial has this polynomial. -/
theorem expand?_of_normalize_eq_poly (h : t.normalize = poly p) : t.expand? = some p := by
  rw [normalize] at h
  split at h
  · split at h
    · next q hq =>
      obtain rfl : q = p := by simpa using h
      exact hq
    · exact h ▸ rfl
  · exact h ▸ rfl

end Expr

/-! ### Products of powers -/

/-- What the arithmetic of zero and one has to be like for a product of powers to be a power. -/
structure UnitArithmetic (R : Type) [Zero R] [One R] [Add R] [Mul R] [BEq R] : Prop where
  zero_add_zero : (0 : R) + 0 = 0
  zero_add_one : (0 : R) + 1 = 1
  zero_mul_zero : (0 : R) * 0 = 0
  zero_mul_one : (0 : R) * 1 = 0
  one_mul_zero : (1 : R) * 0 = 0
  one_mul_one : (1 : R) * 1 = 1
  one_beq_zero : ((1 : R) == 0) = false

theorem Double.unitArithmetic : UnitArithmetic Double :=
  ⟨rfl, rfl, rfl, rfl, rfl, rfl, rfl⟩

/-- A polynomial that is a power of its variable. -/
def Poly.IsPower [One R] (p : Poly R) (n : Nat) : Prop :=
  p.coeffs = List.replicate n 0 ++ [1]

theorem Poly.IsPower.degree_eq [One R] {p : Poly R} {n : Nat} (h : p.IsPower n) : p.degree = n := by
  rw [degree, h, List.length_append, List.length_replicate, List.length_singleton,
    Nat.add_sub_cancel]

section Units

variable [One R] [Add R] [Mul R] (hR : UnitArithmetic R)

include hR

theorem addFront_replicate_zero (n : Nat) (cs ds : List R) :
    addFront (List.replicate n 0 ++ cs) (List.replicate n 0 ++ ds) =
      List.replicate n 0 ++ addFront cs ds := by
  induction n with
  | zero => rfl
  | succ n ih => simp only [List.replicate_succ, List.cons_append, addFront, ih, hR.zero_add_zero]

omit hR [Zero R] [BEq R] [One R] in
theorem addMultiples_singleton (a : R) (bs sums : List R) :
    addMultiples [a] bs sums = addFront sums (bs.map (a * ·)) := by
  rw [addMultiples]
  split
  · next hnil => exact hnil.symm
  · next hcons => exact hcons.symm

omit hR [Zero R] [BEq R] [One R] in
theorem addMultiples_cons {a s : R} {as bs sums rest : List R}
    (h : addFront sums (bs.map (a * ·)) = s :: rest) :
    addMultiples (a :: as) bs sums = s :: addMultiples as bs rest := by
  rw [addMultiples, h]

/-- Every multiple by a zero adds nothing, and the multiple by the one is the right operand. -/
theorem addMultiples_powers (m n : Nat) :
    addMultiples (List.replicate m 0 ++ [1]) (List.replicate n 0 ++ [1])
      (List.replicate (m + (n + 1)) 0) = List.replicate (m + n) (0 : R) ++ [1] := by
  induction m with
  | zero =>
    have hone : (List.replicate n (0 : R) ++ [1]).map (1 * ·) = List.replicate n 0 ++ [1] := by
      simp [hR.one_mul_zero, hR.one_mul_one]
    have hsums : List.replicate (0 + (n + 1)) (0 : R) = List.replicate n 0 ++ [0] := by
      rw [Nat.zero_add, List.replicate_succ']
    rw [List.replicate_zero, List.nil_append, addMultiples_singleton, hone, hsums,
      addFront_replicate_zero hR, addFront, hR.zero_add_one, Nat.zero_add, addFront]
  | succ m ih =>
    have hzero : (List.replicate n (0 : R) ++ [1]).map (0 * ·) =
        List.replicate (n + 1) 0 ++ [] := by
      simp [hR.zero_mul_zero, hR.zero_mul_one, List.replicate_succ']
    have hsums : List.replicate (m + 1 + (n + 1)) (0 : R) =
        List.replicate (n + 1) 0 ++ List.replicate (m + 1) 0 := by
      rw [List.replicate_append_replicate, Nat.add_comm]
    have hfront : addFront (List.replicate (m + 1 + (n + 1)) 0)
        ((List.replicate n (0 : R) ++ [1]).map (0 * ·)) = 0 :: List.replicate (m + (n + 1)) 0 := by
      rw [hzero, hsums, addFront_replicate_zero hR, addFront, ← hsums, Nat.add_right_comm,
        List.replicate_succ]
    rw [List.replicate_succ, List.cons_append, addMultiples_cons hfront, ih, Nat.add_right_comm,
      List.replicate_succ, List.cons_append]

/-- A power of the variable keeps its coefficients. -/
theorem Poly.isPower_ofCoeffs (name : String) (n : Nat) :
    (ofCoeffs name (List.replicate n (0 : R) ++ [1])).IsPower n := by
  refine trimZeros_eq_self ⟨by simp, fun _ c hc => ?_⟩
  obtain rfl : 1 = c := by simpa using hc
  exact hR.one_beq_zero

/-- A product of powers is a power. -/
theorem Poly.IsPower.mul {p q : Poly R} {m n : Nat} (hp : p.IsPower m) (hq : q.IsPower n) :
    (p.mul q).IsPower (m + n) := by
  have hlength : m + 1 + (n + 1) - 1 = m + (n + 1) := by omega
  have hconvolve : convolve p.coeffs q.coeffs = List.replicate (m + n) 0 ++ [1] := by
    rw [convolve, p.length_coeffs, q.length_coeffs, hp.degree_eq, hq.degree_eq, hlength, hp, hq,
      addMultiples_powers hR]
  rw [Poly.mul, hconvolve]
  exact isPower_ofCoeffs hR _ (m + n)

end Units

namespace Expr

/-- A power of the largest degree that a power is expanded to. -/
def largestPower : Expr Double :=
  .binary .pow (.var "x") (.const (maxDegree : Nat))

/-- A product of such powers. -/
def powerProduct : Nat → Expr Double
  | 0 => .const 1
  | n + 1 => .binary .times (powerProduct n) largestPower

theorem leavesWithin_largestPower : largestPower.LeavesWithin :=
  (leavesWithin_var "x").binary .pow (leavesWithin_const _)

/-- A power of the largest degree is expanded. -/
theorem exists_expand?_largestPower : ∃ p, largestPower.expand? = some p ∧ p.IsPower maxDegree :=
  ⟨_, expand?_pow_of_some rfl, Poly.isPower_ofCoeffs Double.unitArithmetic "x" maxDegree⟩

/-- A product with a power of the largest degree is expanded, whatever the degree of the other
factor is. -/
theorem exists_expand?_times_largestPower {t : Expr Double} {p : Poly Double} {n : Nat}
    (ht : t.expand? = some p) (hp : p.IsPower n) :
    ∃ q, (binary .times t largestPower).expand? = some q ∧ q.IsPower (n + maxDegree) := by
  obtain ⟨q, hq, hpower⟩ := exists_expand?_largestPower
  refine ⟨p.mul q, ?_, hp.mul Double.unitArithmetic hpower⟩
  rw [expand?, ht, hq]
  rfl

theorem isPolynomial_powerProduct (n : Nat) : (powerProduct n).isPolynomial = true := by
  induction n with
  | zero => rfl
  | succ n ih =>
    rw [powerProduct, isPolynomial, ih]
    rfl

theorem factorCount_powerProduct (n : Nat) : (powerProduct n).factorCount = n := by
  induction n with
  | zero => rfl
  | succ n ih =>
    rw [powerProduct, factorCount, ih]
    rfl

theorem leavesWithin_powerProduct (n : Nat) : (powerProduct n).LeavesWithin := by
  induction n with
  | zero => exact leavesWithin_const 1
  | succ n ih => exact ih.binary .times leavesWithin_largestPower

/-- A product of powers is expanded, and its degree is the sum of theirs. -/
theorem exists_expand?_powerProduct (n : Nat) :
    ∃ p, (powerProduct n).expand? = some p ∧ p.IsPower (maxDegree * n) := by
  induction n with
  | zero => exact ⟨_, rfl, Poly.isPower_ofCoeffs Double.unitArithmetic "" 0⟩
  | succ n ih =>
    obtain ⟨p, hp, hpower⟩ := ih
    exact exists_expand?_times_largestPower hp hpower

/-- **No smaller bound.** Among the trees with a given number of factors, the greatest degree of an
expansion is the bound times that number. -/
theorem isGreatest_degree (n : Nat) :
    IsGreatest {d | ∃ (t : Expr Double) (p : Poly Double), t.LeavesWithin ∧ t.factorCount = n ∧
      t.normalize = poly p ∧ p.degree = d} (maxDegree * n) := by
  constructor
  · obtain ⟨p, hp, hpower⟩ := exists_expand?_powerProduct n
    refine ⟨powerProduct n, p, leavesWithin_powerProduct n, factorCount_powerProduct n, ?_,
      hpower.degree_eq⟩
    rw [normalize, if_pos (isPolynomial_powerProduct n), hp]
  · rintro _ ⟨t, p, hleaves, rfl, h, rfl⟩
    exact degree_of_expand? hleaves (expand?_of_normalize_eq_poly h)

/-- The product of the variable and a power of the largest degree is expanded beyond the bound. -/
theorem exists_normalize_var_times_largestPower :
    ∃ p, (binary .times (.var "x") largestPower).normalize = poly p ∧ p.degree = 1025 := by
  have hvar : (Poly.monomial "x" 1 (1 : Double)).IsPower 1 :=
    Poly.isPower_ofCoeffs Double.unitArithmetic "x" 1
  obtain ⟨p, hp, hpower⟩ := exists_expand?_times_largestPower (t := .var "x") rfl hvar
  refine ⟨p, ?_, hpower.degree_eq⟩
  rw [normalize, if_pos (by rfl), hp]

end Expr

/-! ### Trees within the bound -/

namespace Expr

variable [One R] [Add R] [Sub R] [Mul R] [Neg R] [Numeral R] [Elementary R] {t : Expr R}
  {p : Poly R}

/-- **How far an expansion leads.** If the polynomials in the leaves of a tree are within the bound,
the degree of its expansion is at most the bound times the number of factors. It is beyond the bound
only if there is a product in the tree that leads beyond it from two operands within it. -/
theorem degree_of_normalize (hleaves : LeavesWithin t) (h : t.normalize = poly p) :
    p.degree ≤ maxDegree * t.factorCount ∧ (maxDegree < p.degree → HasOverflow t) :=
  ⟨degree_of_expand? hleaves (expand?_of_normalize_eq_poly h),
    hasOverflow_of_expand? hleaves (expand?_of_normalize_eq_poly h)⟩

/-- The variable times a power of the largest degree. -/
theorem degree_of_normalize_product :
    let t : Expr Double := .binary .times (.var "x") largestPower
    t.LeavesWithin ∧ ∃ p, t.normalize = poly p ∧ p.degree = 1025 ∧
      p.degree ≤ maxDegree * t.factorCount ∧ HasOverflow t := by
  intro t
  have hleaves : t.LeavesWithin := (leavesWithin_var "x").binary .times leavesWithin_largestPower
  obtain ⟨p, hp, hdegree⟩ := exists_normalize_var_times_largestPower
  obtain ⟨hle, hoverflow⟩ := degree_of_normalize hleaves hp
  have hbeyond : maxDegree < p.degree := by
    rw [hdegree]
    decide
  exact ⟨hleaves, p, hp, hdegree, hle, hoverflow hbeyond⟩

/-- The text `x*x^1024` is expanded beyond the bound, and there are no polynomials in its leaves. -/
theorem maxDegree_lt_degree_normalize :
    (parse "x" "x*x^1024" : Expr Double).LeavesWithin ∧
      ∃ p, (parse "x" "x*x^1024" : Expr Double).normalize = poly p ∧ p.degree = 1025 ∧
        maxDegree < p.degree := by
  have htokens : tokenize (Text.strip "x*x^1024") =
      [⟨.name, 0, ['x']⟩, ⟨.times, 1, ['*']⟩, ⟨.name, 2, ['x']⟩, ⟨.caret, 3, ['^']⟩,
        ⟨.number, 4, ['1', '0', '2', '4']⟩] := by cbv
  have hfree : ¬ IsReserved "x" := (isVariableName_iff.mp (by cbv)).not_reserved
  have hliteral : (Decimal.literalValue ['1', '0', '2', '4'] : Double) = (maxDegree : Nat) := by
    have hbits : ((maxDegree : Nat) : Double) = ⟨0x4090000000000000⟩ := rfl
    rw [hbits]
    rfl
  have hparse : (parse "x" "x*x^1024" : Expr Double) = .binary .times (.var "x") largestPower := by
    rw [largestPower, ← hliteral]
    exact parse_eq_denote_of_tokens htokens (.expression (.term (.base (.var ⟨rfl, rfl⟩ hfree))
      (.productsCons .times .times (.power (.var ⟨rfl, rfl⟩ hfree) rfl (.base (.number rfl)))
        .productsNil)) .sumsNil)
  obtain ⟨p, hp, hdegree⟩ := exists_normalize_var_times_largestPower
  rw [hparse]
  refine ⟨(leavesWithin_var "x").binary .times leavesWithin_largestPower, p, hp, hdegree, ?_⟩
  rw [hdegree]
  decide

/-! ### Trees that were read -/

omit [One R] [Add R] [Sub R] [Mul R] [Neg R] [Elementary R] in
/-- No polynomial can be written into a text. -/
theorem Writable.leavesWithin {v : String} (h : Writable v t) : t.LeavesWithin := by
  induction h with
  | var => exact leavesWithin_var v
  | const => exact leavesWithin_const _
  | negate _ _ ih => exact ih.unary .negate
  | group _ ih => exact ih.unary .group
  | exp _ ih => exact ih.unary .exp
  | call f _ ih => exact ih.unary (.call f)
  | binary op _ _ _ _ ihl ihr => exact ihl.binary op ihr

omit [One R] [Add R] [Sub R] [Mul R] [Neg R] [Elementary R] in
/-- What has the form of a polynomial has no error. -/
theorem errorOffsets_of_isPolynomial (h : t.isPolynomial = true) : t.errorOffsets = [] := by
  induction t with
  | error offset => contradiction
  | unary op u ih =>
    rw [errorOffsets_unary]
    cases op with
    | group | negate => exact ih h
    | _ => contradiction
  | binary op l r ihl ihr =>
    rw [errorOffsets_binary]
    cases op with
    | plus | minus | times =>
      rw [isPolynomial, Bool.and_eq_true] at h
      rw [ihl h.1, ihr h.2, List.append_nil]
    | div => contradiction
    | pow =>
      rw [isPolynomial, Bool.and_eq_true, Option.isSome_iff_exists] at h
      obtain ⟨hl, n, hn⟩ := h
      obtain ⟨k, rfl, -⟩ := exists_const_of_expandableExponent? hn
      rw [ihl hl, errorOffsets_const, List.append_nil]
  | _ => rfl

/-- What is expanded was read without an error. -/
theorem hasError_of_normalize_eq_poly (h : t.normalize = poly p) : t.hasError = false := by
  rw [hasError_eq_false_iff]
  rw [normalize] at h
  split at h
  · next hform => exact errorOffsets_of_isPolynomial hform
  · rw [h, errorOffsets_poly]

variable [NatCast R] [OfScientific R] [LawfulNumeral R]

/-- **How far the expansion of a text leads.** For a tree that was read, nothing has to be known of
its leaves. -/
theorem degree_of_normalize_parse {v text : String}
    (h : (parse v text : Expr R).normalize = poly p) :
    p.degree ≤ maxDegree * (parse v text : Expr R).factorCount ∧
      (maxDegree < p.degree → HasOverflow (parse v text : Expr R)) := by
  have hp := expand?_of_normalize_eq_poly h
  have hleaves := (writable_parse (hasError_of_normalize_eq_poly h)).leavesWithin
  exact ⟨degree_of_expand? hleaves hp, hasOverflow_of_expand? hleaves hp⟩

end Expr

end Univariate
