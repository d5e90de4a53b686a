import Univariate.Proofs.Indexing
import Univariate.Proofs.Provenance

/-!
# How polynomials are represented

A polynomial is never put together by hand. It is made from a list, from a number or from a power of
the variable, or it is the expansion of a tree or the derivative of another polynomial, and a tree
that is expanded may hold polynomials that came about in any of these ways. What all of them share
is that their list was trimmed in the end. So it is not empty, and it does not end in a zero unless
that is all there is. This takes no law of arithmetic, and not even that a number equals itself, so
that it holds of rounded numbers too, with infinite and undefined ones among them.

The unguarded places rely on it. The degree is one less than the number of coefficients, a product
has one coefficient less than its factors have together, and the first coefficient is what tells how
tightly a constant binds. With any list at all, each of these could end with a fault. With the
polynomials that are obtained, none of them does.

## Why trees have a raw form too

Expansion is a recursion over a tree that may hold polynomials already. A run of it is only known to
meet no fault if the polynomials in the leaves are known to be trimmed. If this were part of their
type, it would be assumed and not shown. So the leaves of a raw tree are raw, and that they are
trimmed is the induction hypothesis.

## Main definitions

* `Expr.Raw`: trees whose polynomials are raw.
* `Expr.Raw.expand?`, `Expr.Raw.normalize`: their expansion, with its faults.
* `Poly.Raw.Obtained`: the polynomials that can come about.

## Main results

* `Expr.Raw.normalize_toRaw`: expansion meets no fault, and its result.
* `Poly.Raw.exists_toRaw_of_obtained`: what is obtained is trimmed.
* `Poly.Raw.obtained_run`: differentiating and expanding a tree makes no other polynomials.
* `Poly.Raw.inRange_of_obtained`: all of it, and what it says of counts and places.
-/

namespace Univariate

/-- An expression as it lies in memory. Nothing is known of the coefficients of its polynomials. -/
inductive Expr.Raw (R : Type) where
  /-- The variable. -/
  | var (name : String)
  /-- A number. -/
  | const (value : R)
  /-- An error. -/
  | error (offset : Nat)
  /-- An operation on one operand. -/
  | unary (op : UnaryOp) (arg : Expr.Raw R)
  /-- An operation on two operands, the left one first. -/
  | binary (op : BinaryOp) (left right : Expr.Raw R)
  /-- A polynomial. -/
  | poly (p : Poly.Raw R)

variable {R : Type} [Zero R] [BEq R]

namespace Expr

/-- A tree without the proofs that its polynomials are trimmed. -/
def toRaw : Expr R → Raw R
  | .var name => .var name
  | .const c => .const c
  | .error offset => .error offset
  | .unary op u => .unary op u.toRaw
  | .binary op l r => .binary op l.toRaw r.toRaw
  | .poly p => .poly p.toRaw

namespace Raw

/-- The polynomials in a tree, from left to right. -/
def polys : Raw R → List (Poly.Raw R)
  | .var _ | .const _ | .error _ => []
  | .unary _ u => u.polys
  | .binary _ l r => l.polys ++ r.polys
  | .poly p => [p]

/-- The tree with all of its polynomials trimmed. -/
def trimmed : Raw R → Expr R
  | .var name => .var name
  | .const c => .const c
  | .error offset => .error offset
  | .unary op u => .unary op u.trimmed
  | .binary op l r => .binary op l.trimmed r.trimmed
  | .poly p => .poly (.ofCoeffs p.name p.coeffs)

/-! ### Trimmed trees -/

@[simp] theorem trimmed_toRaw (t : Expr R) : t.toRaw.trimmed = t := by
  induction t with
  | unary op u ih => rw [toRaw, trimmed, ih]
  | binary op l r ihl ihr => rw [toRaw, trimmed, ihl, ihr]
  | poly p =>
    obtain ⟨name, cs, hcs⟩ := p
    simp [toRaw, trimmed, Poly.toRaw, Poly.ofCoeffs, trimZeros_eq_self hcs]
  | _ => rfl

/-- If nothing in a tree is there to be trimmed, it is one of the trees that carry the proof. -/
theorem toRaw_trimmed {t : Raw R} (ht : ∀ p ∈ t.polys, IsTrimmed p.coeffs) :
    t.trimmed.toRaw = t := by
  induction t with
  | unary op u ih => rw [trimmed, toRaw, ih ht]
  | binary op l r ihl ihr =>
    obtain ⟨hl, hr⟩ := List.forall_mem_append.mp ht
    rw [trimmed, toRaw, ihl hl, ihr hr]
  | poly p =>
    have hp := ht p (List.mem_singleton.mpr rfl)
    simp [toRaw, trimmed, Poly.toRaw, Poly.ofCoeffs, trimZeros_eq_self hp]
  | _ => rfl

/-- A tree carries the proof if its polynomials do. -/
theorem exists_toRaw {t : Raw R} (ht : ∀ p ∈ t.polys, ∃ p' : Poly R, p'.toRaw = p) :
    ∃ t' : Expr R, t'.toRaw = t := by
  refine ⟨t.trimmed, toRaw_trimmed fun p hp => ?_⟩
  obtain ⟨p', rfl⟩ := ht p hp
  exact p'.isTrimmed

theorem mem_polys_toRaw {t : Expr R} {p : Poly.Raw R} :
    p ∈ t.toRaw.polys ↔ ∃ q, Expr.poly q ∈ t.leaves ∧ q.toRaw = p := by
  induction t with
  | unary op u ih => exact ih
  | binary op l r ihl ihr =>
    rw [toRaw, polys, List.mem_append, ihl, ihr, leaves]
    simp only [List.mem_append, or_and_right, exists_or]
  | poly q => simp [toRaw, polys, leaves, eq_comm]
  | _ => simp [toRaw, polys, leaves]

/-- How tightly the text of a tree binds. -/
def precedence [Numeral R] : Raw R → Checked Precedence
  | .binary op _ _ => .ok op.precedence
  | .unary .negate _ => .ok .neg
  | .poly p => p.precedence
  | .const c => .ok (if Numeral.isNegative c then .neg else .primary)
  | _ => .ok .primary

theorem precedence_toRaw [Numeral R] (t : Expr R) : t.toRaw.precedence = .ok t.precedence := by
  cases t with
  | unary op u => cases op <;> rfl
  | poly p => exact Poly.Raw.precedence_toRaw p
  | _ => rfl

/-- Whether a tree is built from numbers alone. The right operand is looked at only if the left one
is. -/
def isConstant : Raw R → Checked Bool
  | .const _ => .ok true
  | .var _ | .error _ => .ok false
  | .poly p => return (← p.degree) == 0
  | .unary _ u => u.isConstant
  | .binary _ l r => do
    if ← l.isConstant then r.isConstant else return false

theorem isConstant_toRaw (t : Expr R) : t.toRaw.isConstant = .ok t.isConstant := by
  induction t with
  | unary op u ih => exact ih
  | binary op l r ihl ihr =>
    rw [toRaw, isConstant, ihl, Checked.ok_bind, Expr.isConstant]
    cases l.isConstant with
    | false => rfl
    | true => exact ihr
  | poly p =>
    rw [toRaw, isConstant, Poly.Raw.degree_toRaw]
    rfl
  | _ => rfl

/-! ### Expansion -/

/-- Combines the expansions of two operands, if both of them have one. -/
def both (op : Poly.Raw R → Poly.Raw R → Checked (Poly.Raw R))
    (l r : Checked (Option (Poly.Raw R))) : Checked (Option (Poly.Raw R)) := do
  match ← l with
  | none => return none
  | some p =>
    match ← r with
    | none => return none
    | some q => return some (← op p q)

variable [One R] [Add R] [Mul R]

/-- The power `k` of an expanded base, unless its degree is beyond the bound, or not even a word. -/
def expandPower? (limit : Nat) (p : Poly.Raw R) (k : Nat) : Checked (Option (Poly.Raw R)) := do
  let degree ← p.degree
  if limit < degree * k then return none
  else if maxDegree < degree * k then return none
  else return some (← p.pow k)

variable [Numeral R] [Elementary R]

/-- The expansion of a power, from that of its base. Whether there is one is decided by the form of
the tree, in which its polynomials do not matter. -/
def expandRaised? (limit : Nat) (base exponent : Raw R)
    (expanded : Checked (Option (Poly.Raw R))) : Checked (Option (Poly.Raw R)) :=
  match exponent, expandableExponent? base.trimmed exponent.trimmed with
  | .const k, some n =>
    match base with
    | .const c => return some (.constant (Elementary.pow c k))
    | .var name => return some (← Poly.Raw.monomial limit name n 1)
    | _ => do
      match ← expanded with
      | none => return none
      | some p => expandPower? limit p n
  | _, _ => return none

variable [Sub R] [Neg R]

/-- The polynomial of a tree. -/
def expand? (limit : Nat) : Raw R → Checked (Option (Poly.Raw R))
  | .const c => return some (.constant c)
  | .var name => return some (← Poly.Raw.monomial limit name 1 1)
  | .poly p => return some p
  | .unary .group u => u.expand? limit
  | .unary .negate u => return (← u.expand? limit).map .neg
  | .binary .plus l r => both (Poly.Raw.zipWith (· + ·)) (l.expand? limit) (r.expand? limit)
  | .binary .minus l r => both (Poly.Raw.zipWith (· - ·)) (l.expand? limit) (r.expand? limit)
  | .binary .times l r => both Poly.Raw.mul (l.expand? limit) (r.expand? limit)
  | .binary .pow base exponent => expandRaised? limit base exponent (base.expand? limit)
  | _ => return none

/-- The tree with its polynomial in place of itself. -/
def normalize (limit : Nat) (t : Raw R) : Checked (Raw R) :=
  if t.trimmed.isPolynomial then do
    match ← t.expand? limit with
    | some p => return .poly p
    | none => return t
  else return t

omit [One R] [Add R] [Mul R] [Numeral R] [Elementary R] [Sub R] [Neg R] in
theorem both_toRaw {op : Poly.Raw R → Poly.Raw R → Checked (Poly.Raw R)}
    {f : Poly R → Poly R → Poly R} (h : ∀ p q : Poly R, op p.toRaw q.toRaw = .ok (f p q).toRaw)
    (l r : Option (Poly R)) :
    both op (.ok (l.map Poly.toRaw)) (.ok (r.map Poly.toRaw)) =
      .ok ((do return f (← l) (← r)).map Poly.toRaw) := by
  cases l with
  | none => rfl
  | some p =>
    cases r with
    | none => rfl
    | some q => exact congrArg (· >>= fun p => .ok (some p)) (h p q)

variable {limit : Nat}

omit [Numeral R] [Elementary R] [Sub R] [Neg R] in
theorem expandPower?_toRaw (hlimit : maxDegree < limit) (p : Poly R) (k : Nat) :
    expandPower? limit p.toRaw k = .ok ((Expr.expandPower? p k).map Poly.toRaw) := by
  rw [expandPower?, Poly.Raw.degree_toRaw, Checked.ok_bind, Expr.expandPower?]
  by_cases hdegree : p.degree * k ≤ maxDegree
  · rw [if_neg (by omega), if_neg (by omega), Poly.Raw.pow_toRaw, if_pos hdegree]
    rfl
  · rw [if_pos (by omega : maxDegree < p.degree * k), if_neg hdegree, ite_self]
    rfl

theorem expandRaised?_toRaw (hlimit : maxDegree < limit) (base exponent : Expr R) :
    expandRaised? limit base.toRaw exponent.toRaw (.ok (base.expand?.map Poly.toRaw)) =
      .ok ((Expr.binary .pow base exponent).expand?.map Poly.toRaw) := by
  rw [expandRaised?.eq_def, trimmed_toRaw, trimmed_toRaw]
  cases hn : expandableExponent? base exponent with
  | none =>
    rw [expand?_pow_of_none hn]
    cases exponent <;> rfl
  | some n =>
    obtain ⟨k, rfl, -, hbound⟩ := exists_const_of_expandableExponent? hn
    have hcomposite : (do
        match ← (.ok (base.expand?.map Poly.toRaw) : Checked (Option (Poly.Raw R))) with
        | none => return none
        | some p => expandPower? limit p n) =
        .ok ((base.expand?.bind fun p => Expr.expandPower? p n).map Poly.toRaw) := by
      cases base.expand? with
      | none => rfl
      | some p => exact expandPower?_toRaw hlimit p n
    rw [expand?_pow_of_some hn]
    cases base with
    | const c =>
      exact congrArg (fun p => Except.ok (some p))
        (Poly.Raw.constant_eq_toRaw (Elementary.pow c k))
    | var name =>
      -- the exponent of the variable is within the bound, so its power can be written down
      have hle : n ≤ maxDegree := hbound.resolve_left Bool.false_ne_true
      have hpower := Poly.Raw.monomial_eq limit name n (1 : R)
      rw [if_pos (by omega)] at hpower
      exact congrArg (· >>= fun p => .ok (some p)) hpower
    | _ => exact hcomposite

/-- **Expansion meets no fault.** -/
theorem expand?_toRaw (hlimit : maxDegree < limit) (t : Expr R) :
    t.toRaw.expand? limit = .ok (t.expand?.map Poly.toRaw) := by
  induction t with
  | const c => exact congrArg (fun p => Except.ok (some p)) (Poly.Raw.constant_eq_toRaw c)
  | var name =>
    have hone : 1 < limit := Nat.lt_trans (by decide) hlimit
    have hvar := Poly.Raw.monomial_eq limit name 1 (1 : R)
    rw [if_pos hone] at hvar
    exact congrArg (· >>= fun p => .ok (some p)) hvar
  | error offset => rfl
  | poly p => rfl
  | unary op u ih =>
    cases op with
    | group => exact ih
    | negate =>
      rw [toRaw, expand?, ih, Checked.ok_bind, Expr.expand?]
      cases u.expand? with
      | none => rfl
      | some p => exact congrArg (fun q => Except.ok (some q)) (Poly.Raw.neg_toRaw p)
    | _ => rfl
  | binary op l r ihl ihr =>
    cases op with
    | plus | minus =>
      rw [toRaw, expand?, ihl, ihr, Expr.expand?]
      exact both_toRaw (Poly.Raw.zipWith_toRaw _) _ _
    | times =>
      rw [toRaw, expand?, ihl, ihr, Expr.expand?]
      exact both_toRaw Poly.Raw.mul_toRaw _ _
    | div => rfl
    | pow =>
      rw [toRaw, expand?, ihl]
      exact expandRaised?_toRaw hlimit l r

theorem normalize_toRaw (hlimit : maxDegree < limit) (t : Expr R) :
    t.toRaw.normalize limit = .ok t.normalize.toRaw := by
  rw [normalize, trimmed_toRaw, expand?_toRaw hlimit, Expr.normalize, Checked.ok_bind]
  split
  · cases t.expand? <;> rfl
  · rfl

end Raw

end Expr

/-! ### Polynomials that are obtained -/

namespace Poly.Raw

variable [One R] [NatCast R] [Add R] [Sub R] [Mul R] [Neg R] [Numeral R] [Elementary R]

/-- The polynomials that can come about on a machine whose largest word is `limit`. A tree that is
expanded holds no other polynomials than these. -/
inductive Obtained (limit : Nat) : Raw R → Prop
  | ofCoeffs (name : String) (cs : List R) : Obtained limit (ofCoeffs name cs)
  | constant (c : R) : Obtained limit (constant c)
  | monomial {name : String} {power : Nat} {c : R} {p : Raw R} :
      monomial limit name power c = .ok p → Obtained limit p
  | normalize {t : Expr.Raw R} {p : Raw R} :
      (∀ q ∈ t.polys, Obtained limit q) → t.normalize limit = .ok (.poly p) → Obtained limit p
  | derivative {p : Raw R} : Obtained limit p → Obtained limit p.derivative

variable {limit : Nat}

/-- **What is obtained is trimmed.** The induction is on how it was obtained, and only an expansion
needs to know it of other polynomials. -/
theorem exists_toRaw_of_obtained (hlimit : maxDegree < limit) {p : Raw R} (hp : Obtained limit p) :
    ∃ p' : Poly R, p'.toRaw = p := by
  induction hp with
  | ofCoeffs name cs => exact ⟨_, (ofCoeffs_eq_toRaw name cs).symm⟩
  | constant c => exact ⟨_, (constant_eq_toRaw c).symm⟩
  | @monomial name power c p hp =>
    rw [monomial_eq] at hp
    split at hp
    · exact ⟨_, Except.ok.inj hp⟩
    · contradiction
  | @normalize t p _ hp ih =>
    obtain ⟨t', rfl⟩ := Expr.Raw.exists_toRaw ih
    rw [Expr.Raw.normalize_toRaw hlimit] at hp
    have hpoly := Except.ok.inj hp
    cases hresult : t'.normalize with
    | poly q =>
      rw [hresult] at hpoly
      exact ⟨q, Expr.Raw.poly.inj hpoly⟩
    | _ =>
      rw [hresult] at hpoly
      contradiction
  | derivative _ ih =>
    obtain ⟨p', rfl⟩ := ih
    exact ⟨_, (derivative_toRaw p').symm⟩

/-! ### Runs -/

omit [Add R] [Sub R] [Neg R] [Elementary R] in
/-- The polynomials in a derivative. -/
theorem mem_polys_of_derivative [OfScientific R] {t d : Expr R} (hd : t.derivative = .ok d)
    {p : Raw R} (hp : p ∈ d.toRaw.polys) :
    p ∈ t.toRaw.polys ∨ ∃ q ∈ t.toRaw.polys, p = q.derivative := by
  obtain ⟨p', hmem, rfl⟩ := Expr.Raw.mem_polys_toRaw.mp hp
  have hstems := Expr.stemsFrom_of_derivative hd _ hmem
  cases hstems with
  | leaf hleaf => exact .inl (Expr.Raw.mem_polys_toRaw.mpr ⟨p', hleaf, rfl⟩)
  | @derivative q hleaf =>
    exact .inr ⟨q.toRaw, Expr.Raw.mem_polys_toRaw.mpr ⟨q, hleaf, rfl⟩, (derivative_toRaw q).symm⟩

/-- **A step makes no other polynomials.** Expansion puts one polynomial in place of the tree, and
differentiation differentiates those that it finds. -/
theorem obtained_apply [OfScientific R] (hlimit : maxDegree < limit) {step : Transformation}
    {t d : Expr R} (ht : ∀ p ∈ t.toRaw.polys, Obtained limit p) (hd : step.apply t = .ok d) :
    ∀ p ∈ d.toRaw.polys, Obtained limit p := by
  intro p hp
  cases step with
  | derivative =>
    obtain hmem | ⟨q, hq, rfl⟩ := mem_polys_of_derivative hd hp
    · exact ht p hmem
    · exact .derivative (ht q hq)
  | normalize =>
    obtain rfl := Except.ok.inj hd
    obtain hself | ⟨q, hq⟩ := t.normalize_cases
    · rw [hself] at hp
      exact ht p hp
    · rw [hq] at hp
      obtain rfl := List.mem_singleton.mp hp
      refine .normalize ht ?_
      rw [Expr.Raw.normalize_toRaw hlimit, hq]
      rfl

/-- **Nor does a run**, which differentiates and expands in any order. -/
theorem obtained_run [OfScientific R] (hlimit : maxDegree < limit) {steps : List Transformation}
    {t d : Expr R} (ht : ∀ p ∈ t.toRaw.polys, Obtained limit p)
    (hd : Transformation.run steps t = .ok d) : ∀ p ∈ d.toRaw.polys, Obtained limit p := by
  induction steps generalizing t with
  | nil =>
    obtain rfl := Except.ok.inj hd
    exact ht
  | cons step steps ih =>
    rw [Transformation.run] at hd
    cases hstep : step.apply t with
    | error e =>
      rw [hstep] at hd
      contradiction
    | ok u =>
      rw [hstep] at hd
      exact ih (obtained_apply hlimit ht hstep) hd

/-- **All counts and places are in range.** A list that a polynomial is made from loses zeros at its
end only, and the empty list becomes a zero. A power of the variable can be written down if it can
be counted. Every polynomial that is obtained has a coefficient, and the last one is not a zero
unless it is the only one. So its degree and its first coefficient are there, and its powers, and
its products with other such polynomials, are computed without a fault. Of a tree that holds no
other polynomials, it is found out without a fault what it expands to, how tightly it binds and
whether it is constant, and the last two are all that differentiation asks about the polynomials in
it. However the tree is differentiated and expanded, no other polynomials come into it. The results
are those of the operations on polynomials and on trees that have no faults. -/
theorem inRange_of_obtained [OfScientific R] (hlimit : maxDegree < limit) :
    (∀ (name : String) (cs : List R),
      ofCoeffs name cs = (Poly.ofCoeffs name cs).toRaw ∧
      (cs = [] → (ofCoeffs name cs).coeffs = [0]) ∧
      (cs ≠ [] → ∃ zeros, cs = (ofCoeffs name cs).coeffs ++ zeros ∧
        ∀ c ∈ zeros, (c == 0) = true)) ∧
    (∀ (name : String) (power : Nat) (c : R), power < limit →
      monomial limit name power c = .ok (Poly.monomial name power c).toRaw) ∧
    (∀ p : Raw R, Obtained limit p →
      p.coeffs ≠ [] ∧ (1 < p.coeffs.length → ∀ c ∈ p.coeffs.getLast?, (c == 0) = false) ∧
      p.degree = .ok (p.coeffs.length - 1) ∧ (∃ c, Checked.entry p.coeffs 0 = .ok c) ∧
      ∃ p' : Poly R, p'.toRaw = p ∧ p.derivative = p'.derivative.toRaw ∧
        (∀ k, p.pow k = .ok (p'.pow k).toRaw) ∧
        ∀ q : Raw R, Obtained limit q → ∃ q' : Poly R, q'.toRaw = q ∧
          p.mul q = .ok (p'.mul q').toRaw) ∧
    (∀ t : Expr.Raw R, (∀ p ∈ t.polys, Obtained limit p) → ∃ t' : Expr R, t'.toRaw = t ∧
      t.precedence = .ok t'.precedence ∧ t.isConstant = .ok t'.isConstant ∧
      t.normalize limit = .ok t'.normalize.toRaw ∧
      ∀ steps d, Transformation.run steps t' = .ok d → ∀ p ∈ d.toRaw.polys, Obtained limit p) := by
  refine ⟨fun name cs => ⟨ofCoeffs_eq_toRaw name cs, ?_, exists_append_coeffs_ofCoeffs name⟩,
    fun name power c hpower => ?_, fun p hp => ?_, fun t ht => ?_⟩
  · rintro rfl
    rw [ofCoeffs_eq_toRaw]
    rfl
  · rw [monomial_eq, if_pos hpower]
  · obtain ⟨p', rfl⟩ := exists_toRaw_of_obtained hlimit hp
    obtain ⟨c, -, hentry⟩ := exists_entry_toRaw p'
    refine ⟨p'.isTrimmed.1, p'.isTrimmed.2, degree_toRaw p', ⟨c, hentry⟩, p', rfl,
      derivative_toRaw p', pow_toRaw p', fun q hq => ?_⟩
    obtain ⟨q', rfl⟩ := exists_toRaw_of_obtained hlimit hq
    exact ⟨q', rfl, mul_toRaw p' q'⟩
  · obtain ⟨t', rfl⟩ := Expr.Raw.exists_toRaw fun p hp => exists_toRaw_of_obtained hlimit (ht p hp)
    exact ⟨t', rfl, Expr.Raw.precedence_toRaw t', Expr.Raw.isConstant_toRaw t',
      Expr.Raw.normalize_toRaw hlimit t', fun steps d hd => obtained_run hlimit ht hd⟩

/-- The derivative of an undefined constant is made from the empty list. Here it is multiplied by a
power of the variable, on a machine with words of 64 bits. -/
theorem inRange_of_obtained_undefined :
    let limit := 2 ^ 64 - 1
    let p : Raw Double := (constant Double.undefined).derivative
    let t : Expr.Raw Double := .binary .times (.poly p) (.binary .pow (.var "x") (.const 3))
    maxDegree < limit ∧ Obtained limit p ∧ p.coeffs = [0] ∧ p.degree = .ok 0 ∧
      ∃ t' : Expr Double, t'.toRaw = t ∧ t.precedence = .ok .factor ∧
        t.normalize limit = .ok t'.normalize.toRaw := by
  intro limit p t
  have hlimit : maxDegree < limit := by decide
  have hp : Obtained limit p := .derivative (.constant Double.undefined)
  have hcoeffs : p.coeffs = [0] := by
    rw [show p = (Poly.constant Double.undefined).derivative.toRaw by
      rw [← derivative_toRaw, ← constant_eq_toRaw]]
    rfl
  obtain ⟨-, -, hpoly, htree⟩ := inRange_of_obtained (R := Double) hlimit
  obtain ⟨-, -, hdegree, -⟩ := hpoly p hp
  obtain ⟨t', ht', -, -, hnormalize, -⟩ := htree t fun q hq => List.mem_singleton.mp hq ▸ hp
  rw [hcoeffs] at hdegree
  exact ⟨hlimit, hp, hcoeffs, hdegree, t', ht', rfl, hnormalize⟩

end Poly.Raw

end Univariate
