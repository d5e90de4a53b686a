import Univariate.Proofs.ErrorReports
import Univariate.Proofs.Expandable
import Univariate.Proofs.Traversal

/-!
# What derivatives and expansions are made of

Differentiation copies parts of a tree to new places, and puts operations, parentheses and numbers
around them. So a leaf of a derivative that is not a number was a leaf of the tree before, or is the
derivative of a polynomial that was one. That settles what variables can occur in a derivative. It
also settles that the derivative of a constant is a constant, because a tree is constant if all of
its leaves are: the copies are leaves that were constant, the new leaves are numbers, and a
polynomial of degree zero has a derivative of degree zero.

The expansion of a constant is a constant for another reason. It replaces the whole tree by one
polynomial, and what counts is its degree. In a constant tree there are no factors that could raise
it.

So both keep constants constant, and can be repeated in any order.

## Main definitions

* `Expr.AllLeaves`: all leaves of a tree have a property.
* `LeafRule`: what differentiation asks of a property of leaves.
* `Transformation`: differentiation and expansion, as the steps of a run.

## Main results

* `Expr.stopsAt_derivative_allLeaves`, `Expr.stemsFrom_of_derivative`: the leaves of a derivative.
* `Expr.isConstant_of_derivative`, `Expr.isConstant_normalize`: constants stay constant.
* `Transformation.exists_run`: so they do in a run, which does not fail.
* `Expr.transformations_stay_within`: all of it.
-/

namespace Univariate

variable {R : Type} [Zero R] [BEq R]

namespace Expr

variable {P Q : Expr R → Prop} {t u l r d : Expr R}

/-! ### Leaves -/

/-- All leaves of a tree have a property. -/
def AllLeaves (P : Expr R → Prop) (t : Expr R) : Prop :=
  ∀ u ∈ t.leaves, P u

@[simp] theorem allLeaves_const {c : R} : (const c).AllLeaves P ↔ P (const c) :=
  List.forall_mem_singleton

@[simp] theorem allLeaves_poly {p : Poly R} : (poly p).AllLeaves P ↔ P (poly p) :=
  List.forall_mem_singleton

@[simp] theorem allLeaves_unary {op : UnaryOp} : (unary op u).AllLeaves P ↔ u.AllLeaves P :=
  Iff.rfl

@[simp] theorem allLeaves_binary {op : BinaryOp} :
    (binary op l r).AllLeaves P ↔ l.AllLeaves P ∧ r.AllLeaves P :=
  List.forall_mem_append

theorem AllLeaves.mono (h : t.AllLeaves P) (hPQ : ∀ u, P u → Q u) : t.AllLeaves Q :=
  fun u hu => hPQ u (h u hu)

/-- The leaves are the nodes without children. -/
theorem mem_leaves_iff : u ∈ t.leaves ↔ u ∈ t.nodes ∧ u.children = [] := by
  induction t with
  | unary op v ih =>
    have hnot : ¬ (u = unary op v ∧ u.children = []) := by
      rintro ⟨rfl, h⟩
      contradiction
    rw [leaves, ih, mem_nodes_unary, or_and_right, or_iff_left hnot]
  | binary op l r ihl ihr =>
    have hnot : ¬ (u = binary op l r ∧ u.children = []) := by
      rintro ⟨rfl, h⟩
      contradiction
    rw [leaves, List.mem_append, ihl, ihr, mem_nodes_binary, or_and_right, or_and_right,
      or_iff_left hnot]
  | _ =>
    refine ⟨fun h => ?_, And.left⟩
    obtain rfl := List.mem_singleton.mp h
    exact ⟨h, rfl⟩

/-- A tree is constant if all of its leaves are. -/
theorem isConstant_iff_allLeaves :
    t.isConstant = true ↔ t.AllLeaves fun u => u.isConstant = true := by
  induction t with
  | unary op u ih => rw [isConstant, ih, allLeaves_unary]
  | binary op l r ihl ihr => rw [isConstant, Bool.and_eq_true, ihl, ihr, allLeaves_binary]
  | _ => simp [AllLeaves, leaves]

/-! ### The leaves of a derivative -/

section Parentheses

variable [Numeral R]

omit [Numeral R] in
@[simp] theorem allLeaves_groupUnless {bare : Bool} :
    (t.groupUnless bare).AllLeaves P ↔ t.AllLeaves P := by
  cases bare <;> rfl

@[simp] theorem allLeaves_binaryGrouped {op : BinaryOp} :
    (binaryGrouped op l r).AllLeaves P ↔ l.AllLeaves P ∧ r.AllLeaves P := by
  cases op <;> simp [binaryGrouped]

@[simp] theorem allLeaves_negated : u.negated.AllLeaves P ↔ u.AllLeaves P := by
  simp [negated]

end Parentheses

/-- What differentiation asks of a property of leaves, where `P` holds before and `Q` behind: it
makes new numbers, it copies leaves, and it differentiates polynomials. -/
structure LeafRule [NatCast R] [Mul R] (P Q : Expr R → Prop) : Prop where
  /-- Numbers have the property. -/
  const : ∀ c, Q (.const c)
  /-- So have copies. -/
  copy : ∀ u, P u → Q u
  /-- So have the derivatives of polynomials. -/
  poly : ∀ p, P (.poly p) → Q (.poly p.derivative)

variable [One R] [NatCast R] [OfScientific R] [Numeral R]

theorem AllLeaves.outerDerivative (hconst : ∀ c, Q (const c)) (f : Func) (hu : u.AllLeaves Q) :
    (f.outerDerivative u).AllLeaves Q := by
  cases f <;>
    simp [Func.outerDerivative, outerArcsin, outerArctan, outerArcsec, inverse, squared, two, hu,
      hconst]

variable [Mul R]

omit [One R] [NatCast R] [OfScientific R] [Mul R] in
theorem stopsAt_chain_allLeaves {outer : Expr R} {r : Except Diagnostic (Expr R)}
    (hconst : ∀ c, Q (const c)) (houter : outer.AllLeaves Q)
    (hr : StopsAt u.errorOffsets (AllLeaves Q) r) :
    StopsAt u.errorOffsets (AllLeaves Q) (chain outer u r) :=
  stopsAt_chain_of_rules hr (fun _ => allLeaves_const.mpr (hconst 0)) (fun _ => houter)
    fun _ _ hd => allLeaves_binaryGrouped.mpr ⟨houter, hd⟩

/-- **The leaves of a derivative.** If the leaves of a tree have a property, those of the derivative
have what the rules make of it. -/
theorem stopsAt_derivative_allLeaves (h : LeafRule P Q) (ht : t.AllLeaves P) :
    StopsAt t.errorOffsets (AllLeaves Q) t.derivative := by
  induction t with
  | const c => exact .result rfl (allLeaves_const.mpr (h.const 0))
  | var name => exact .result rfl (allLeaves_const.mpr (h.const 1))
  | error o => exact .report (List.mem_singleton.mpr rfl)
  | poly p => exact .result rfl (allLeaves_poly.mpr (h.poly p (allLeaves_poly.mp ht)))
  | unary op u ih =>
    have ih := ih ht
    have hu : u.AllLeaves Q := ht.mono h.copy
    rw [errorOffsets_unary]
    cases op with
    | negate => exact ih.map fun _ _ hd => allLeaves_negated.mpr hd
    | group => exact ih.map fun _ _ hd => hd
    | exp => exact stopsAt_chain_allLeaves h.const hu ih
    | reciprocal =>
      have houter : (negated (inverse u.squared)).AllLeaves Q := by
        simp [inverse, squared, two, hu, h.const]
      exact stopsAt_chain_allLeaves h.const houter ih
    | call f =>
      by_cases hfloor : f = .floor
      · subst hfloor
        rw [derivative]
        cases hu : u.errorOffsets with
        | nil => exact .result rfl (allLeaves_const.mpr (h.const 0))
        | cons o os => exact .report (List.mem_cons_self ..)
      · rw [derivative]
        · exact stopsAt_chain_allLeaves h.const (hu.outerDerivative h.const f) ih
        · exact hfloor
  | binary op l r ihl ihr =>
    obtain ⟨hl, hr⟩ := allLeaves_binary.mp ht
    have ihl := ihl hl
    have ihr := ihr hr
    have hl : l.AllLeaves Q := hl.mono h.copy
    have hr : r.AllLeaves Q := hr.mono h.copy
    have hmem : ∀ o, o ∈ l.errorOffsets ++ r.errorOffsets ↔
        o ∈ l.errorOffsets ∨ o ∈ r.errorOffsets := fun o => List.mem_append
    rw [errorOffsets_binary]
    cases op with
    | plus | minus =>
      exact ihl.both ihr hmem fun _ d d' hd hd' => allLeaves_binaryGrouped.mpr ⟨hd, hd'⟩
    | times => exact ihl.both ihr hmem fun _ d d' hd hd' => by simp [hl, hr, hd, hd']
    | div =>
      exact ihl.both ihr hmem fun _ d d' hd hd' => by simp [squared, two, h.const, hl, hr, hd, hd']
    | pow =>
      rw [derivative]
      split
      · next hconstant =>
        rw [errorOffsets_of_isConstant hconstant, List.append_nil]
        refine stopsAt_chain_allLeaves h.const ?_ ihl
        simp [h.const, hl, hr]
      · -- the exponent is differentiated first
        refine ihr.both ihl (fun o => (hmem o).trans or_comm) fun _ d d' hd hd' => ?_
        simp [hl, hr, hd, hd']

theorem AllLeaves.derivative (ht : t.AllLeaves P) (h : LeafRule P Q) (hd : t.derivative = .ok d) :
    d.AllLeaves Q := by
  have hstops := stopsAt_derivative_allLeaves h ht
  rw [hd] at hstops
  exact hstops.good_of_ok

/-- A leaf that may occur in the derivative of a tree: a number, a leaf of the tree, or the
derivative of a polynomial that is a leaf of it. -/
inductive StemsFrom (t : Expr R) : Expr R → Prop
  | const (c : R) : StemsFrom t (const c)
  | leaf {u : Expr R} : u ∈ t.leaves → StemsFrom t u
  | derivative {p : Poly R} : poly p ∈ t.leaves → StemsFrom t (poly p.derivative)

/-- **The leaves of a derivative.** -/
theorem stemsFrom_of_derivative (hd : t.derivative = .ok d) : d.AllLeaves t.StemsFrom :=
  have hrule : LeafRule (· ∈ t.leaves) t.StemsFrom := ⟨.const, fun _ => .leaf, fun _ => .derivative⟩
  AllLeaves.derivative (fun _ hu => hu) hrule hd

end Expr

/-! ### Constants -/

theorem Poly.degree_derivative_le [NatCast R] [Mul R] (p : Poly R) :
    p.derivative.degree ≤ p.degree - 1 := by
  rw [derivative]
  refine (degree_ofCoeffs_le _ _).trans_eq ?_
  rw [List.length_map, List.length_drop, List.length_zipIdx, length_coeffs, Nat.add_sub_cancel]

namespace Expr

variable {t d : Expr R}

theorem leafRule_isConstant [NatCast R] [Mul R] :
    LeafRule (R := R) (fun u => u.isConstant = true) (fun u => u.isConstant = true) where
  const _ := rfl
  copy _ hu := hu
  poly p hp := by
    have hzero : p.degree = 0 := eq_of_beq hp
    have hle := p.degree_derivative_le
    rw [hzero] at hle
    exact beq_iff_eq.mpr (Nat.le_zero.mp hle)

/-- **The derivative of a constant is a constant.** -/
theorem isConstant_of_derivative [One R] [NatCast R] [OfScientific R] [Numeral R] [Mul R]
    (ht : t.isConstant = true) (hd : t.derivative = .ok d) : d.isConstant = true := by
  rw [isConstant_iff_allLeaves] at ht ⊢
  exact ht.derivative leafRule_isConstant hd

/-- In a constant there are no factors that could raise its degree. -/
theorem factorCount_of_isConstant (ht : t.isConstant = true) : t.factorCount = 0 := by
  induction t with
  | unary op u ih => exact ih ht
  | binary op l r ihl ihr =>
    obtain ⟨hl, hr⟩ := Bool.and_eq_true_iff.mp ht
    cases op <;> simp [factorCount, ihl hl, ihr hr]
  | poly p =>
    have hzero : p.degree = 0 := eq_of_beq ht
    rw [factorCount, hzero, Nat.min_zero]
  | var name => contradiction
  | _ => rfl

theorem leavesWithin_of_isConstant (ht : t.isConstant = true) : t.LeavesWithin := by
  intro q hq
  have hzero : q.degree = 0 :=
    eq_of_beq (isConstant_iff_allLeaves.mp ht _ (mem_leaves_iff.mpr ⟨hq, rfl⟩))
  rw [hzero]
  exact Nat.zero_le _

variable [One R] [Add R] [Sub R] [Mul R] [Neg R] [Numeral R] [Elementary R]

/-- **The expansion of a constant is a constant.** -/
theorem isConstant_normalize (ht : t.isConstant = true) : t.normalize.isConstant = true := by
  obtain hself | ⟨p, hp⟩ := t.normalize_cases
  · rwa [hself]
  · have hle := degree_of_expand? (leavesWithin_of_isConstant ht) (normalize_eq_poly_iff.mp hp)
    rw [factorCount_of_isConstant ht, Nat.mul_zero] at hle
    rw [hp]
    exact beq_iff_eq.mpr (Nat.le_zero.mp hle)

end Expr

/-! ### Runs -/

/-- A step that makes a new expression of an expression. -/
inductive Transformation where
  /-- The expression is differentiated. -/
  | derivative
  /-- The expression is expanded. -/
  | normalize
  deriving DecidableEq, Repr

namespace Transformation

variable [One R] [NatCast R] [OfScientific R] [Add R] [Sub R] [Mul R] [Neg R] [Numeral R]
  [Elementary R] {t : Expr R}

/-- The expression after a step. -/
def apply : Transformation → Expr R → Except Diagnostic (Expr R)
  | .derivative, t => t.derivative
  | .normalize, t => .ok t.normalize

/-- The expression after some steps, which are made one after the other. -/
def run : List Transformation → Expr R → Except Diagnostic (Expr R)
  | [], t => .ok t
  | step :: steps, t => do run steps (← step.apply t)

/-- A step makes a constant of a constant, and does not fail. -/
theorem exists_apply (step : Transformation) (ht : t.isConstant = true) :
    ∃ d, step.apply t = .ok d ∧ d.isConstant = true := by
  cases step with
  | derivative =>
    have hstops := Expr.stopsAt_derivative t
    rw [Expr.errorOffsets_of_isConstant ht] at hstops
    obtain ⟨d, hd⟩ := hstops.exists_ok
    exact ⟨d, hd, Expr.isConstant_of_derivative ht hd⟩
  | normalize => exact ⟨_, rfl, Expr.isConstant_normalize ht⟩

/-- **Constants stay constant.** -/
theorem exists_run (steps : List Transformation) (ht : t.isConstant = true) :
    ∃ d, run steps t = .ok d ∧ d.isConstant = true := by
  induction steps generalizing t with
  | nil => exact ⟨t, rfl, ht⟩
  | cons step steps ih =>
    obtain ⟨d, hd, hconstant⟩ := step.exists_apply ht
    obtain ⟨d', hd', hconstant'⟩ := ih hconstant
    refine ⟨d', ?_, hconstant'⟩
    rw [run, hd]
    exact hd'

end Transformation

namespace Expr

variable [One R] [NatCast R] [OfScientific R] [Add R] [Sub R] [Mul R] [Neg R] [Numeral R]
  [Elementary R]

/-- **Transformations stay within their input.** A derivative mentions no other variables than the
tree that it is the derivative of. A polynomial in it is one of those in the tree, or the derivative
of one. If the tree is a constant, so are its derivative and its expansion, and all that comes out
of differentiating and expanding it further, in whatever order. None of these steps fails. -/
theorem transformations_stay_within (t : Expr R) :
    (∀ d, t.derivative = .ok d →
      (∀ name, var name ∈ d.nodes → var name ∈ t.nodes) ∧
      (∀ p, poly p ∈ d.nodes → poly p ∈ t.nodes ∨ ∃ q, poly q ∈ t.nodes ∧ p = q.derivative) ∧
      (t.isConstant = true → d.isConstant = true)) ∧
    (t.isConstant = true → t.normalize.isConstant = true) ∧
    (t.isConstant = true → ∀ steps, ∃ d, Transformation.run steps t = .ok d ∧
      d.isConstant = true) := by
  refine ⟨fun d hd => ⟨fun name hmem => ?_, fun p hmem => ?_, ?_⟩, isConstant_normalize, ?_⟩
  · have hstems := stemsFrom_of_derivative hd _ (mem_leaves_iff.mpr ⟨hmem, rfl⟩)
    cases hstems with
    | leaf hleaf => exact (mem_leaves_iff.mp hleaf).1
  · have hstems := stemsFrom_of_derivative hd _ (mem_leaves_iff.mpr ⟨hmem, rfl⟩)
    cases hstems with
    | leaf hleaf => exact .inl (mem_leaves_iff.mp hleaf).1
    | derivative hleaf => exact .inr ⟨_, (mem_leaves_iff.mp hleaf).1, rfl⟩
  · exact fun ht => isConstant_of_derivative ht hd
  · exact fun ht steps => Transformation.exists_run steps ht

/-- The power `p ^ x` of the polynomial `x ^ 2`, and the constant `4 / sin(2)`. -/
theorem transformations_stay_within_power :
    let p : Poly Double := .monomial "x" 2 1
    let t : Expr Double := .binary .pow (poly p) (.var "x")
    let c : Expr Double := .binary .div (poly (.constant 4)) (call .sin (.const 2))
    (∃ d, t.derivative = .ok d ∧ ∀ q, poly q ∈ d.nodes → q = p ∨ q = p.derivative) ∧
      c.isConstant = true ∧
      ∃ d, Transformation.run [.normalize, .derivative, .normalize, .derivative] c = .ok d ∧
        d.isConstant = true := by
  intro p t c
  have hleaves : ∀ q, poly q ∈ t.nodes → q = p := by
    intro q hq
    simpa [t, nodes_eq_postOrder, postOrder] using hq
  obtain ⟨d, hd⟩ : ∃ d, t.derivative = .ok d := ⟨_, rfl⟩
  obtain ⟨-, hpolys, -⟩ := (transformations_stay_within t).1 d hd
  refine ⟨⟨d, hd, fun q hq => ?_⟩, rfl, (transformations_stay_within c).2.2 rfl _⟩
  obtain hq | ⟨q', hq', rfl⟩ := hpolys q hq
  · exact .inl (hleaves q hq)
  · exact .inr (by rw [hleaves q' hq'])

end Expr

end Univariate
