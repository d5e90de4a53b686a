import Univariate.Proofs.Grouping
import Univariate.Proofs.Reading
import Univariate.Sample

/-!
# Computations fail at error leaves, and only there

A tree is computed with in four ways: it has a value at a point, a sample of points, a derivative,
and a derivative as the inner part of a composition. Each of the four fails if and only if the tree
has an error leaf, and then it reports the offset of one. Values and samples report the leftmost
error. A derivative visits the exponent of a power before the base, so all that can be said of its
report is that it is that of some error. In a tree that was read from a text there is only one.

## Why derivatives visit every error

Differentiation leaves out operands in two places. The derivative of a function of a constant is
zero, and a tree counts as a constant only if it has no error leaf. The derivative of rounding down
is zero, and for that operand the errors are looked up. So nothing is left out that could have an
error in it.

## Main definitions

* `StopsAt`: the results of a computation that has to stop at errors with given offsets.
* `Expr.FailsAtErrors`: failing if and only if there is an error leaf, with a report of one.

## Main results

* `Expr.stopsAt_eval`, `Expr.stopsAt_sample`, `Expr.stopsAt_derivative`: what the computations
  result in.
* `Expr.failsAtErrors`: all of them fail exactly at errors.
-/

namespace Univariate

/-- The results of a computation that has to stop at errors with the given offsets. Without errors
there is a result with a property, and otherwise one of the errors is reported. -/
inductive StopsAt {α : Type} (offsets : List Nat) (good : α → Prop) : Except Diagnostic α → Prop
  | result {a : α} : offsets = [] → good a → StopsAt offsets good (.ok a)
  | report {o : Nat} : o ∈ offsets → StopsAt offsets good (.error (.errorReached o))

namespace StopsAt

variable {α β γ : Type} {offsets offsets₁ offsets₂ : List Nat} {good : α → Prop}
  {good₁ : β → Prop} {good₂ : γ → Prop}

/-- A function of a result. -/
theorem map {r : Except Diagnostic β} (h : StopsAt offsets good₁ r) {f : β → α}
    (hf : offsets = [] → ∀ b, good₁ b → good (f b)) : StopsAt offsets good (r.map f) := by
  cases h with
  | result hnil hb => exact .result hnil (hf hnil _ hb)
  | report ho => exact .report ho

/-- A function of two results. Whichever of the two stops first, the offset is one of those of
both. -/
theorem both {r₁ : Except Diagnostic β} {r₂ : Except Diagnostic γ} (h₁ : StopsAt offsets₁ good₁ r₁)
    (h₂ : StopsAt offsets₂ good₂ r₂) {f : β → γ → α}
    (hoffsets : ∀ o, o ∈ offsets ↔ o ∈ offsets₁ ∨ o ∈ offsets₂)
    (hf : offsets = [] → ∀ b c, good₁ b → good₂ c → good (f b c)) :
    StopsAt offsets good (do return f (← r₁) (← r₂)) := by
  cases h₁ with
  | report ho => exact .report ((hoffsets _).mpr (.inl ho))
  | result hnil₁ hb =>
    cases h₂ with
    | report ho => exact .report ((hoffsets _).mpr (.inr ho))
    | result hnil₂ hc =>
      have hnil : offsets = [] := by
        rw [List.eq_nil_iff_forall_not_mem]
        intro o ho
        rcases (hoffsets o).mp ho with ho | ho
        · rw [hnil₁] at ho
          contradiction
        · rw [hnil₂] at ho
          contradiction
      exact .result hnil (hf hnil _ _ hb hc)

theorem error_iff {r : Except Diagnostic α} (h : StopsAt offsets good r) :
    (∃ d, r = .error d) ↔ offsets ≠ [] := by
  cases h with
  | result hnil _ => simp [hnil]
  | report ho => exact ⟨fun _ => List.ne_nil_of_mem ho, fun _ => ⟨_, rfl⟩⟩

theorem exists_report {d : Diagnostic} (h : StopsAt offsets good (.error d)) :
    ∃ o ∈ offsets, d = .errorReached o := by
  cases h with
  | report ho => exact ⟨_, ho, rfl⟩

theorem nil_of_ok {a : α} (h : StopsAt offsets good (.ok a)) : offsets = [] := by
  cases h with
  | result hnil _ => exact hnil

/-- Without errors there is a result. -/
theorem exists_ok {r : Except Diagnostic α} (h : StopsAt [] good r) : ∃ a, r = .ok a := by
  cases h with
  | result => exact ⟨_, rfl⟩
  | report ho => contradiction

theorem good_of_ok {a : α} (h : StopsAt offsets good (.ok a)) : good a := by
  cases h with
  | result _ ha => exact ha

end StopsAt

namespace Expr

/-! ### Values and samples -/

section Values

variable {R : Type} [Zero R] [One R] [NatCast R] [Add R] [Sub R] [Mul R] [Div R] [Neg R] [BEq R]
  [Numeral R] [Elementary R]

/-- A value stops at the leftmost error. -/
theorem stopsAt_eval (t : Expr R) (x : R) :
    StopsAt t.errorOffsets.head?.toList (fun _ => True) (t.eval x) := by
  induction t with
  | error o => exact .report (List.mem_singleton.mpr rfl)
  | unary op u ih =>
    rw [errorOffsets_unary]
    exact ih.map fun _ _ _ => trivial
  | binary op l r ihl ihr =>
    rw [errorOffsets_binary, eval]
    generalize l.eval x = a at ihl
    generalize r.eval x = b at ihr
    cases ihl with
    | report ho =>
      obtain ⟨os, hl⟩ : ∃ os, l.errorOffsets = _ :: os :=
        List.head?_eq_some_iff.mp (Option.mem_toList.mp ho)
      rw [hl]
      exact .report (List.mem_singleton.mpr rfl)
    | result hnil _ =>
      have hl : l.errorOffsets = [] := by simpa using hnil
      rw [hl, List.nil_append]
      exact ihr.map fun _ _ _ => trivial
  | _ => exact .result rfl trivial

/-- If none of its steps fails, neither does a walk through a list. -/
theorem exists_mapM_eq_ok {α β : Type} {f : α → Except Diagnostic β} (as : List α)
    (h : ∀ a, ∃ b, f a = .ok b) : ∃ bs, as.mapM f = .ok bs := by
  induction as with
  | nil => exact ⟨[], rfl⟩
  | cons a as ih =>
    obtain ⟨b, hb⟩ := h a
    obtain ⟨bs, hbs⟩ := ih
    exact ⟨b :: bs, by rw [List.mapM_cons, hb, hbs]; rfl⟩

/-- A sample stops at the leftmost error. -/
theorem stopsAt_sample (t : Expr R) (first last : R) (steps : Nat) :
    StopsAt t.errorOffsets.head?.toList (fun _ => True) (t.sample first last steps) := by
  rw [sample]
  split
  · next o os hoffsets =>
    rw [hoffsets]
    exact .report (List.mem_singleton.mpr rfl)
  · next hnil =>
    have hvalue : ∀ x, ∃ y, t.eval x = .ok y := by
      intro x
      have h := stopsAt_eval t x
      rw [hnil] at h
      generalize t.eval x = r at h
      cases h with
      | result => exact ⟨_, rfl⟩
      | report ho => contradiction
    have hstep : ∀ i : Nat, ∃ point, (do
        let x := samplePoint first last steps i
        return (x, ← t.eval x) : Except Diagnostic (R × R)) = .ok point := by
      intro i
      obtain ⟨y, hy⟩ := hvalue (samplePoint first last steps i)
      dsimp only
      rw [hy]
      exact ⟨_, rfl⟩
    obtain ⟨points, hpoints⟩ := exists_mapM_eq_ok (List.range (steps + 1)) hstep
    rw [hpoints, hnil]
    exact .result rfl trivial

end Values

/-! ### Derivatives -/

section Derivatives

/-- A constant has no error leaf. -/
theorem errorOffsets_of_isConstant {R : Type} [Zero R] [BEq R] {t : Expr R}
    (h : t.isConstant = true) : t.errorOffsets = [] := by
  induction t with
  | error => contradiction
  | unary op u ih => rw [errorOffsets_unary, ih h]
  | binary op l r ihl ihr =>
    obtain ⟨hl, hr⟩ := Bool.and_eq_true_iff.mp h
    rw [errorOffsets_binary, ihl hl, ihr hr]
    rfl
  | _ => rfl

variable {R : Type} [Zero R] [One R] [NatCast R] [OfScientific R] [BEq R] [Numeral R]

/-- The derivative of a function has the errors of its argument at most. -/
theorem errorOffsets_outerDerivative (f : Func) {u : Expr R} (hu : u.errorOffsets = []) :
    (f.outerDerivative u).errorOffsets = [] := by
  cases f <;>
    simp [Func.outerDerivative, outerArcsin, outerArctan, outerArcsec, inverse, squared, two, hu]

omit [One R] [NatCast R] [OfScientific R] in
/-- The chain rule stops at the errors of the inner tree. Otherwise it gives zero, or the outer
derivative, or that times the inner one. -/
theorem stopsAt_chain_of_rules {outer inner : Expr R} {good good' : Expr R → Prop}
    {r : Except Diagnostic (Expr R)} (h : StopsAt inner.errorOffsets good' r)
    (hzero : inner.errorOffsets = [] → good (.const 0))
    (houter : inner.errorOffsets = [] → good outer)
    (hproduct : inner.errorOffsets = [] → ∀ d, good' d →
      good (binaryGrouped .times outer (group d))) :
    StopsAt inner.errorOffsets good (chain outer inner r) := by
  unfold chain
  split
  · next hconstant =>
    have hnil := errorOffsets_of_isConstant hconstant
    exact .result hnil (hzero hnil)
  · split
    · next hvar =>
      have hnil : inner.errorOffsets = [] := by
        cases inner with
        | var => rfl
        | _ => contradiction
      exact .result hnil (houter hnil)
    · exact h.map hproduct

omit [One R] [NatCast R] [OfScientific R] in
/-- What the chain rule gives has no other errors than the outer derivative. -/
theorem stopsAt_chain {outer inner : Expr R} {good : Expr R → Prop}
    {r : Except Diagnostic (Expr R)}
    (h : StopsAt inner.errorOffsets (fun d => d.errorOffsets = []) r)
    (hgood : inner.errorOffsets = [] → ∀ d : Expr R,
      (d.errorOffsets = [] ∨ d.errorOffsets = outer.errorOffsets) → good d) :
    StopsAt inner.errorOffsets good (chain outer inner r) :=
  stopsAt_chain_of_rules h (fun hnil => hgood hnil _ (.inl rfl))
    (fun hnil => hgood hnil _ (.inr rfl)) fun hnil d hd => hgood hnil _ (.inr (by simp [hd]))

variable [Mul R]

/-- **A derivative stops at some error, or has none itself.** -/
theorem stopsAt_derivative (t : Expr R) :
    StopsAt t.errorOffsets (fun d => d.errorOffsets = []) t.derivative := by
  induction t with
  | const | var | poly => exact .result rfl rfl
  | error o => exact .report (List.mem_singleton.mpr rfl)
  | unary op u ih =>
    rw [errorOffsets_unary]
    cases op with
    | negate => exact ih.map fun _ d hd => by rw [errorOffsets_negated, hd]
    | group => exact ih.map fun _ d hd => by rw [errorOffsets_unary, hd]
    | exp => exact stopsAt_chain ih fun hnil d hd => by simpa [hnil] using hd
    | reciprocal =>
      exact stopsAt_chain ih fun hnil d hd => by simpa [inverse, squared, two, hnil] using hd
    | call f =>
      by_cases hfloor : f = .floor
      · subst hfloor
        rw [derivative]
        cases hu : u.errorOffsets with
        | nil => exact .result rfl rfl
        | cons o os => exact .report (List.mem_cons_self ..)
      · rw [derivative]
        · exact stopsAt_chain ih fun hnil d hd => by
            simpa [errorOffsets_outerDerivative f hnil] using hd
        · exact hfloor
  | binary op l r ihl ihr =>
    have hmem : ∀ o, o ∈ l.errorOffsets ++ r.errorOffsets ↔
        o ∈ l.errorOffsets ∨ o ∈ r.errorOffsets := fun o => List.mem_append
    rw [errorOffsets_binary]
    cases op with
    | plus | minus => exact ihl.both ihr hmem fun _ d d' hd hd' => by simp [hd, hd']
    | times =>
      refine ihl.both ihr hmem fun hnil d d' hd hd' => ?_
      obtain ⟨hl, hr⟩ := List.append_eq_nil_iff.mp hnil
      simp [hl, hr, hd, hd']
    | div =>
      refine ihl.both ihr hmem fun hnil d d' hd hd' => ?_
      obtain ⟨hl, hr⟩ := List.append_eq_nil_iff.mp hnil
      simp [squared, two, hl, hr, hd, hd']
    | pow =>
      rw [derivative]
      split
      · next hconstant =>
        have hr := errorOffsets_of_isConstant hconstant
        rw [hr, List.append_nil]
        exact stopsAt_chain ihl fun hnil d hd => by simpa [hnil, hr] using hd
      · -- the exponent is differentiated first
        refine ihr.both ihl (fun o => (hmem o).trans or_comm) fun hnil d d' hd hd' => ?_
        obtain ⟨hl, hr⟩ := List.append_eq_nil_iff.mp hnil
        simp [hl, hr, hd, hd']

/-- A composition stops at the errors of its inner part, whatever the outer part is. -/
theorem stopsAt_chainRule (outer inner : Expr R) :
    StopsAt inner.errorOffsets (fun _ => True) (outer.chainRule inner) :=
  stopsAt_chain (stopsAt_derivative inner) fun _ _ _ => trivial

end Derivatives

/-! ### Reports -/

/-- A computation on a tree that fails if and only if the tree has an error leaf. What it then
reports is that an error leaf was met, at a place one wide, whose offset is one of those given. -/
structure FailsAtErrors {R α : Type} [Zero R] [BEq R] (t : Expr R) (r : Except Diagnostic α)
    (reported : Nat → Prop) : Prop where
  /-- It fails if there is an error leaf, and only then. -/
  fails_iff : (∃ d, r = .error d) ↔ t.hasError = true
  /-- It reports one of the errors. -/
  report : ∀ d, r = .error d → ∃ o, reported o ∧ d = ⟨[⟨o, o + 1⟩], .errorReached o⟩

theorem failsAtErrors_of_stopsAt {R α : Type} [Zero R] [BEq R] {t : Expr R} {offsets : List Nat}
    {good : α → Prop} {r : Except Diagnostic α} {reported : Nat → Prop}
    (h : StopsAt offsets good r) (hnil : offsets = [] ↔ t.errorOffsets = [])
    (hreported : ∀ o ∈ offsets, reported o) : FailsAtErrors t r reported where
  fails_iff := by
    rw [h.error_iff, Ne, hnil, ← hasError_eq_false_iff, Bool.not_eq_false]
  report d hd := by
    subst hd
    obtain ⟨o, ho, rfl⟩ := h.exists_report
    exact ⟨o, hreported o ho, rfl⟩

variable {R : Type} [Zero R] [One R] [NatCast R] [OfScientific R] [Add R] [Sub R] [Mul R] [Div R]
  [Neg R] [BEq R] [Numeral R] [Elementary R]

omit [NatCast R] [Add R] [Sub R] [Mul R] [Div R] [Neg R] [Elementary R] in
/-- A tree that was read from a text has one error at most. -/
theorem exists_errorOffsets_parse (v text : String) :
    ∃ o, ∀ o' ∈ (parse v text : Expr R).errorOffsets, o' = o := by
  obtain ⟨d, hd⟩ | ⟨p, ys, -, -, herror⟩ := parse_cases (R := R) v text
  · refine ⟨0, fun o' ho' => ?_⟩
    rw [hd, d.errorFree_denote] at ho'
    contradiction
  · rw [herror]
    exact ⟨_, fun o' ho' => List.mem_singleton.mp ho'⟩

/-- **Computations fail exactly at errors.** Values, samples, derivatives and the chain rule fail if
and only if the tree that they are computed from has an error leaf. Values and samples report the
leftmost one, the others report one of them, and of a tree that was read all report the same. A
derivative that exists has no error leaf. -/
theorem failsAtErrors :
    (∀ (t : Expr R) (x : R), FailsAtErrors t (t.eval x) (t.errorOffsets.head? = some ·)) ∧
    (∀ (t : Expr R) (first last : R) (steps : Nat),
      FailsAtErrors t (t.sample first last steps) (t.errorOffsets.head? = some ·)) ∧
    (∀ t : Expr R, FailsAtErrors t t.derivative (· ∈ t.errorOffsets)) ∧
    (∀ outer inner : Expr R,
      FailsAtErrors inner (outer.chainRule inner) (· ∈ inner.errorOffsets)) ∧
    (∀ t d : Expr R, t.derivative = .ok d → d.hasError = false) ∧
    ∀ v text : String, ∃ o, ∀ (x first last : R) (steps : Nat), let t : Expr R := parse v text
      FailsAtErrors t (t.eval x) (· = o) ∧ FailsAtErrors t (t.sample first last steps) (· = o) ∧
        FailsAtErrors t t.derivative (· = o) := by
  have hhead : ∀ t : Expr R, t.errorOffsets.head?.toList = [] ↔ t.errorOffsets = [] := by
    intro t
    simp
  have hmem : ∀ (t : Expr R) (o : Nat), o ∈ t.errorOffsets.head?.toList →
      t.errorOffsets.head? = some o := by
    intro t o ho
    exact Option.mem_toList.mp ho
  refine ⟨fun t x => ?_, fun t first last steps => ?_, fun t => ?_, fun outer inner => ?_,
    fun t d hd => ?_, fun v text => ?_⟩
  · exact failsAtErrors_of_stopsAt (stopsAt_eval t x) (hhead t) (hmem t)
  · exact failsAtErrors_of_stopsAt (stopsAt_sample t first last steps) (hhead t) (hmem t)
  · exact failsAtErrors_of_stopsAt (stopsAt_derivative t) Iff.rfl fun o ho => ho
  · exact failsAtErrors_of_stopsAt (stopsAt_chainRule outer inner) Iff.rfl fun o ho => ho
  · have h := stopsAt_derivative t
    rw [hd] at h
    exact (hasError_eq_false_iff d).mpr h.good_of_ok
  · obtain ⟨o, ho⟩ := exists_errorOffsets_parse (R := R) v text
    refine ⟨o, fun x first last steps => ?_⟩
    intro t
    have hone : ∀ o' ∈ t.errorOffsets.head?.toList, o' = o := by
      intro o' ho'
      exact ho o' (List.mem_of_mem_head? (hmem t o' ho'))
    exact ⟨failsAtErrors_of_stopsAt (stopsAt_eval t x) (hhead t) hone,
      failsAtErrors_of_stopsAt (stopsAt_sample t first last steps) (hhead t) hone,
      failsAtErrors_of_stopsAt (stopsAt_derivative t) Iff.rfl ho⟩

end Expr

end Univariate
