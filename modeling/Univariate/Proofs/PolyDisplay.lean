import Univariate.Poly.Display
import Univariate.Proofs.Assembling
import Univariate.Proofs.Constancy
import Univariate.Proofs.SessionRuns

/-!
# Displays determine polynomials

A polynomial is displayed without much of what it consists of. Zero terms are left out, and so are a
magnitude of one in front of the variable, the exponent one, and the variable of the constant term,
and the sign of a term is moved away from its number. Still the coefficients can be told from the
display, up to the signs of zeros.

What is left of a term is a number, then the name of the variable, then an exponent, and each of the
three may be missing. A name starts with a character that no number contains, although it may go on
with digits, so it is clear where the number ends. There is no blank in a term, so that it ends at
the blank in front of the next operator. A missing number stands for one, which is never written in
its place, and the number of a constant term is not missing.

## Main definitions

* `ExponentStyle`: what is used of the way exponents are written.
* `Poly.spelledTerms`: the terms that are written, also of a polynomial without any.

## Main results

* `Double.beq_iff`: which doubles are equal.
* `Poly.termText_injective`, `Poly.sumText_injective`: the text of a term, and of a sum of terms.
* `Poly.forall₂_beq_iff_terms_eq`: the terms determine the coefficients.
* `Poly.display_eq_iff_coeffs`: the display determines the coefficients.
-/

namespace Univariate

open Float.Model Float.Model.UnpackedFloat Univariate.Text

/-! ### Equal doubles -/

/-- The unpacked zeros, of either sign. -/
def IsZero (u : UnpackedFloat) : Prop :=
  ∃ s, u = .zero s

/-- Numbers are equal only to themselves, except for the two zeros. -/
theorem compare_eq_iff {u v : UnpackedFloat} (hu : u ≠ .notANumber) :
    UnpackedFloat.compare u v = some .eq ↔ u = v ∨ IsZero u ∧ IsZero v := by
  cases u with
  | notANumber => contradiction
  | infinity s =>
    cases v with
    | infinity s' => cases s <;> cases s' <;> simp [UnpackedFloat.compare, IsZero] <;> decide
    | _ => cases s <;> simp [UnpackedFloat.compare, IsZero]
  | zero s =>
    cases v with
    | infinity s' => cases s' <;> simp [UnpackedFloat.compare, IsZero]
    | finite s' => cases s' <;> simp [UnpackedFloat.compare, IsZero]
    | _ => simp [UnpackedFloat.compare, IsZero]
  | finite s m q hm =>
    cases v with
    | infinity s' => cases s' <;> simp [UnpackedFloat.compare, IsZero]
    | finite s' m' q' hm' =>
      cases s <;> cases s' <;>
        simp [UnpackedFloat.compare, IsZero, Ordering.then_eq_eq, and_comm]
    | _ => cases s <;> simp [UnpackedFloat.compare, IsZero]

namespace Double

variable {x y : Double}

theorem beq_iff_compare :
    (x == y) = true ↔ UnpackedFloat.compare x.unpacked y.unpacked = some .eq := by
  rw [← unpack_toFloat, ← unpack_toFloat]
  show (UnpackedFloat.compare _ _ == some .eq) = true ↔ _
  exact beq_iff_eq

theorem isUndefined_of_isFinite (hx : x.isFinite = true) : x.isUndefined = false := by
  rw [isUndefined, hx]
  rfl

theorem unpacked_ne_notANumber (hx : x.isFinite = true) : x.unpacked ≠ .notANumber := by
  intro h
  rw [← isUndefined_iff, isUndefined_of_isFinite hx] at h
  contradiction

theorem beq_zero_iff (hx : x.isFinite = true) : (x == 0) = true ↔ IsZero x.unpacked := by
  rw [beq_iff_compare, compare_eq_iff (unpacked_ne_notANumber hx)]
  have hzero : (0 : Double).unpacked = .zero .positive := rfl
  rw [hzero]
  exact ⟨fun h => h.elim (fun h => ⟨_, h⟩) And.left, fun h => .inr ⟨h, _, rfl⟩⟩

/-- **Finite doubles are equal only to themselves**, except for the two zeros. -/
theorem beq_iff (hx : x.isFinite = true) (hy : y.isFinite = true) :
    (x == y) = true ↔ x = y ∨ (x == 0) = true ∧ (y == 0) = true := by
  rw [beq_iff_compare, compare_eq_iff (unpacked_ne_notANumber hx), beq_zero_iff hx, beq_zero_iff hy]
  refine or_congr_left ⟨fun h => ?_, fun h => h ▸ rfl⟩
  rw [eq_of_unpacked_eq h (unpacked_ne_notANumber hy),
    ← eq_of_unpacked_eq rfl (unpacked_ne_notANumber hy)]

/-- A double that counts as a unit is a unit with its sign. -/
theorem eq_of_isUnit (hx : x.isFinite = true) (h : (x == 1 || x == -1) = true) :
    x = if x.isNegative then -1 else 1 := by
  obtain h | h := Bool.or_eq_true_iff.mp h
  · obtain rfl | ⟨-, hone⟩ := (beq_iff hx rfl).mp h
    · rfl
    · exact absurd hone (by decide)
  · obtain rfl | ⟨-, hone⟩ := (beq_iff hx rfl).mp h
    · rfl
    · exact absurd hone (by decide)

/-- A finite double is written as a literal behind its sign. -/
theorem isLiteralText_magnitude_of_isFinite (hx : x.isFinite = true) :
    IsLiteralText x.magnitude.toList := by
  cases hsign : x.isNegative with
  | false => exact isLiteralText_magnitude (isUnsigned_of_isFinite hsign hx) hx
  | true =>
    rw [← magnitude_neg]
    exact isLiteralText_magnitude (isUnsigned_neg hsign hx) (by rw [isFinite_neg, hx])

/-- **A finite double is determined by its sign and its magnitude.** -/
theorem eq_of_magnitude_eq (hx : x.isFinite = true) (hy : y.isFinite = true)
    (hsign : x.isNegative = y.isNegative) (h : x.magnitude = y.magnitude) : x = y := by
  cases hneg : x.isNegative with
  | false =>
    have hx' := literalValue_magnitude (isUnsigned_of_isFinite hneg hx) hx
    have hy' := literalValue_magnitude (isUnsigned_of_isFinite (hsign ▸ hneg) hy) hy
    rw [← hx', ← hy', h]
  | true =>
    have hx' := literalValue_magnitude (isUnsigned_neg hneg hx) (by rw [isFinite_neg, hx])
    have hy' := literalValue_magnitude (isUnsigned_neg (hsign ▸ hneg) hy) (by rw [isFinite_neg, hy])
    rw [magnitude_neg] at hx' hy'
    rw [← neg_neg x, ← neg_neg y, ← hx', ← hy', h]

end Double

/-! ### Cutting a text -/

/-- Two texts that are cut at the first character of a kind agree on both sides of the cut. -/
theorem append_inj_of_head {p : Char → Bool} {as as' bs bs' : List Char}
    (has : ∀ c ∈ as, p c = true) (has' : ∀ c ∈ as', p c = true)
    (hbs : ∀ c ∈ bs.head?, p c = false) (hbs' : ∀ c ∈ bs'.head?, p c = false)
    (h : as ++ bs = as' ++ bs') : as = as' ∧ bs = bs' := by
  have hnil : ∀ {cs : List Char}, (∀ c ∈ cs.head?, p c = false) → cs.takeWhile p = [] := by
    intro cs hcs
    cases cs with
    | nil => rfl
    | cons c cs => rw [List.takeWhile_cons_of_neg (by simp [hcs c rfl])]
  have htake := congrArg (List.takeWhile p) h
  rw [List.takeWhile_append_of_pos has, List.takeWhile_append_of_pos has', hnil hbs, hnil hbs',
    List.append_nil, List.append_nil] at htake
  subst htake
  exact ⟨rfl, List.append_cancel_left h⟩

/-! ### Terms -/

/-- A way to write exponents, of which it is used that they can be told apart from each other, from
nothing and from what is behind a blank. -/
structure ExponentStyle (power : Nat → String) : Prop where
  /-- No two exponents are written in the same way. -/
  injective : Function.Injective power
  /-- Something is written. -/
  ne_empty : ∀ k, power k ≠ ""
  /-- There is no blank in it. -/
  not_blank : ∀ k, ∀ c ∈ (power k).toList, isBlank c = false

namespace Poly

variable {name : String} {power : Nat → String} {t u : Double × Nat}

/-- The number in front of the variable, which is missing if it is one. -/
def numberText : Double × Nat → String
  | (c, 0) => Numeral.magnitude c
  | (c, _ + 1) => if c == 1 || c == -1 then "" else Numeral.magnitude c

/-- The variable with its exponent. Either of them may be missing. -/
def variableText (name : String) (power : Nat → String) : Nat → String
  | 0 => ""
  | k + 1 => name ++ if k = 0 then "" else power (k + 1)

theorem termText_eq (t : Double × Nat) :
    termText name power t = numberText t ++ variableText name power t.2 := by
  obtain ⟨c, _ | _ | k⟩ := t
  · exact String.append_empty.symm
  · exact congrArg (numberText (c, 1) ++ ·) String.append_empty.symm
  · rfl

/-- A number that is missing is a unit, and any other one is written as its magnitude. -/
theorem numberText_cases (ht : t.1.isFinite = true) :
    numberText t = "" ∧ t.1 = (if t.1.isNegative then -1 else 1) ∨
      numberText t = t.1.magnitude ∧ IsLiteralText (numberText t).toList := by
  have hliteral := Double.isLiteralText_magnitude_of_isFinite ht
  obtain ⟨c, _ | k⟩ := t
  · exact .inr ⟨rfl, hliteral⟩
  · by_cases hunit : (c == 1 || c == -1) = true
    · exact .inl ⟨if_pos hunit, Double.eq_of_isUnit ht hunit⟩
    · have hnumber : numberText (c, k + 1) = c.magnitude := if_neg hunit
      exact .inr ⟨hnumber, hnumber ▸ hliteral⟩

/-- Whether a character can stand in a number. -/
def isNumberChar (c : Char) : Bool :=
  c.isDigit || c == '.'

theorem isNumberChar_of_mem_numberText (ht : t.1.isFinite = true) :
    ∀ c ∈ (numberText t).toList, isNumberChar c = true := by
  intro c hc
  obtain ⟨hnumber, -⟩ | ⟨-, hliteral⟩ := numberText_cases ht
  · simp [hnumber] at hc
  · simpa [isNumberChar] using hliteral.isDigit_or_eq_point hc

theorem ne_empty_of_isLiteralText {s : String} (h : IsLiteralText s.toList) : s ≠ "" := by
  rintro rfl
  obtain ⟨c, cs, hcs, -⟩ := h.exists_cons
  contradiction

/-- The part behind the number starts as the name does. -/
theorem isNameStart_head?_variableText (hname : IsVariable name) (k : Nat) :
    ∀ c ∈ (variableText name power k).toList.head?, c.isDigit = false ∧ isNameStart c = true := by
  cases k with
  | zero => simp [variableText]
  | succ k =>
    obtain ⟨d, ds, hds, hstart⟩ := hname.isNameText.exists_cons
    simpa [variableText, hds] using hstart

/-- A name does not start with a character that could belong to a number in front of it. -/
theorem isNumberChar_head?_variableText (hname : IsVariable name) (k : Nat) :
    ∀ c ∈ (variableText name power k).toList.head?, isNumberChar c = false := by
  intro c hc
  obtain ⟨hdigit, hstart⟩ := isNameStart_head?_variableText hname k c hc
  have hpoint : c ≠ '.' := by
    rintro rfl
    exact absurd hstart (by decide)
  simp [isNumberChar, hdigit, hpoint]

theorem variableText_injective (hname : IsVariable name) (hpower : ExponentStyle power) :
    Function.Injective (variableText name power) := by
  have hne : name ≠ "" := fun h => hname.isNameText.ne_nil (by rw [h]; rfl)
  intro k k' h
  match k, k' with
  | 0, 0 => rfl
  | 0, k' + 1 => simp [variableText, hne] at h
  | k + 1, 0 => simp [variableText, hne] at h
  | k + 1, k' + 1 =>
    have h := (String.append_right_inj name).mp h
    split at h
    · split at h
      · omega
      · exact absurd h.symm (hpower.ne_empty _)
    · split at h
      · exact absurd h (hpower.ne_empty _)
      · exact hpower.injective h

/-- **The text of a term, with its sign, determines the term.** -/
theorem termText_injective (hname : IsVariable name) (hpower : ExponentStyle power)
    (ht : t.1.isFinite = true) (hu : u.1.isFinite = true)
    (hsign : t.1.isNegative = u.1.isNegative)
    (h : termText name power t = termText name power u) : t = u := by
  have hlist := congrArg String.toList h
  rw [termText_eq, termText_eq, String.toList_append, String.toList_append] at hlist
  obtain ⟨hnumber, hvariable⟩ := append_inj_of_head (isNumberChar_of_mem_numberText ht)
    (isNumberChar_of_mem_numberText hu) (isNumberChar_head?_variableText hname _)
    (isNumberChar_head?_variableText hname _) hlist
  have hnumber := String.toList_injective hnumber
  have hexponent := variableText_injective hname hpower (String.toList_injective hvariable)
  refine Prod.ext ?_ hexponent
  obtain ⟨hnt, hunit⟩ | ⟨hnt, hlt⟩ := numberText_cases ht
  · obtain ⟨-, hunit'⟩ | ⟨-, hlu⟩ := numberText_cases hu
    · rw [hunit, hunit', hsign]
    · exact absurd (hnumber.symm.trans hnt) (ne_empty_of_isLiteralText hlu)
  · obtain ⟨hnu, -⟩ | ⟨hnu, -⟩ := numberText_cases hu
    · exact absurd (hnumber.trans hnu) (ne_empty_of_isLiteralText hlt)
    · exact Double.eq_of_magnitude_eq ht hu hsign (by rw [← hnt, ← hnu, hnumber])

/-- There is no blank in a term. -/
theorem not_blank_of_mem_termText (hname : IsVariable name) (hpower : ExponentStyle power)
    (ht : t.1.isFinite = true) :
    ∀ c ∈ (termText name power t).toList, isBlank c = false := by
  intro c hc
  rw [termText_eq, String.toList_append, List.mem_append] at hc
  obtain hc | hc := hc
  · obtain hdigit | hpoint := Bool.or_eq_true_iff.mp (isNumberChar_of_mem_numberText ht c hc)
    · exact isBlank_of_isDigit hdigit
    · rw [eq_of_beq hpoint]
      decide
  · generalize t.2 = k at hc
    cases k with
    | zero => simp [variableText] at hc
    | succ k =>
      rw [variableText, String.toList_append, List.mem_append] at hc
      obtain hc | hc := hc
      · exact hname.not_blank c hc
      · split at hc
        · contradiction
        · exact hpower.not_blank _ c hc

/-- A term does not start with a sign. -/
theorem ne_minus_of_mem_head?_termText (hname : IsVariable name) (ht : t.1.isFinite = true) :
    ∀ c ∈ (termText name power t).toList.head?, c ≠ '-' := by
  rintro c hc rfl
  rw [termText_eq, String.toList_append, List.head?_append, Option.mem_def,
    Option.or_eq_some_iff] at hc
  obtain hc | ⟨-, hc⟩ := hc
  · have hnumber := isNumberChar_of_mem_numberText ht _ (List.mem_of_mem_head? hc)
    exact absurd hnumber (by decide)
  · obtain ⟨-, hstart⟩ := isNameStart_head?_variableText hname _ _ hc
    exact absurd hstart (by decide)

/-! ### Sums of terms -/

/-- The text of a sum with at least one term. -/
def sumText (name : String) (power : Nat → String) (t : Double × Nat) (ts : List (Double × Nat)) :
    String :=
  (if Numeral.isNegative t.1 then "-" else "") ++ termText name power t ++ tailText name power ts

/-- Behind a term there is an operator between blanks. -/
theorem toList_tailText_cons (t : Double × Nat) (ts : List (Double × Nat)) :
    (tailText name power (t :: ts)).toList =
      ' ' :: (if t.1.isNegative then '-' else '+') :: ' ' ::
        ((termText name power t).toList ++ (tailText name power ts).toList) := by
  have hcons : tailText name power (t :: ts) =
      (if t.1.isNegative then " - " else " + ") ++ termText name power t ++
        tailText name power ts := rfl
  rw [hcons, String.toList_append, String.toList_append, List.append_assoc]
  split <;> rfl

theorem isBlank_head?_tailText (ts : List (Double × Nat)) :
    ∀ c ∈ (tailText name power ts).toList.head?, isBlank c = true := by
  cases ts with
  | nil => simp [tailText]
  | cons t ts =>
    rw [toList_tailText_cons]
    rintro _ ⟨⟩
    rfl

/-- The first term of a sum ends at the first blank. -/
theorem termText_append_injective (hname : IsVariable name) (hpower : ExponentStyle power)
    (ht : t.1.isFinite = true) (hu : u.1.isFinite = true) {ts us : List (Double × Nat)}
    (h : (termText name power t).toList ++ (tailText name power ts).toList =
      (termText name power u).toList ++ (tailText name power us).toList) :
    termText name power t = termText name power u ∧
      tailText name power ts = tailText name power us := by
  have hterm : ∀ {t : Double × Nat}, t.1.isFinite = true →
      ∀ c ∈ (termText name power t).toList, (!isBlank c) = true := by
    intro t ht c hc
    rw [not_blank_of_mem_termText hname hpower ht c hc]
    rfl
  have htail : ∀ ts : List (Double × Nat),
      ∀ c ∈ (tailText name power ts).toList.head?, (!isBlank c) = false := by
    intro ts c hc
    rw [isBlank_head?_tailText ts c hc]
    rfl
  obtain ⟨hterms, htails⟩ := append_inj_of_head (hterm ht) (hterm hu) (htail ts) (htail us) h
  exact ⟨String.toList_injective hterms, String.toList_injective htails⟩

theorem eq_of_ite_eq {α : Type} {a b : Bool} {x y : α} (hne : x ≠ y)
    (h : (if a then x else y) = if b then x else y) : a = b := by
  cases a <;> cases b <;> simp_all

/-- **The text behind the first term determines the other terms.** -/
theorem tailText_injective (hname : IsVariable name) (hpower : ExponentStyle power)
    {ts us : List (Double × Nat)} (hts : ∀ t ∈ ts, t.1.isFinite = true)
    (hus : ∀ u ∈ us, u.1.isFinite = true)
    (h : tailText name power ts = tailText name power us) : ts = us := by
  induction ts generalizing us with
  | nil =>
    cases us with
    | nil => rfl
    | cons u us =>
      have hlist := congrArg String.toList h
      rw [toList_tailText_cons] at hlist
      contradiction
  | cons t ts ih =>
    cases us with
    | nil =>
      have hlist := congrArg String.toList h
      rw [toList_tailText_cons] at hlist
      contradiction
    | cons u us =>
      have hlist := congrArg String.toList h
      rw [toList_tailText_cons, toList_tailText_cons] at hlist
      simp only [List.cons.injEq, true_and] at hlist
      obtain ⟨hsign, hrest⟩ := hlist
      have ht := hts t (List.mem_cons_self ..)
      have hu := hus u (List.mem_cons_self ..)
      obtain ⟨hterm, htail⟩ := termText_append_injective hname hpower ht hu hrest
      rw [termText_injective hname hpower ht hu (eq_of_ite_eq (by decide) hsign) hterm,
        ih (fun t' ht' => hts t' (List.mem_cons_of_mem _ ht'))
          (fun u' hu' => hus u' (List.mem_cons_of_mem _ hu')) htail]

/-- **The text of a sum determines its terms.** -/
theorem sumText_injective (hname : IsVariable name) (hpower : ExponentStyle power)
    {ts us : List (Double × Nat)} (hts : ∀ t' ∈ t :: ts, t'.1.isFinite = true)
    (hus : ∀ u' ∈ u :: us, u'.1.isFinite = true)
    (h : sumText name power t ts = sumText name power u us) : t :: ts = u :: us := by
  have ht := hts t (List.mem_cons_self ..)
  have hu := hus u (List.mem_cons_self ..)
  have hsign : ∀ c : Double, ∀ a ∈ (if Numeral.isNegative c then "-" else "").toList,
      (a == '-') = true := by
    intro c
    split <;> simp
  -- what is behind the sign starts with a term, and with a blank if the term were empty
  have hhead : ∀ {t : Double × Nat} {ts : List (Double × Nat)}, t.1.isFinite = true →
      ∀ a ∈ ((termText name power t).toList ++ (tailText name power ts).toList).head?,
        (a == '-') = false := by
    intro t ts ht a ha
    rw [List.head?_append, Option.mem_def, Option.or_eq_some_iff] at ha
    rw [beq_eq_false_iff_ne]
    obtain ha | ⟨-, ha⟩ := ha
    · exact ne_minus_of_mem_head?_termText hname ht a ha
    · rintro rfl
      exact absurd (isBlank_head?_tailText ts _ ha) (by decide)
  have hlist := congrArg String.toList h
  simp only [sumText, String.toList_append, List.append_assoc] at hlist
  obtain ⟨hsigns, hrest⟩ := append_inj_of_head (hsign _) (hsign _) (hhead ht) (hhead hu) hlist
  have hnegative := eq_of_ite_eq (by decide) (String.toList_injective hsigns)
  obtain ⟨hterm, htail⟩ := termText_append_injective hname hpower ht hu hrest
  rw [termText_injective hname hpower ht hu hnegative hterm,
    tailText_injective hname hpower (fun t' ht' => hts t' (List.mem_cons_of_mem _ ht'))
      (fun u' hu' => hus u' (List.mem_cons_of_mem _ hu')) htail]

/-! ### Coefficients -/

variable {p q : Poly Double}

/-- The terms that are written. A polynomial without any is written as the constant zero. -/
def spelledTerms (p : Poly Double) : List (Double × Nat) :=
  if p.terms = [] then [(0, 0)] else p.terms

theorem text_eq_sumText (power : Nat → String) (p : Poly Double) :
    ∃ t ts, p.spelledTerms = t :: ts ∧ p.text power = sumText p.name power t ts := by
  rw [spelledTerms, text]
  cases h : p.terms with
  | nil => exact ⟨(0, 0), [], rfl, rfl⟩
  | cons t ts => exact ⟨t, ts, if_neg (List.cons_ne_nil _ _), rfl⟩

theorem mem_terms : t ∈ p.terms ↔ p.coeffs[t.2]? = some t.1 ∧ (t.1 == 0) = false := by
  simp [terms, List.mem_zipIdx_iff_getElem?]

/-- The polynomials whose coefficients are finite. -/
def IsFinite (p : Poly Double) : Prop :=
  ∀ c ∈ p.coeffs, c.isFinite = true

theorem IsFinite.of_mem_spelledTerms (hp : p.IsFinite) :
    ∀ t ∈ p.spelledTerms, t.1.isFinite = true := by
  intro t ht
  rw [spelledTerms] at ht
  split at ht
  · rw [List.mem_singleton.mp ht]
    rfl
  · exact hp _ (List.mem_of_getElem? (mem_terms.mp ht).1)

theorem terms_eq_of_spelledTerms_eq (h : p.spelledTerms = q.spelledTerms) : p.terms = q.terms := by
  -- the zero that is written in place of no terms is not a term
  have hzero : ∀ r : Poly Double, r.terms ≠ [(0, 0)] := by
    intro r hr
    have hmem : ((0, 0) : Double × Nat) ∈ r.terms := hr ▸ List.mem_singleton_self _
    exact absurd (mem_terms.mp hmem).2 (by decide)
  rw [spelledTerms, spelledTerms] at h
  split at h
  · split at h
    · next hp hq => rw [hp, hq]
    · exact absurd h.symm (hzero q)
  · split at h
    · exact absurd h (hzero p)
    · exact h

/-- Equal coefficients are left out together, or they are the same. -/
theorem filter_zipIdx_eq_of_forall₂_beq {as bs : List Double} (has : ∀ a ∈ as, a.isFinite = true)
    (hbs : ∀ b ∈ bs, b.isFinite = true) (h : List.Forall₂ (fun a b => (a == b) = true) as bs)
    (n : Nat) : ((as.zipIdx n).filter fun t => !(t.1 == 0)) =
      (bs.zipIdx n).filter fun t => !(t.1 == 0) := by
  induction h generalizing n with
  | nil => rfl
  | @cons a b as bs hab _ ih =>
    have ih := ih (fun c hc => has c (List.mem_cons_of_mem _ hc))
      (fun c hc => hbs c (List.mem_cons_of_mem _ hc)) (n + 1)
    rw [List.zipIdx_cons, List.zipIdx_cons, List.filter_cons, List.filter_cons, ih]
    have ha := has a (List.mem_cons_self ..)
    have hb := hbs b (List.mem_cons_self ..)
    obtain rfl | ⟨hzero, hzero'⟩ := (Double.beq_iff ha hb).mp hab
    · rfl
    · simp [hzero, hzero']

/-- The last coefficient is a term, unless it is the only one. -/
theorem length_coeffs_le_of_terms_eq (h : p.terms = q.terms) :
    p.coeffs.length ≤ q.coeffs.length := by
  by_contra hlt
  have hpos := List.length_pos_iff.mpr q.isTrimmed.1
  have hindex : p.coeffs.length - 1 < p.coeffs.length := by omega
  have hlast : p.coeffs[p.coeffs.length - 1]? = some p.coeffs[p.coeffs.length - 1] :=
    List.getElem?_eq_getElem hindex
  have hne := p.isTrimmed.2 (by omega) _ (List.getLast?_eq_getElem?.trans hlast)
  have hterm : (p.coeffs[p.coeffs.length - 1], p.coeffs.length - 1) ∈ p.terms :=
    mem_terms.mpr ⟨hlast, hne⟩
  rw [h] at hterm
  obtain ⟨hlt', -⟩ := List.getElem?_eq_some_iff.mp (mem_terms.mp hterm).1
  omega

/-- A coefficient other than zero is the same in all polynomials with the same terms. -/
theorem getElem_eq_of_terms_eq (h : p.terms = q.terms) {i : Nat} (hi : i < p.coeffs.length)
    (hi' : i < q.coeffs.length) (hne : (p.coeffs[i] == 0) = false) : q.coeffs[i] = p.coeffs[i] := by
  have hterm : (p.coeffs[i], i) ∈ p.terms := mem_terms.mpr ⟨List.getElem?_eq_getElem hi, hne⟩
  rw [h] at hterm
  exact (List.getElem?_eq_some_iff.mp (mem_terms.mp hterm).1).2

/-- **The terms determine the coefficients**, up to the signs of zeros. -/
theorem forall₂_beq_iff_terms_eq (hp : p.IsFinite) (hq : q.IsFinite) :
    List.Forall₂ (fun a b => (a == b) = true) p.coeffs q.coeffs ↔ p.terms = q.terms := by
  constructor
  · exact fun h => congrArg List.reverse (filter_zipIdx_eq_of_forall₂_beq hp hq h 0)
  · intro h
    refine List.forall₂_iff_get.mpr ⟨?_, fun i hi hi' => ?_⟩
    · exact Nat.le_antisymm (length_coeffs_le_of_terms_eq h) (length_coeffs_le_of_terms_eq h.symm)
    · rw [List.get_eq_getElem, List.get_eq_getElem,
        Double.beq_iff (hp _ (List.getElem_mem hi)) (hq _ (List.getElem_mem hi'))]
      by_cases ha : (p.coeffs[i] == 0) = true
      · by_cases hb : (q.coeffs[i] == 0) = true
        · exact .inr ⟨ha, hb⟩
        · exact .inl (getElem_eq_of_terms_eq h.symm hi' hi (Bool.not_eq_true _ ▸ hb))
      · exact .inl (getElem_eq_of_terms_eq h hi hi' (Bool.not_eq_true _ ▸ ha)).symm

/-! ### Displays -/

/-- **The display determines the coefficients**, however exponents are written. -/
theorem text_eq_iff (hpower : ExponentStyle power) (hname : IsVariable p.name)
    (hnames : p.name = q.name) (hp : p.IsFinite) (hq : q.IsFinite) :
    p.text power = q.text power ↔
      List.Forall₂ (fun a b => (a == b) = true) p.coeffs q.coeffs := by
  rw [forall₂_beq_iff_terms_eq hp hq]
  constructor
  · intro h
    obtain ⟨t, ts, hts, htext⟩ := p.text_eq_sumText power
    obtain ⟨u, us, hus, htext'⟩ := q.text_eq_sumText power
    rw [htext, htext', ← hnames] at h
    have hterms := sumText_injective hname hpower (hts ▸ hp.of_mem_spelledTerms)
      (hus ▸ hq.of_mem_spelledTerms) h
    exact terms_eq_of_spelledTerms_eq (by rw [hts, hus, hterms])
  · intro h
    rw [text, text, h, hnames]

/-- Exponents can be written between any two texts without a blank, the first of which is not
empty. -/
theorem exponentStyle_between (left right : String) (hne : left ≠ "")
    (hleft : left.toList.any isBlank = false) (hright : right.toList.any isBlank = false) :
    ExponentStyle fun k => left ++ k.repr ++ right where
  injective k k' h := by
    simpa [Nat.repr_inj] using h
  ne_empty k := by simp [hne]
  not_blank k c hc := by
    rw [String.toList_append, String.toList_append, List.mem_append, List.mem_append] at hc
    obtain (hc | hc) | hc := hc
    · simpa using List.any_eq_false.mp hleft c hc
    · have hdigits : k.repr.toList = Nat.toDigits 10 k := by simp [Nat.repr]
      exact isBlank_of_isDigit ((Decimal.isDigits_toDigits k).2 c (hdigits ▸ hc))
    · simpa using List.any_eq_false.mp hright c hc

theorem exponentStyle_plain : ExponentStyle fun k => "^" ++ k.repr := by
  simpa using exponentStyle_between "^" "" (by decide) (by decide) (by decide)

theorem exponentStyle_latex : ExponentStyle fun k => "^\x7b" ++ k.repr ++ "\x7d" :=
  exponentStyle_between "^\x7b" "\x7d" (by decide) (by decide) (by decide)

theorem isPrefix_dropZeros {R : Type} [Zero R] [BEq R] (cs : List R) : dropZeros cs <+: cs := by
  obtain ⟨zeros, hcs, -⟩ := exists_append_dropZeros cs
  exact ⟨zeros, hcs.symm⟩

/-- Trimming leaves finite coefficients. -/
theorem isFinite_ofCoeffs {name : String} {cs : List Double} (h : ∀ c ∈ cs, c.isFinite = true) :
    (ofCoeffs name cs).IsFinite := by
  intro c hc
  rw [coeffs_ofCoeffs] at hc
  cases cs with
  | nil =>
    rw [List.mem_singleton.mp hc]
    rfl
  | cons d cs =>
    obtain rfl | hc := List.mem_cons.mp hc
    · exact h c (List.mem_cons_self ..)
    · exact h c (List.mem_cons_of_mem _ ((isPrefix_dropZeros cs).subset hc))

/-- **Displays determine polynomials.** Two polynomials with finite coefficients, in one variable
that has a possible name, have the same plain text if and only if their coefficients are equal one
by one, and the same holds for their LaTeX text. -/
theorem display_eq_iff_coeffs {name : String} (hname : checkName name = .ok ())
    {as bs : List Double} (has : ∀ a ∈ as, a.isFinite = true) (hbs : ∀ b ∈ bs, b.isFinite = true) :
    ((ofCoeffs name as).plain = (ofCoeffs name bs).plain ↔
      List.Forall₂ (fun a b => (a == b) = true) (ofCoeffs name as).coeffs
        (ofCoeffs name bs).coeffs) ∧
    ((ofCoeffs name as).latex = (ofCoeffs name bs).latex ↔
      List.Forall₂ (fun a b => (a == b) = true) (ofCoeffs name as).coeffs
        (ofCoeffs name bs).coeffs) := by
  have hvariable := Session.checkName_eq_ok_iff.mp hname
  have hfinite : (ofCoeffs name as).IsFinite := isFinite_ofCoeffs has
  have hfinite' : (ofCoeffs name bs).IsFinite := isFinite_ofCoeffs hbs
  exact ⟨text_eq_iff exponentStyle_plain hvariable rfl hfinite hfinite',
    text_eq_iff exponentStyle_latex hvariable rfl hfinite hfinite'⟩

/-- The polynomial `2x2^3 + x2^2 - 0.5` in the variable `x2`, built with zeros of both signs. -/
theorem display_eq_iff_coeffs_zeros :
    let as : List Double := [-0.5, -0, 1, 2]
    let bs : List Double := [-0.5, 0, 1, 2, -0]
    checkName "x2" = .ok () ∧ (∀ a ∈ as, a.isFinite = true) ∧ (∀ b ∈ bs, b.isFinite = true) ∧
      (ofCoeffs "x2" as).plain = (ofCoeffs "x2" bs).plain ∧
        (ofCoeffs "x2" as).latex = (ofCoeffs "x2" bs).latex := by
  intro as bs
  have hname : checkName "x2" = .ok () := by cbv
  have has : ∀ a ∈ as, a.isFinite = true := List.all_eq_true.mp (by decide)
  have hbs : ∀ b ∈ bs, b.isFinite = true := List.all_eq_true.mp (by decide)
  have hcoeffs : List.Forall₂ (fun a b => (a == b) = true) (ofCoeffs "x2" as).coeffs
      (ofCoeffs "x2" bs).coeffs :=
    .cons rfl (.cons rfl (.cons rfl (.cons rfl .nil)))
  obtain ⟨hplain, hlatex⟩ := display_eq_iff_coeffs hname has hbs
  exact ⟨hname, has, hbs, hplain.mpr hcoeffs, hlatex.mpr hcoeffs⟩

end Poly

end Univariate
