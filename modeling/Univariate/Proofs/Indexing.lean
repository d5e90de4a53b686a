import Univariate.Expr.Precedence
import Univariate.Poly.Arithmetic

/-!
# Counting and indexing

The operations on polynomials cannot fail. One less than zero is zero, what lies beyond the end of a
list is not there, and every polynomial brings the proof that its coefficient list is trimmed. On a
machine all this has to be earned. A count may leave the range of a word, an entry is read and
written by its place, and a list of coefficients is just a list, to which nothing is attached.

So the operations have a second form here, as a machine runs them. They work on a name and any list,
with loops that overwrite entries in place, and with a fault for every count and every place that is
out of range. On the empty list, most of them do end with a fault. On the list of a polynomial none
of them does, and the result is the list that the operation has anyway.

## Main definitions

* `Fault`, `Checked`: what can go wrong, and a computation in which it can.
* `Poly.Raw`: a name and any list of coefficients.
* `Poly.Raw.ofCoeffs`, `Poly.Raw.monomial`: how they are made. Zeros are popped off the end.
* `Poly.Raw.convolve`, `Poly.Raw.mul`, `Poly.Raw.pow`: products, entry by entry, and powers.
* `Poly.Raw.degree`, `Poly.Raw.precedence`: what counts on an entry being there.

## Main results

* `Poly.Raw.ofCoeffs_eq_toRaw`: popping zeros off the end is trimming.
* `Poly.Raw.convolve_eq_ok`: the products are added up within the list.
* `Poly.Raw.mul_toRaw`, `Poly.Raw.pow_toRaw`, `Poly.Raw.precedence_toRaw`: there is no fault, and
  what the results are.
-/

namespace Univariate

/-- What can go wrong where lists are counted and indexed. -/
inductive Fault where
  /-- A count beyond the largest word. -/
  | overflow
  /-- A count below zero. -/
  | underflow
  /-- A place that is not in the list. -/
  | outOfRange
  deriving DecidableEq, Repr

/-- A computation that may end with a fault. -/
abbrev Checked (α : Type) : Type := Except Fault α

namespace Checked

variable {α β : Type}

@[simp] theorem ok_bind (a : α) (f : α → Checked β) : ((.ok a : Checked α) >>= f) = f a := rfl

/-- The next count, if it is still a word. The largest word is `limit`. -/
def succ (limit n : Nat) : Checked Nat :=
  if n < limit then .ok (n + 1) else .error .overflow

/-- The count before. -/
def pred : Nat → Checked Nat
  | 0 => .error .underflow
  | n + 1 => .ok n

/-- The entry at a place. -/
def entry (cs : List α) (i : Nat) : Checked α :=
  match cs[i]? with
  | some c => .ok c
  | none => .error .outOfRange

/-- The list with another entry at a place. -/
def overwrite (cs : List α) (i : Nat) (c : α) : Checked (List α) :=
  if i < cs.length then .ok (cs.set i c) else .error .outOfRange

/-- The list with something added to the entry at a place. -/
def addAt [Add α] (cs : List α) (i : Nat) (x : α) : Checked (List α) := do
  overwrite cs i ((← entry cs i) + x)

theorem pred_of_pos {n : Nat} (h : 0 < n) : pred n = .ok (n - 1) := by
  cases n with
  | zero => contradiction
  | succ n => rfl

theorem overwrite_append (as bs : List α) (b c : α) :
    overwrite (as ++ b :: bs) as.length c = .ok (as ++ c :: bs) := by
  simp [overwrite]

theorem addAt_append [Add α] {as : List α} {i : Nat} (hi : as.length = i) (bs : List α) (b x : α) :
    addAt (as ++ b :: bs) i x = .ok (as ++ (b + x) :: bs) := by
  subst hi
  have hentry : entry (as ++ b :: bs) as.length = .ok b := by simp [entry]
  rw [addAt, hentry, ok_bind, overwrite_append]

end Checked

/-! ### Polynomials as they lie in memory -/

/-- A polynomial as it lies in memory. Nothing is known of its coefficients. -/
structure Poly.Raw (R : Type) where
  /-- The name of the variable. -/
  name : String
  /-- The coefficients, the constant term first. -/
  coeffs : List R

variable {R : Type} [Zero R] [BEq R]

/-- A polynomial without the proof that it is trimmed. -/
def Poly.toRaw (p : Poly R) : Raw R :=
  ⟨p.name, p.coeffs⟩

namespace Poly.Raw

/-- Pops zeros off the end of a list, as long as more than one entry is left. -/
def popZeros (cs : List R) : List R :=
  if 1 < cs.length ∧ cs.getLast?.any (· == 0) = true then popZeros cs.dropLast else cs
  termination_by cs.length
  decreasing_by
    rw [List.length_dropLast]
    omega

/-- The polynomial with the given coefficients. -/
def ofCoeffs (name : String) (cs : List R) : Raw R :=
  ⟨name, if (popZeros cs).isEmpty then [0] else popZeros cs⟩

/-- A constant. -/
def constant (c : R) : Raw R :=
  ofCoeffs "" [c]

/-- The polynomial `c * name ^ power`, which is written into a list of zeros. -/
def monomial (limit : Nat) (name : String) (power : Nat) (c : R) : Checked (Raw R) := do
  let length ← Checked.succ limit power
  let cs ← Checked.overwrite (List.replicate length 0) power c
  return ofCoeffs name cs

/-- The degree, which is one less than the number of coefficients. -/
def degree (p : Raw R) : Checked Nat :=
  Checked.pred p.coeffs.length

/-- The name of the variable of a combination. -/
def combinedName (p q : Raw R) : Checked String := do
  return if (← p.degree) < (← q.degree) || p.name.isEmpty then q.name else p.name

/-- The negated polynomial. -/
def neg [Neg R] (p : Raw R) : Raw R :=
  ofCoeffs p.name (p.coeffs.map fun c => -c)

/-- Combines two polynomials place by place. A coefficient that is not there counts as a zero. -/
def zipWith (op : R → R → R) (p q : Raw R) : Checked (Raw R) := do
  let cs := (List.range (max p.coeffs.length q.coeffs.length)).map fun i =>
    op (p.coeffs[i]?.getD 0) (q.coeffs[i]?.getD 0)
  return ofCoeffs (← combinedName p q) cs

/-- Adds the multiple of `bs` by `a` to the sums, from the place `i` on. -/
def addRow [Add R] [Mul R] (bs : List R) (a : R) (i : Nat) (sums : List R) : Checked (List R) :=
  bs.zipIdx.foldlM (fun sums (b, j) => Checked.addAt sums (i + j) (a * b)) sums

/-- The coefficients of a product, which are added up in a list of zeros. -/
def convolve [Add R] [Mul R] (as bs : List R) : Checked (List R) := do
  let length ← Checked.pred (as.length + bs.length)
  as.zipIdx.foldlM (fun sums (a, i) => addRow bs a i sums) (List.replicate length 0)

/-- The product of two polynomials. -/
def mul [Add R] [Mul R] (p q : Raw R) : Checked (Raw R) := do
  let cs ← convolve p.coeffs q.coeffs
  return ofCoeffs (← combinedName p q) cs

/-- The product of two polynomials if a condition holds, and otherwise the first one. -/
def mulIf [Add R] [Mul R] (condition : Bool) (p q : Raw R) : Checked (Raw R) :=
  if condition then p.mul q else .ok p

/-- Multiplies `result` by the power `k` of `square`. -/
def powAux [Add R] [Mul R] (result square : Raw R) (k : Nat) : Checked (Raw R) :=
  if k = 0 then .ok result
  else do
    let result ← mulIf (k % 2 = 1) result square
    let square ← mulIf (0 < k / 2) square square
    powAux result square (k / 2)
  termination_by k

/-- The polynomial raised to a natural power. -/
def pow [One R] [Add R] [Mul R] (p : Raw R) (k : Nat) : Checked (Raw R) :=
  powAux (ofCoeffs p.name [1]) p k

/-- The derivative. That of a constant is made from the empty list. -/
def derivative [NatCast R] [Mul R] (p : Raw R) : Raw R :=
  ofCoeffs p.name ((p.coeffs.zipIdx.drop 1).map fun (c, power) => (power : R) * c)

/-- How tightly the text of a polynomial binds. The constant term is looked at only if there is no
other one. -/
def precedence [Numeral R] (p : Raw R) : Checked Precedence :=
  if 1 < p.coeffs.countP fun c => !(c == 0) then .ok .term
  else do
    if 0 < (← p.degree) then return .factor
    else
      let c ← Checked.entry p.coeffs 0
      return if Numeral.hasMinus c && !(c == 0) then .neg else .primary

end Poly.Raw

/-! ### Trimming -/

theorem dropZeros_append_of_beq (cs : List R) {c : R} (hc : (c == 0) = true) :
    dropZeros (cs ++ [c]) = dropZeros cs := by
  induction cs with
  | nil => simp [dropZeros, hc]
  | cons d ds ih => rw [List.cons_append, dropZeros, dropZeros, ih]

theorem trimZeros_append_of_beq {cs : List R} (hcs : cs ≠ []) {c : R} (hc : (c == 0) = true) :
    trimZeros (cs ++ [c]) = trimZeros cs := by
  cases cs with
  | nil => contradiction
  | cons d ds => rw [List.cons_append, trimZeros, trimZeros, dropZeros_append_of_beq ds hc]

namespace Poly.Raw

/-- **Popping zeros off the end is trimming.** -/
theorem popZeros_eq_trimZeros {cs : List R} (hcs : cs ≠ []) : popZeros cs = trimZeros cs := by
  fun_induction popZeros cs with
  | case1 cs hlast ih =>
    obtain ⟨hlength, hzero⟩ := hlast
    rw [List.getLast?_eq_some_getLast hcs, Option.any_some] at hzero
    have hinit : cs.dropLast ≠ [] := by
      rw [← List.length_pos_iff, List.length_dropLast]
      omega
    rw [ih hinit, ← trimZeros_append_of_beq hinit hzero, List.dropLast_concat_getLast]
  | case2 cs hlast =>
    refine (trimZeros_eq_self ⟨hcs, fun hlength c hc => ?_⟩).symm
    rw [Option.mem_def] at hc
    simpa [hlength, hc] using hlast

theorem ofCoeffs_eq_toRaw (name : String) (cs : List R) :
    ofCoeffs name cs = (Poly.ofCoeffs name cs).toRaw := by
  cases cs with
  | nil => simp [ofCoeffs, popZeros, toRaw, trimZeros]
  | cons c cs =>
    rw [ofCoeffs, popZeros_eq_trimZeros (List.cons_ne_nil c cs)]
    rfl

/-- What is popped off are zeros, and what is left is a prefix. -/
theorem exists_append_coeffs_ofCoeffs (name : String) {cs : List R} (hcs : cs ≠ []) :
    ∃ zeros, cs = (ofCoeffs name cs).coeffs ++ zeros ∧ ∀ c ∈ zeros, (c == 0) = true := by
  rw [ofCoeffs_eq_toRaw]
  cases cs with
  | nil => contradiction
  | cons c cs =>
    obtain ⟨zeros, happend, hzeros⟩ := exists_append_dropZeros cs
    exact ⟨zeros, congrArg (c :: ·) happend, hzeros⟩

theorem constant_eq_toRaw (c : R) : constant c = (Poly.constant c).toRaw :=
  ofCoeffs_eq_toRaw "" [c]

theorem neg_toRaw [Neg R] (p : Poly R) : p.toRaw.neg = p.neg.toRaw :=
  ofCoeffs_eq_toRaw _ _

theorem derivative_toRaw [NatCast R] [Mul R] (p : Poly R) :
    p.toRaw.derivative = p.derivative.toRaw :=
  ofCoeffs_eq_toRaw _ _

/-- A power can be written into the list exactly if its list can be counted. -/
theorem monomial_eq (limit : Nat) (name : String) (power : Nat) (c : R) :
    monomial limit name power c =
      if power < limit then .ok (Poly.monomial name power c).toRaw else .error .overflow := by
  have hwrite := Checked.overwrite_append (List.replicate power 0) [] (0 : R) c
  rw [List.length_replicate, ← List.replicate_succ'] at hwrite
  rw [monomial, Checked.succ]
  split
  · rw [Checked.ok_bind, hwrite, Checked.ok_bind, ofCoeffs_eq_toRaw]
    rfl
  · rfl

/-! ### The number of coefficients -/

theorem degree_toRaw (p : Poly R) : p.toRaw.degree = .ok p.degree :=
  Checked.pred_of_pos (List.length_pos_iff.mpr p.isTrimmed.1)

example : (⟨"x", []⟩ : Raw Int).degree = .error .underflow := rfl

theorem combinedName_toRaw (p q : Poly R) :
    combinedName p.toRaw q.toRaw = .ok (Poly.combinedName p q) := by
  rw [combinedName, degree_toRaw, degree_toRaw, Checked.ok_bind, Checked.ok_bind]
  rfl

/-- The constant term is there. -/
theorem exists_entry_toRaw (p : Poly R) :
    ∃ c, p.coeffs.head? = some c ∧ Checked.entry p.toRaw.coeffs 0 = .ok c := by
  obtain ⟨c, cs, hcs⟩ := List.exists_cons_of_ne_nil p.isTrimmed.1
  rw [toRaw, hcs]
  exact ⟨c, rfl, rfl⟩

theorem precedence_toRaw [Numeral R] (p : Poly R) :
    p.toRaw.precedence = .ok (Expr.polyPrecedence p) := by
  obtain ⟨c, hhead, hentry⟩ := exists_entry_toRaw p
  rw [precedence, Expr.polyPrecedence, degree_toRaw, Checked.ok_bind, hentry, Checked.ok_bind,
    hhead, Option.any_some]
  by_cases hterms : 1 < p.termCount
  · rw [if_pos hterms]
    exact if_pos hterms
  · rw [if_neg hterms]
    refine (if_neg hterms).trans ?_
    split <;> rfl

/-! ### Sums and products -/

omit [BEq R] in
theorem getElem?_zipPadded (op : R → R → R) (as bs : List R) {i : Nat}
    (hi : i < max as.length bs.length) :
    (zipPadded op as bs)[i]? = some (op (as[i]?.getD 0) (bs[i]?.getD 0)) := by
  induction as generalizing bs i with
  | nil =>
    have hi : i < bs.length := by simpa using hi
    simp [zipPadded, hi]
  | cons a as ih =>
    cases bs with
    | nil =>
      have hi : i < (a :: as).length := by simpa using hi
      rw [zipPadded, List.getElem?_map, List.getElem?_eq_getElem hi]
      rfl
    | cons b bs =>
      rw [zipPadded]
      cases i with
      | zero => rfl
      | succ i => exact ih bs (by simpa using hi)

/-- Combining place by place is combining entry by entry. -/
theorem zipWith_toRaw (op : R → R → R) (p q : Poly R) :
    zipWith op p.toRaw q.toRaw =
      .ok (Poly.ofCoeffs (Poly.combinedName p q) (zipPadded op p.coeffs q.coeffs)).toRaw := by
  have hcs : ((List.range (max p.coeffs.length q.coeffs.length)).map fun i =>
      op (p.coeffs[i]?.getD 0) (q.coeffs[i]?.getD 0)) = zipPadded op p.coeffs q.coeffs := by
    refine List.ext_getElem? fun i => ?_
    by_cases hi : i < max p.coeffs.length q.coeffs.length
    · rw [getElem?_zipPadded op _ _ hi, List.getElem?_map, List.getElem?_range hi, Option.map_some]
    · rw [List.getElem?_eq_none (by simpa using hi),
        List.getElem?_eq_none (by rw [length_zipPadded]; omega)]
  rw [zipWith, combinedName_toRaw, Checked.ok_bind, ofCoeffs_eq_toRaw, ← hcs]
  rfl

section Products

variable [Add R] [Mul R]

omit [Zero R] [BEq R]

/-- One row of products. The sums before the place where the row begins are left alone, and behind
them there have to be as many as the row is long. -/
theorem foldlM_addAt (a : R) (i j : Nat) (bs before sums : List R)
    (hbefore : before.length = i + j) (hle : bs.length ≤ sums.length) :
    (bs.zipIdx j).foldlM (fun sums (b, j) => Checked.addAt sums (i + j) (a * b)) (before ++ sums) =
      (.ok (before ++ addFront sums (bs.map (a * ·))) : Checked (List R)) := by
  induction bs generalizing j before sums with
  | nil => cases sums <;> rfl
  | cons b bs ih =>
    cases sums with
    | nil => simp at hle
    | cons s sums =>
      have hnext : (before ++ [s + a * b]).length = i + (j + 1) := by
        rw [List.length_append, hbefore]
        rfl
      have hrest := ih (j + 1) (before ++ [s + a * b]) sums hnext (Nat.le_of_succ_le_succ hle)
      rw [List.append_assoc, List.append_assoc] at hrest
      rw [List.zipIdx_cons, List.foldlM_cons]
      dsimp only
      rw [Checked.addAt_append hbefore, Checked.ok_bind]
      exact hrest

theorem addRow_append (a : R) {i : Nat} (bs : List R) {before sums : List R}
    (hbefore : before.length = i) (hle : bs.length ≤ sums.length) :
    addRow bs a i (before ++ sums) = .ok (before ++ addFront sums (bs.map (a * ·))) :=
  foldlM_addAt a i 0 bs before sums hbefore hle

/-- All rows of products, each of which begins one place further on than the one before. The last
one ends where the sums end. -/
theorem foldlM_addRow (i : Nat) (as bs before sums : List R) (hbefore : before.length = i)
    (hle : as.length + bs.length ≤ sums.length + 1) :
    (as.zipIdx i).foldlM (fun sums (a, i) => addRow bs a i sums) (before ++ sums) =
      (.ok (before ++ addMultiples as bs sums) : Checked (List R)) := by
  induction as generalizing i before sums with
  | nil => rfl
  | cons a as ih =>
    rw [List.length_cons] at hle
    have hlength := length_addFront sums (bs.map (a * ·))
    rw [List.zipIdx_cons, List.foldlM_cons]
    dsimp only
    rw [addRow_append a bs hbefore (by omega), Checked.ok_bind, addMultiples]
    cases hfront : addFront sums (bs.map (a * ·)) with
    | nil =>
      -- without sums there is no other row
      rw [hfront, List.length_nil] at hlength
      have has : as = [] := List.length_eq_zero_iff.mp (by omega)
      rw [has]
      rfl
    | cons s rest =>
      rw [hfront, List.length_cons] at hlength
      have hnext : (before ++ [s]).length = i + 1 := by
        rw [List.length_append, hbefore]
        rfl
      have hrest := ih (i + 1) (before ++ [s]) rest hnext (by omega)
      rwa [List.append_assoc, List.append_assoc] at hrest

/-- **The products are added up within the list.** -/
theorem convolve_eq_ok [Zero R] {as bs : List R} (hpos : 0 < as.length + bs.length) :
    convolve as bs = .ok (Univariate.convolve as bs) := by
  rw [convolve, Checked.pred_of_pos hpos, Checked.ok_bind]
  refine foldlM_addRow 0 as bs [] _ rfl ?_
  rw [List.length_replicate]
  omega

example : convolve ([] : List Int) [] = .error .underflow := rfl

variable [Zero R] [BEq R]

theorem mul_toRaw (p q : Poly R) : p.toRaw.mul q.toRaw = .ok (p.mul q).toRaw := by
  have hpos : 0 < p.coeffs.length + q.coeffs.length :=
    Nat.add_pos_left (List.length_pos_iff.mpr p.isTrimmed.1) _
  rw [mul, combinedName_toRaw, toRaw, toRaw, convolve_eq_ok hpos, Checked.ok_bind, Checked.ok_bind,
    ofCoeffs_eq_toRaw]
  rfl

theorem mulIf_toRaw (condition : Bool) (p q : Poly R) :
    mulIf condition p.toRaw q.toRaw = .ok (if condition then p.mul q else p).toRaw := by
  cases condition with
  | false => rfl
  | true => exact mul_toRaw p q

theorem powAux_toRaw (result square : Poly R) (k : Nat) :
    powAux result.toRaw square.toRaw k = .ok (Poly.powAux result square k).toRaw := by
  induction k using Nat.strongRecOn generalizing result square with
  | ind k ih =>
    rw [powAux, Poly.powAux]
    by_cases hk : k = 0
    · rw [if_pos hk, if_pos hk]
    · rw [if_neg hk, if_neg hk, mulIf_toRaw, Checked.ok_bind, mulIf_toRaw, Checked.ok_bind,
        ih (k / 2) (by omega)]
      by_cases hlast : k / 2 = 0
      · simp [hlast, Poly.powAux]
      · simp [hlast, Nat.pos_of_ne_zero hlast]

theorem pow_toRaw [One R] (p : Poly R) (k : Nat) : p.toRaw.pow k = .ok (p.pow k).toRaw := by
  rw [pow, ofCoeffs_eq_toRaw, powAux_toRaw]
  rfl

end Products

end Poly.Raw

end Univariate
