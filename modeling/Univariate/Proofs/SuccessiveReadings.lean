import Mathlib.Data.List.Infix
import Univariate.Proofs.Reading

/-!
# Reading on from where a reading stopped

The readers of an expression can be called one after the other on the same text, each starting from
the state in which the one before it stopped. Nothing but that state is passed on, which consists of
the tokens that are left and of a note that an error has occurred. These two make up an invariant:
the tokens that are left are the last tokens of the text, and once there has been an error, none are
left.

From such a state, a call can only end in two ways (`Reading`). It finds something, of one token at
least, and stops behind it without an error. Or it leaves one error behind, and no tokens. A call
that starts at the end cannot find anything, whatever has happened before. So a tree holds one error
from the call on in which the first error occurred, and none before that.

That a call comes to an end needs no proof here: the readers are defined by recursion on the number
of tokens that are left, so they are total.

## Main definitions

* `Parser.Reader`, `Parser.readAll`: calls one after the other.
* `Parser.State.cursor`: how many tokens have been read.
* `Parser.Reading`: the two ways in which a call can end.
* `Parser.Call`: what is true of a call among others.

## Main results

* `Parser.reading_read`: what one call does.
* `Parser.Reached.readAll`: the invariant of any number of calls.
* `Parser.call_readAll`: what is true of every call.
-/

namespace Univariate

namespace Parser

open Grammar

/-! ### Calls -/

/-- The readers that can be called on a text. -/
inductive Reader where
  /-- An expression to the end of the text. -/
  | full
  /-- Terms with signs between them. -/
  | expression
  /-- Factors with signs between them. -/
  | term
  /-- A negation, a power or a primary. -/
  | factor
  deriving DecidableEq, Repr

/-- How many of the tokens of a text have been read. -/
def State.cursor (tokens : List Token) (s : State) : Nat :=
  tokens.length - s.rest.length

variable {R : Type} [Zero R] [BEq R]

/-! ### How a call can end -/

/-- How a call ends. Either it has read some tokens and there is no error, or there is one error, at
a place that is not in front of where the call started, and no tokens are left. -/
inductive Reading (scope : Scope) (s : State) : Expr R × State → Prop
  | finished {p ys : List Token} {tree : Expr R} : s.failed = false → s.rest = p ++ ys → p ≠ [] →
      tree.errorOffsets = [] → Reading scope s (tree, ⟨ys, false⟩)
  | failed {p ys : List Token} {tree : Expr R} : s.rest = p ++ ys →
      tree.errorOffsets = [State.offset scope ⟨ys, false⟩] → Reading scope s (tree, ⟨[], true⟩)

theorem Reading.length_le {scope : Scope} {s s' : State} {tree : Expr R}
    (h : Reading scope s (tree, s')) : s'.rest.length ≤ s.rest.length := by
  cases h with
  | finished _ hp _ _ =>
    rw [hp, List.length_append]
    exact Nat.le_add_left ..
  | failed _ _ => exact Nat.zero_le _

/-- A call that finds tokens reads at least one of them. -/
theorem Reading.length_lt {scope : Scope} {s s' : State} {tree : Expr R}
    (h : Reading scope s (tree, s')) (hs : 0 < s.rest.length) :
    s'.rest.length < s.rest.length := by
  cases h with
  | finished _ hp hne _ =>
    rw [hp, List.length_append]
    exact Nat.lt_add_of_pos_left (List.length_pos_of_ne_nil hne)
  | failed _ _ => exact hs

/-- The error of a call is at one of the tokens that the call found, or at the end of the text. -/
theorem Reading.errorOffsets_of_failed {scope : Scope} {s s' : State} {tree : Expr R}
    (h : Reading scope s (tree, s')) (hfailed : s'.failed = true) :
    ∃ o, tree.errorOffsets = [o] ∧ (o = scope.size ∨ ∃ t ∈ s.rest, t.start = o) := by
  cases h with
  | finished _ _ _ _ => contradiction
  | @failed p ys _ hp herror =>
    refine ⟨_, herror, ?_⟩
    cases ys with
    | nil => exact .inl rfl
    | cons t ts => exact .inr ⟨t, by rw [hp]; simp, rfl⟩

theorem Reading.errorOffsets_of_not_failed {scope : Scope} {s s' : State} {tree : Expr R}
    (h : Reading scope s (tree, s')) (hfailed : s'.failed = false) : tree.errorOffsets = [] := by
  cases h with
  | finished _ _ _ herror => exact herror
  | failed _ _ => contradiction

/-! ### What calls lead to -/

/-- The states that calls lead to, where `trees` are the trees of all calls so far. -/
structure Reached (tokens : List Token) (trees : List (Expr R)) (s : State) : Prop where
  /-- The tokens that are left are the last tokens of the text. -/
  suffix : s.rest <:+ tokens
  /-- An error has occurred if and only if one of the trees has an error. -/
  failed_iff : s.failed = true ↔ ∃ t ∈ trees, t.hasError = true
  /-- After an error, no tokens are left. -/
  rest_of_failed : s.failed = true → s.rest = []

theorem hasError_of_errorOffsets {t : Expr R} {o : Nat} (h : t.errorOffsets = [o]) :
    t.hasError = true := by
  rw [← Bool.not_eq_false, Expr.hasError_eq_false_iff, h]
  simp

/-- A call leads from one such state to the next. -/
theorem Reached.step {tokens : List Token} {trees : List (Expr R)} {s s' : State} {tree : Expr R}
    {scope : Scope} (hs : Reached tokens trees s) (h : Reading scope s (tree, s')) :
    Reached tokens (trees ++ [tree]) s' := by
  cases h with
  | @finished p ys _ hfailed hp _ herror =>
    refine ⟨?_, ?_, by simp⟩
    · exact (List.suffix_append p ys).trans (hp ▸ hs.suffix)
    · have hearlier : ¬ ∃ t ∈ trees, t.hasError = true := by
        rw [← hs.failed_iff, hfailed]
        simp
      have htree : tree.hasError = false := (Expr.hasError_eq_false_iff _).mpr herror
      simpa [htree] using hearlier
  | failed _ herror =>
    refine ⟨List.nil_suffix, ?_, fun _ => rfl⟩
    exact iff_of_true rfl ⟨tree, by simp, hasError_of_errorOffsets herror⟩

/-- What is true of a call that leads from the state `s` to the state `s'` and returns `tree`, where
`earlier` are the trees of the calls before it, and `size` is the length of the text. -/
structure Call (tokens : List Token) (size : Nat) (earlier : List (Expr R)) (s : State)
    (tree : Expr R) (s' : State) : Prop where
  /-- The call stops somewhere in the text. -/
  rest_eq : s'.rest = tokens.drop (s'.cursor tokens)
  cursor_le : s'.cursor tokens ≤ tokens.length
  /-- Nothing is read a second time. -/
  cursor_mono : s.cursor tokens ≤ s'.cursor tokens
  /-- Something is read unless everything has been read already. -/
  cursor_lt : s.cursor tokens < tokens.length → s.cursor tokens < s'.cursor tokens
  /-- The state remembers whether there has been an error so far. -/
  failed_iff : s'.failed = true ↔ ∃ t ∈ earlier ++ [tree], t.hasError = true
  /-- After an error, everything counts as read. -/
  cursor_of_failed : s'.failed = true → s'.cursor tokens = tokens.length
  /-- After an error, the tree has one error, at the start of a token or at the end of the text. If
  everything had been read before the call, it is at the end of the text. -/
  errors_of_failed : s'.failed = true → ∃ o, tree.errorOffsets = [o] ∧
    (o = size ∨ ∃ t ∈ tokens, t.start = o) ∧ (s.cursor tokens = tokens.length → o = size)
  /-- As long as there has been no error, the tree has none. -/
  errors_of_not_failed : s'.failed = false → tree.errorOffsets = []

/-- From a state that calls lead to, what is true of a call follows from the way in which it
ends. -/
theorem Reached.call {tokens : List Token} {earlier : List (Expr R)} {s s' : State}
    {scope : Scope} {tree : Expr R} (hs : Reached tokens earlier s)
    (h : Reading scope s (tree, s')) : Call tokens scope.size earlier s tree s' := by
  have hs' : Reached tokens (earlier ++ [tree]) s' := hs.step h
  have hlength : s.rest.length ≤ tokens.length := hs.suffix.length_le
  constructor
  case rest_eq => exact List.suffix_iff_eq_drop.mp hs'.suffix
  case cursor_le => exact Nat.sub_le ..
  case cursor_mono => exact Nat.sub_le_sub_left h.length_le _
  case cursor_lt =>
    intro hlt
    have hpos : 0 < s.rest.length := by
      rw [State.cursor] at hlt
      omega
    have := h.length_lt hpos
    rw [State.cursor, State.cursor]
    omega
  case failed_iff => exact hs'.failed_iff
  case cursor_of_failed =>
    intro hfailed
    rw [State.cursor, hs'.rest_of_failed hfailed, List.length_nil, Nat.sub_zero]
  case errors_of_failed =>
    intro hfailed
    obtain ⟨o, ho, hplace⟩ := h.errorOffsets_of_failed hfailed
    refine ⟨o, ho, hplace.imp_right fun ⟨t, ht, hstart⟩ => ⟨t, hs.suffix.subset ht, hstart⟩, ?_⟩
    intro hend
    have hrest : s.rest = [] := by
      rw [State.cursor] at hend
      exact List.eq_nil_of_length_eq_zero (by omega)
    obtain hsize | ⟨t, ht, -⟩ := hplace
    · exact hsize
    · rw [hrest] at ht
      contradiction
  case errors_of_not_failed => exact h.errorOffsets_of_not_failed

/-! ### One call -/

variable [One R] [Numeral R] [OfScientific R]

/-- One call: the tree, and the state behind it. -/
def Reader.read (reader : Reader) (scope : Scope) (s : State) : Expr R × State :=
  match reader with
  | .full => bare (Parser.full scope s)
  | .expression => bare (Parser.expression scope s)
  | .term => bare (Parser.term scope s)
  | .factor => bare (Parser.factor scope s)

theorem Reading.of_outcome {scope : Scope} {symbol : Symbol} {xs : List Token}
    {build : symbol.Denotation R → Expr R} {r : Expr R × State}
    (h : Outcome scope symbol xs build r) (hsums : symbol ≠ .sums) (hproducts : symbol ≠ .products)
    (hbuild : ∀ x, symbol.ErrorFree x → (build x).errorOffsets = []) :
    Reading scope ⟨xs, false⟩ r := by
  cases h with
  | derived d hends =>
    obtain ⟨p, hp, hne, -⟩ := d.exists_append
    exact .finished rfl hp (hne hsums hproducts) (hbuild _ d.errorFree_denote)
  | stuck hp _ herror => exact .failed hp herror

theorem bare_full_of_nil {scope : Scope} {s : State} {tree : Expr R} {failed : Bool}
    (h : bare (expression scope s) = (tree, ⟨[], failed⟩)) :
    bare (full scope s) = (tree, ⟨[], failed⟩) := by
  rw [full]
  generalize (expression scope s : Expr R × After s) = r at h
  obtain ⟨tree', ⟨rest, failed'⟩, hafter⟩ := r
  obtain ⟨rfl, hstate⟩ := Prod.mk.inj h
  obtain ⟨rfl, rfl⟩ := State.mk.inj hstate
  rfl

theorem bare_full_of_cons {scope : Scope} {s : State} {tree : Expr R} {t : Token}
    {ts : List Token} {failed : Bool}
    (h : bare (expression scope s) = (tree, ⟨t :: ts, failed⟩)) :
    bare (full scope s : Expr R × After s) =
      (.error (State.offset scope ⟨t :: ts, failed⟩), ⟨[], true⟩) := by
  rw [full]
  generalize (expression scope s : Expr R × After s) = r at h
  obtain ⟨tree', ⟨rest, failed'⟩, hafter⟩ := r
  obtain ⟨rfl, hstate⟩ := Prod.mk.inj h
  obtain ⟨rfl, rfl⟩ := State.mk.inj hstate
  rfl

/-- Tokens that are left behind an expression are an error. -/
theorem Reading.full {scope : Scope} {s : State}
    (h : Reading scope s (bare (Parser.expression scope s : Expr R × After s))) :
    Reading scope s (bare (Parser.full scope s : Expr R × After s)) := by
  generalize hr : bare (Parser.expression scope s : Expr R × After s) = r at h
  cases h with
  | @finished p ys tree hfailed hp hne herror =>
    cases ys with
    | nil =>
      rw [bare_full_of_nil hr]
      exact .finished hfailed hp hne herror
    | cons t ts =>
      rw [bare_full_of_cons hr]
      exact .failed hp (Expr.errorOffsets_error _)
  | failed hp herror =>
    rw [bare_full_of_nil hr]
    exact .failed hp herror

/-- At the end of a text, every call leaves an error there. -/
theorem read_nil (scope : Scope) (reader : Reader) (failed : Bool) :
    (reader.read scope ⟨[], failed⟩ : Expr R × State) = (.error scope.size, ⟨[], true⟩) := by
  have hfactor : bare (factor scope ⟨[], failed⟩ : Expr R × After _) =
      (.error scope.size, ⟨[], true⟩) := bare_factor_nil scope failed
  have hterm : bare (term scope ⟨[], failed⟩ : Expr R × After _) =
      (.error scope.size, ⟨[], true⟩) := by
    rw [bare_term, hfactor, bare_products_nil]
  have hexpression : bare (expression scope ⟨[], failed⟩ : Expr R × After _) =
      (.error scope.size, ⟨[], true⟩) := by
    rw [bare_expression, hterm, bare_sums_nil]
  cases reader with
  | full => exact bare_full_of_nil hexpression
  | expression => exact hexpression
  | term => exact hterm
  | factor => exact hfactor

/-- **One call.** From a state without tokens behind an error, a call ends in one of two ways. -/
theorem reading_read (scope : Scope) (reader : Reader) {s : State}
    (hs : s.failed = true → s.rest = []) :
    Reading scope s (reader.read scope s : Expr R × State) := by
  obtain ⟨xs, failed⟩ := s
  cases failed with
  | true =>
    obtain rfl : xs = [] := hs rfl
    rw [read_nil]
    exact .failed (p := []) rfl (Expr.errorOffsets_error _)
  | false =>
    have hexpression : Reading scope ⟨xs, false⟩
        (bare (expression scope ⟨xs, false⟩ : Expr R × After _)) :=
      .of_outcome (outcome_expression scope xs) (by simp) (by simp) fun _ h => h
    have hfactors : FactorsUpTo scope R xs.length := outcome_factor scope xs.length
    cases reader with
    | full => exact hexpression.full
    | expression => exact hexpression
    | term =>
      exact .of_outcome (outcome_term hfactors le_rfl) (by simp) (by simp) fun _ h => h
    | factor => exact .of_outcome (hfactors xs le_rfl) (by simp) (by simp) fun _ h => h

/-! ### Any number of calls -/

/-- Calls one after the other: their trees in order, and the state behind the last one. -/
def readAll (scope : Scope) (s : State) : List Reader → List (Expr R) × State
  | [] => ([], s)
  | reader :: readers =>
    let first : Expr R × State := reader.read scope s
    let others := readAll scope first.2 readers
    (first.1 :: others.1, others.2)

/-- **Any number of calls.** All states that calls lead to are such states. -/
theorem Reached.readAll {tokens : List Token} {trees : List (Expr R)} {s : State}
    (scope : Scope) (readers : List Reader) (hs : Reached tokens trees s) :
    Reached tokens (trees ++ (Parser.readAll scope s readers).1)
      (Parser.readAll scope s readers : List (Expr R) × State).2 := by
  induction readers generalizing trees s with
  | nil =>
    rw [Parser.readAll, List.append_nil]
    exact hs
  | cons reader readers ih =>
    have hstep := hs.step (reading_read scope reader hs.rest_of_failed)
    rw [Parser.readAll, List.append_cons]
    exact ih hstep

/-- **Every call.** What is true of a call that follows any number of other calls on the same
text. -/
theorem call_readAll (name text : String) (readers : List Reader) (reader : Reader) :
    let scope := Scope.ofText name text
    let before : List (Expr R) × State := readAll scope (State.ofText text) readers
    let result : Expr R × State := reader.read scope before.2
    Call (tokenize text) (Text.byteLength text.toList) before.1 before.2 result.1 result.2 := by
  intro scope before result
  have hstart : Reached (tokenize text) ([] : List (Expr R)) (State.ofText text) :=
    ⟨List.suffix_rfl, by simp [State.ofText], by simp [State.ofText]⟩
  have hbefore : Reached (tokenize text) before.1 before.2 := hstart.readAll scope readers
  exact hbefore.call (reading_read scope reader hbefore.rest_of_failed)

end Parser

end Univariate
