import Mathlib.Data.List.Nodup
import Univariate.Expr.Walk

/-!
# The walk and the recursion

A walk goes through a tree without recursion. All it has is a stack and the place of the node that
it visited last, and on every call it runs a loop: the node on top of the stack is visited if
nothing below it is left, and otherwise its children are put on top of it. So a node is looked at
more than once, and the stack grows and shrinks while the loop runs. What comes out is the order
that a recursion over the tree gives, with every node in it once.

## Why places

A tree may contain the same subtree twice, as in `x - x`. The loop has to know which of the two it
comes back from, so it compares places and not subtrees. The same holds for what is shown here: that
no node is visited twice is a statement about places, and that none is left out means that every
place in the tree is met.

## Main definitions

* `Expr.Walk.turn`, `Expr.Walk.loop`: what one turn of the loop does, and a number of turns.
* `Expr.Walk.call`, `Expr.Walk.answer`: one call, and what a call says after a number of others.
* `Expr.subtree?`: the subtree at a place.
* `Expr.places`: the places of a tree in post-order, by recursion.
* `Expr.leaves`: the leaves of a tree, from left to right.

## Main results

* `Expr.Walk.loop_eq_call`: the loop of a call ends.
* `Expr.Walk.answer_start`: the calls give the places in post-order, and then nothing any more.
* `Expr.mem_places_iff`, `Expr.nodup_path_places`: every place is among them, and none twice.
* `Expr.walk_visits_places`: all of it, and what it says of errors.
-/

namespace Univariate.Expr

variable {R : Type} [Zero R] [BEq R]

/-! ### The loop of a call -/

/-- The children of a node with their places, from left to right. -/
def Place.children (p : Place R) : List (Place R) :=
  p.expr.children.mapIdx fun i u => ⟨i :: p.path, u⟩

/-- Whether a node is to be visited next: it has no children, or the last of them was the last node
visited. -/
def Walk.IsReady (last : Option (List Nat)) (p : Place R) : Prop :=
  ∀ q ∈ p.children.getLast?, last = some q.path

instance (last : Option (List Nat)) (p : Place R) : Decidable (Walk.IsReady last p) :=
  inferInstanceAs (Decidable (∀ q ∈ p.children.getLast?, last = some q.path))

/-- One turn of the loop. Either it ends with an answer, which is a node that is visited or nothing
at all, or it puts the children of the node on top of the stack above it. -/
def Walk.turn (w : Walk R) : (Option (Place R) × Walk R) ⊕ Walk R :=
  match w.stack with
  | [] => .inl (none, w)
  | p :: below =>
    if IsReady w.last p then .inl (some p, ⟨below, some p.path⟩)
    else .inr ⟨p.children ++ p :: below, w.last⟩

/-- The answer of the loop, if it ends after at most `n` turns. -/
def Walk.loop : Nat → Walk R → Option (Option (Place R) × Walk R)
  | 0, _ => none
  | n + 1, w =>
    match w.turn with
    | .inl answer => some answer
    | .inr w => loop n w

/-- A call: the next node if there is one, and the walk behind it. -/
def Walk.call (w : Walk R) : Option (Place R) × Walk R :=
  match w.next? with
  | none => (none, w)
  | some (visited, w) => (some visited, w)

/-- What a walk says when it is called after `n` other calls. -/
def Walk.answer : Nat → Walk R → Option (Place R)
  | 0, w => w.call.1
  | n + 1, w => answer n w.call.2

@[simp] theorem Walk.isReady_unary {last : Option (List Nat)} {path : List Nat} {op : UnaryOp}
    {u : Expr R} : IsReady last ⟨path, .unary op u⟩ ↔ last = some (0 :: path) := by
  simp [IsReady, Place.children, children]

@[simp] theorem Walk.isReady_binary {last : Option (List Nat)} {path : List Nat} {op : BinaryOp}
    {l r : Expr R} : IsReady last ⟨path, .binary op l r⟩ ↔ last = some (1 :: path) := by
  simp [IsReady, Place.children, children]

theorem Walk.loop_of_isReady {p : Place R} {below : List (Place R)} {last : Option (List Nat)}
    (h : IsReady last p) (n : Nat) :
    loop (n + 1) ⟨p :: below, last⟩ = some (some p, ⟨below, some p.path⟩) := by
  simp only [loop, turn, if_pos h]

theorem Walk.loop_of_not_isReady {p : Place R} {below : List (Place R)} {last : Option (List Nat)}
    (h : ¬ IsReady last p) (n : Nat) :
    loop (n + 1) ⟨p :: below, last⟩ = loop n ⟨p.children ++ p :: below, last⟩ := by
  simp only [loop, turn, if_neg h]

theorem size_pos (t : Expr R) : 0 < t.size := by
  cases t <;> simp [size]

/-- The loop goes down to the next node and stacks up the rest. It takes no more turns than the tree
on top of the stack has nodes. -/
theorem Walk.loop_cons (t : Expr R) (path : List Nat) (below : List (Place R))
    (last : Option (List Nat)) {n : Nat} (hn : t.size ≤ n) :
    loop n ⟨⟨path, t⟩ :: below, last⟩ =
      some (some (descend last path t below).1,
        ⟨(descend last path t below).2, some (descend last path t below).1.path⟩) := by
  induction t generalizing path below n with
  | unary op u ih =>
    obtain ⟨n, rfl⟩ := Nat.exists_eq_add_of_lt (Nat.lt_of_lt_of_le (size_pos _) hn)
    rw [size] at hn
    rw [Nat.zero_add, descend]
    split
    · next hlast => rw [loop_of_isReady (isReady_unary.mpr hlast)]
    · next hlast =>
      rw [loop_of_not_isReady (mt isReady_unary.mp hlast)]
      exact ih (0 :: path) (⟨path, .unary op u⟩ :: below) (by omega)
  | binary op l r ihl ihr =>
    obtain ⟨n, rfl⟩ := Nat.exists_eq_add_of_lt (Nat.lt_of_lt_of_le (size_pos _) hn)
    rw [size] at hn
    rw [Nat.zero_add, descend]
    split
    · next hlast => rw [loop_of_isReady (isReady_binary.mpr hlast)]
    · next hlast =>
      rw [loop_of_not_isReady (mt isReady_binary.mp hlast)]
      exact ihl (0 :: path) (⟨1 :: path, r⟩ :: ⟨path, .binary op l r⟩ :: below) (by omega)
  | _ =>
    obtain ⟨n, rfl⟩ := Nat.exists_eq_add_of_lt (Nat.lt_of_lt_of_le (size_pos _) hn)
    rw [Nat.zero_add, loop_of_isReady (by simp [IsReady, Place.children, children])]
    rfl

/-- **The loop of a call ends.** -/
theorem Walk.loop_eq_call (w : Walk R) : ∃ turns, w.loop turns = some w.call := by
  obtain ⟨stack, last⟩ := w
  cases stack with
  | nil => exact ⟨1, rfl⟩
  | cons p below => exact ⟨p.expr.size, loop_cons p.expr p.path below last (Nat.le_refl _)⟩

/-! ### Places in a tree -/

/-- The subtree at a place, given by the numbers of the children to step to from the root. -/
def subtree? : List Nat → Expr R → Option (Expr R)
  | [], t => some t
  | i :: steps, t => t.children[i]?.bind (subtree? steps)

/-- The places of a tree in post-order: those of the children from left to right, then the root. -/
def places (t : Expr R) : List (Place R) :=
  placesFrom [] t

theorem length_placesFrom (t : Expr R) (path : List Nat) :
    (placesFrom path t).length = t.size := by
  induction t generalizing path with
  | unary op u ih => rw [placesFrom, List.length_append, ih]; rfl
  | binary op l r ihl ihr => rw [placesFrom, List.length_append, List.length_append, ihl, ihr]; rfl
  | _ => rfl

/-- A place that steps lead to from a tree which stands at a given place. -/
def LeadsTo (path : List Nat) (t : Expr R) (p : Place R) : Prop :=
  ∃ steps, p.path = steps.reverse ++ path ∧ t.subtree? steps = some p.expr

/-- Steps lead to the root, or on from one of its children. -/
theorem leadsTo_iff {path : List Nat} {t : Expr R} {p : Place R} :
    LeadsTo path t p ↔
      p = ⟨path, t⟩ ∨ ∃ q ∈ Place.children ⟨path, t⟩, LeadsTo q.path q.expr p := by
  obtain ⟨path', t'⟩ := p
  simp only [Place.children, List.mem_mapIdx]
  constructor
  · rintro ⟨steps, hpath, hsubtree⟩
    cases steps with
    | nil =>
      obtain rfl : path' = path := hpath
      obtain rfl : t = t' := Option.some.inj hsubtree
      exact .inl rfl
    | cons i steps =>
      obtain ⟨u, hu, hsubtree⟩ := Option.bind_eq_some_iff.mp hsubtree
      obtain ⟨hi, rfl⟩ := List.getElem?_eq_some_iff.mp hu
      rw [List.reverse_cons, List.append_assoc] at hpath
      exact .inr ⟨_, ⟨i, hi, rfl⟩, steps, hpath, hsubtree⟩
  · rintro (heq | ⟨_, ⟨i, hi, rfl⟩, steps, hpath, hsubtree⟩)
    · obtain ⟨rfl, rfl⟩ := Place.mk.inj heq
      exact ⟨[], rfl, rfl⟩
    · refine ⟨i :: steps, ?_,
        Option.bind_eq_some_iff.mpr ⟨_, List.getElem?_eq_getElem hi, hsubtree⟩⟩
      rw [List.reverse_cons, List.append_assoc]
      exact hpath

/-- **Every place is met.** -/
theorem mem_placesFrom_iff {path : List Nat} {t : Expr R} {p : Place R} :
    p ∈ placesFrom path t ↔ LeadsTo path t p := by
  induction t generalizing path with
  | unary op u ih =>
    have hchildren : Place.children ⟨path, .unary op u⟩ = [⟨0 :: path, u⟩] := rfl
    rw [leadsTo_iff, hchildren, placesFrom, List.mem_append, List.mem_singleton, ih]
    simp [or_comm]
  | binary op l r ihl ihr =>
    have hchildren : Place.children ⟨path, .binary op l r⟩ = [⟨0 :: path, l⟩, ⟨1 :: path, r⟩] := rfl
    rw [leadsTo_iff, hchildren, placesFrom, List.mem_append, List.mem_append, List.mem_singleton,
      ihl, ihr]
    simp [or_comm]
  | _ =>
    rw [leadsTo_iff]
    simp [placesFrom, Place.children, children]

theorem mem_places_iff {t : Expr R} {p : Place R} :
    p ∈ t.places ↔ t.subtree? p.path.reverse = some p.expr := by
  rw [places, mem_placesFrom_iff]
  constructor
  · rintro ⟨steps, hpath, hsubtree⟩
    rwa [hpath, List.append_nil, List.reverse_reverse]
  · intro h
    exact ⟨p.path.reverse, by simp, h⟩

/-- The places below a child end with its place. -/
theorem suffix_of_mem_placesFrom {i : Nat} {path : List Nat} {u : Expr R} {p : Place R}
    (h : p ∈ placesFrom (i :: path) u) : (i :: path) <:+ p.path := by
  obtain ⟨steps, hpath, -⟩ := mem_placesFrom_iff.mp h
  exact ⟨steps.reverse, hpath.symm⟩

/-- A node stands above the places below its children. -/
theorem not_mem_path_placesFrom (i : Nat) (path : List Nat) (u : Expr R) :
    path ∉ (placesFrom (i :: path) u).map Place.path := by
  intro h
  obtain ⟨p, hp, hpath⟩ := List.mem_map.mp h
  have hle := (suffix_of_mem_placesFrom hp).length_le
  rw [hpath, List.length_cons] at hle
  omega

/-- The places below different children are different. -/
theorem disjoint_path_placesFrom {i j : Nat} (hne : i ≠ j) (path : List Nat) (u u' : Expr R) :
    ((placesFrom (i :: path) u).map Place.path).Disjoint
      ((placesFrom (j :: path) u').map Place.path) := by
  intro q hq hq'
  obtain ⟨p, hp, rfl⟩ := List.mem_map.mp hq
  obtain ⟨p', hp', hpath⟩ := List.mem_map.mp hq'
  have hsuffix : (i :: path) <:+ (j :: path) :=
    List.suffix_of_suffix_length_le (suffix_of_mem_placesFrom hp)
      (hpath ▸ suffix_of_mem_placesFrom hp') (Nat.le_refl _)
  exact hne (List.cons.inj (hsuffix.eq_of_length rfl)).1

/-- **No place is met twice.** -/
theorem nodup_path_placesFrom (t : Expr R) (path : List Nat) :
    ((placesFrom path t).map Place.path).Nodup := by
  induction t generalizing path with
  | unary op u ih =>
    rw [placesFrom, List.map_append, List.map_singleton, List.nodup_append']
    refine ⟨ih _, List.nodup_singleton _, ?_⟩
    exact List.disjoint_singleton.mpr (not_mem_path_placesFrom 0 path u)
  | binary op l r ihl ihr =>
    rw [placesFrom, List.map_append, List.map_append, List.map_singleton, List.nodup_append',
      List.nodup_append', List.disjoint_append_left]
    refine ⟨⟨ihl _, ihr _, disjoint_path_placesFrom Nat.zero_ne_one path l r⟩,
      List.nodup_singleton _, ?_, ?_⟩
    · exact List.disjoint_singleton.mpr (not_mem_path_placesFrom 0 path l)
    · exact List.disjoint_singleton.mpr (not_mem_path_placesFrom 1 path r)
  | _ => exact List.nodup_singleton _

/-! ### The answers of a walk -/

/-- The answers are the nodes that a walk visits, and nothing behind the last one. -/
theorem Walk.answer_eq_getElem?_take {n m : Nat} (hlt : n < m) (w : Walk R) :
    w.answer n = (w.take m)[n]? := by
  induction n generalizing w m with
  | zero =>
    obtain ⟨m, rfl⟩ := Nat.exists_eq_add_one_of_ne_zero (Nat.ne_of_gt hlt)
    rw [answer, call, take]
    cases w.next? <;> rfl
  | succ n ih =>
    obtain ⟨m, rfl⟩ := Nat.exists_eq_add_one_of_ne_zero (Nat.ne_of_gt (Nat.zero_lt_of_lt hlt))
    rw [answer, ih (Nat.lt_of_succ_lt_succ hlt), call, take]
    cases hnext : w.next? with
    | none =>
      -- a walk that is at its end stays there
      cases m <;> simp [take, hnext]
    | some visited => rfl

/-- **The order of a walk.** The calls give the places of the tree in post-order. From then on they
give nothing. -/
theorem Walk.answer_start (t : Expr R) (n : Nat) : (Walk.start t).answer n = t.places[n]? := by
  have hwalk := take_cons t [] [] none (n + 1) (by simp)
  have hend : take (n + 1) (⟨[], some []⟩ : Walk R) = [] := rfl
  rw [hend, List.append_nil] at hwalk
  have hlt : n < t.size + (n + 1) := by omega
  rw [answer_eq_getElem?_take hlt, start, hwalk, places]

/-! ### Errors from left to right -/

/-- The leaves of a tree, from left to right. -/
def leaves : Expr R → List (Expr R)
  | .unary _ u => u.leaves
  | .binary _ l r => l.leaves ++ r.leaves
  | leaf => [leaf]

theorem errorOffsets_eq_leaves (t : Expr R) : t.errorOffsets = t.leaves.filterMap errorOffset? := by
  induction t with
  | unary op u ih => rw [errorOffsets_unary, ih, leaves]
  | binary op l r ihl ihr => rw [errorOffsets_binary, ihl, ihr, leaves, List.filterMap_append]
  | _ => rfl

theorem hasError_iff (t : Expr R) :
    t.hasError = true ↔ ∃ steps offset, t.subtree? steps = some (.error offset) := by
  have hplaces : t.nodes = t.places.map Place.expr := by
    rw [nodes_eq_postOrder, places, map_expr_placesFrom]
  rw [hasError, List.any_eq_true, hplaces]
  constructor
  · rintro ⟨u, hu, herror⟩
    obtain ⟨p, hp, rfl⟩ := List.mem_map.mp hu
    have hsubtree := mem_places_iff.mp hp
    cases hp : p.expr with
    | error offset => exact ⟨_, offset, hp ▸ hsubtree⟩
    | _ =>
      rw [hp] at herror
      contradiction
  · rintro ⟨steps, offset, h⟩
    have hmem : ⟨steps.reverse, .error offset⟩ ∈ t.places :=
      mem_places_iff.mpr (by rwa [List.reverse_reverse])
    exact ⟨_, List.mem_map_of_mem hmem, rfl⟩

/-- **A walk visits every node once.** The loop of a call ends in whatever state the walk is. The
calls give the places of the tree in the order of the recursion, which are all places that there are
in the tree, each of them once. Behind the last one they give nothing. So the errors are listed from
left to right, and there is one if and only if some place holds an error leaf. -/
theorem walk_visits_places (t : Expr R) :
    (∀ w : Walk R, ∃ turns, w.loop turns = some w.call) ∧
    (∀ n, (Walk.start t).answer n = t.places[n]?) ∧
    t.places.length = t.size ∧
    (t.places.map Place.path).Nodup ∧
    (∀ p, p ∈ t.places ↔ t.subtree? p.path.reverse = some p.expr) ∧
    t.errorOffsets = t.leaves.filterMap errorOffset? ∧
    (t.hasError = true ↔ ∃ steps offset, t.subtree? steps = some (.error offset)) :=
  ⟨Walk.loop_eq_call, Walk.answer_start t, length_placesFrom t [], nodup_path_placesFrom t [],
    fun _ => mem_places_iff, errorOffsets_eq_leaves t, hasError_iff t⟩

/-- The two leaves of `x - x` are visited at different places. -/
example : (binary .minus (var "x") (var "x") : Expr Nat).places.map Place.path = [[0], [1], []] :=
  rfl

end Univariate.Expr
