import Univariate.Expr.Basic

/-!
# Walking through a tree

A walk visits the nodes of a tree one at a time in post-order: the children of a node from left to
right, then the node itself. It keeps its place with a stack, so that it can be interrupted after
every node. Nodes are told apart by where they stand in the tree and not by what they are, since a
tree may contain the same subtree several times.

## Main definitions

* `Expr.Place`: a subtree together with where it stands.
* `Expr.Walk`: the state of a walk.
* `Expr.Walk.next?`: the next node and the walk behind it.
* `Expr.nodes`: all nodes in the order of the walk.
* `Expr.errorOffsets`, `Expr.hasError`: the errors of a tree, from left to right.
* `Expr.postOrder`: the same order, defined by recursion.

## Main results

* `Expr.nodes_eq_postOrder`: the walk visits every node once, in post-order.
* `Expr.errorOffsets_unary`, `Expr.errorOffsets_binary`: the errors of a tree are those of its
  children.
-/

namespace Univariate.Expr

variable {R : Type} [Zero R] [BEq R]

/-! ### The walk -/

/-- A subtree and where it stands: the numbers of the children to step to from the root, the last
step first. -/
structure Place (R : Type) [Zero R] [BEq R] where
  /-- The steps from the root, in reverse. -/
  path : List Nat
  /-- The subtree. -/
  expr : Expr R

/-- The state of a walk. -/
structure Walk (R : Type) [Zero R] [BEq R] where
  /-- The nodes that are still to be visited, except for those below them. -/
  stack : List (Place R)
  /-- Where the node stands that was visited last. -/
  last : Option (List Nat)

/-- A walk that has not visited any node of the tree. -/
def Walk.start (t : Expr R) : Walk R :=
  ⟨[⟨[], t⟩], none⟩

/-- Goes down from a node to the next one to be visited, and stacks up what is left for later. A
node is visited at once if the last of its children was the last node visited. -/
def Walk.descend (last : Option (List Nat)) (path : List Nat) (t : Expr R)
    (below : List (Place R)) : Place R × List (Place R) :=
  match t with
  | .unary op u =>
    if last = some (0 :: path) then (⟨path, .unary op u⟩, below)
    else descend last (0 :: path) u (⟨path, .unary op u⟩ :: below)
  | .binary op l r =>
    if last = some (1 :: path) then (⟨path, .binary op l r⟩, below)
    else descend last (0 :: path) l (⟨1 :: path, r⟩ :: ⟨path, .binary op l r⟩ :: below)
  | leaf => (⟨path, leaf⟩, below)

/-- The next node of a walk and the walk behind it. -/
def Walk.next? (w : Walk R) : Option (Place R × Walk R) :=
  match w.stack with
  | [] => none
  | p :: below =>
    let (visited, rest) := descend w.last p.path p.expr below
    some (visited, ⟨rest, some visited.path⟩)

/-- The next nodes of a walk, at most `n` of them. -/
def Walk.take : Nat → Walk R → List (Place R)
  | 0, _ => []
  | n + 1, w =>
    match w.next? with
    | none => []
    | some (visited, w) => visited :: take n w

/-- The nodes of a tree in post-order. -/
def nodes (t : Expr R) : List (Expr R) :=
  ((Walk.start t).take t.size).map Place.expr

/-- The offsets of the error leaves, from left to right. -/
def errorOffsets (t : Expr R) : List Nat :=
  t.nodes.filterMap errorOffset?

/-- Whether the tree has an error leaf. -/
def hasError (t : Expr R) : Bool :=
  t.nodes.any fun node => node.errorOffset?.isSome

/-! ### The order of the walk -/

/-- The subtrees in post-order, by recursion: the children from left to right, then the tree. -/
def postOrder : Expr R → List (Expr R)
  | .unary op u => u.postOrder ++ [.unary op u]
  | .binary op l r => l.postOrder ++ r.postOrder ++ [.binary op l r]
  | leaf => [leaf]

/-- The subtrees in post-order with their places, for a tree that stands at a given place. -/
def placesFrom (path : List Nat) : Expr R → List (Place R)
  | .unary op u => placesFrom (0 :: path) u ++ [⟨path, .unary op u⟩]
  | .binary op l r =>
    placesFrom (0 :: path) l ++ placesFrom (1 :: path) r ++ [⟨path, .binary op l r⟩]
  | leaf => [⟨path, leaf⟩]

theorem map_expr_placesFrom (t : Expr R) (path : List Nat) :
    (placesFrom path t).map Place.expr = t.postOrder := by
  induction t generalizing path with
  | unary op u ih => simp [placesFrom, postOrder, ih]
  | binary op l r ihl ihr => simp [placesFrom, postOrder, ihl, ihr]
  | _ => rfl

/-- **A walk over one subtree.** A walk that has a tree on top of its stack, and has not been below
that tree, visits all of the tree in order and then stands behind it. -/
theorem Walk.take_cons (t : Expr R) (path : List Nat) (below : List (Place R))
    (last : Option (List Nat)) (n : Nat) (hlast : ∀ q, q ≠ [] → last ≠ some (q ++ path)) :
    take (t.size + n) ⟨⟨path, t⟩ :: below, last⟩ =
      placesFrom path t ++ take n ⟨below, some path⟩ := by
  induction t generalizing path below last n with
  | unary op u ih =>
    have hne : last ≠ some (0 :: path) := hlast [0] (by simp)
    have h := ih (0 :: path) (⟨path, .unary op u⟩ :: below) last (1 + n)
      fun q _ heq => hlast (q ++ [0]) (by simp) (by rw [heq, List.append_assoc]; rfl)
    have hvisit : take (1 + n) ⟨(⟨path, .unary op u⟩ : Place R) :: below, some (0 :: path)⟩ =
        ⟨path, .unary op u⟩ :: take n ⟨below, some path⟩ := by
      simp [Nat.add_comm 1 n, take, next?, descend]
    have hstep : next? ⟨(⟨path, .unary op u⟩ : Place R) :: below, last⟩ =
        next? ⟨⟨0 :: path, u⟩ :: ⟨path, .unary op u⟩ :: below, last⟩ := by
      simp [next?, descend, hne]
    rw [size, Nat.add_assoc, placesFrom, List.append_assoc, List.singleton_append, ← hvisit, ← h]
    obtain ⟨k, hk⟩ : ∃ k, u.size + (1 + n) = k + 1 := ⟨u.size + n, by omega⟩
    rw [hk, take, take, hstep]
  | binary op l r ihl ihr =>
    have hne : last ≠ some (1 :: path) := hlast [1] (by simp)
    have hl := ihl (0 :: path) (⟨1 :: path, r⟩ :: ⟨path, .binary op l r⟩ :: below) last
      (r.size + (1 + n)) fun q _ heq =>
        hlast (q ++ [0]) (by simp) (by rw [heq, List.append_assoc]; rfl)
    have hr := ihr (1 :: path) (⟨path, .binary op l r⟩ :: below) (some (0 :: path)) (1 + n)
      fun q hq heq => by
        have hlength := congrArg List.length (Option.some.inj heq)
        have := List.length_pos_iff.mpr hq
        simp only [List.length_append, List.length_cons] at hlength
        omega
    have hvisit : take (1 + n) ⟨(⟨path, .binary op l r⟩ : Place R) :: below, some (1 :: path)⟩ =
        ⟨path, .binary op l r⟩ :: take n ⟨below, some path⟩ := by
      simp [Nat.add_comm 1 n, take, next?, descend]
    have hstep : next? ⟨(⟨path, .binary op l r⟩ : Place R) :: below, last⟩ =
        next? ⟨⟨0 :: path, l⟩ :: ⟨1 :: path, r⟩ :: ⟨path, .binary op l r⟩ :: below, last⟩ := by
      simp [next?, descend, hne]
    rw [show (binary op l r).size + n = l.size + (r.size + (1 + n)) by simp only [size]; omega,
      placesFrom, List.append_assoc, List.append_assoc, List.singleton_append, ← hvisit, ← hr, ← hl]
    obtain ⟨k, hk⟩ : ∃ k, l.size + (r.size + (1 + n)) = k + 1 := ⟨l.size + (r.size + n), by omega⟩
    rw [hk, take, take, hstep]
  | _ => simp [size, Nat.add_comm 1 n, take, next?, descend, placesFrom]

/-- **The walk is the post-order.** Every node is visited once, children before their parent. -/
theorem nodes_eq_postOrder (t : Expr R) : t.nodes = t.postOrder := by
  have h := Walk.take_cons t [] [] none 0 (by simp)
  rw [nodes, Walk.start, ← Nat.add_zero t.size, h, List.map_append, map_expr_placesFrom]
  simp [Walk.take]

theorem mem_nodes_unary {op : UnaryOp} {u t : Expr R} :
    t ∈ (unary op u).nodes ↔ t ∈ u.nodes ∨ t = unary op u := by
  simp [nodes_eq_postOrder, postOrder]

theorem mem_nodes_binary {op : BinaryOp} {l r t : Expr R} :
    t ∈ (binary op l r).nodes ↔ t ∈ l.nodes ∨ t ∈ r.nodes ∨ t = binary op l r := by
  simp [nodes_eq_postOrder, postOrder]

/-! ### Errors, by recursion -/

theorem errorOffsets_eq_postOrder (t : Expr R) :
    t.errorOffsets = t.postOrder.filterMap errorOffset? := by
  rw [errorOffsets, nodes_eq_postOrder]

@[simp] theorem errorOffsets_var (name : String) : (var name : Expr R).errorOffsets = [] := rfl

@[simp] theorem errorOffsets_const (c : R) : (const c).errorOffsets = [] := rfl

@[simp] theorem errorOffsets_error (offset : Nat) :
    (error offset : Expr R).errorOffsets = [offset] := rfl

@[simp] theorem errorOffsets_poly (p : Poly R) : (poly p).errorOffsets = [] := rfl

@[simp] theorem errorOffsets_unary (op : UnaryOp) (u : Expr R) :
    (unary op u).errorOffsets = u.errorOffsets := by
  simp [errorOffsets_eq_postOrder, postOrder, errorOffset?]

@[simp] theorem errorOffsets_binary (op : BinaryOp) (l r : Expr R) :
    (binary op l r).errorOffsets = l.errorOffsets ++ r.errorOffsets := by
  simp [errorOffsets_eq_postOrder, postOrder, errorOffset?]

/-- A tree without an error is one without the offset of an error. -/
theorem hasError_eq_false_iff (t : Expr R) : t.hasError = false ↔ t.errorOffsets = [] := by
  simp [hasError, errorOffsets, List.any_eq_false, List.filterMap_eq_nil_iff]

end Univariate.Expr
