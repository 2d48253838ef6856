import Mathlib.Algebra.Ring.Nat
import Mathlib.Tactic.Common

/-!
# Perfect binary trees over lists

The values of a level are combined in pairs until one is left. With the constructor of trees in the
place of the combination, the same computation gives the tree itself, whose leaves are the values in
their order.
-/

namespace PerfectTree

variable {α β : Type}

/-- The neighbours of a list combined in pairs; a last value without a neighbour stays. -/
def pairUp (combine : α → α → α) : List α → List α
  | x :: y :: rest => combine x y :: pairUp combine rest
  | rest => rest

/-- The root of a perfect tree with a number of levels above its leaves. -/
def root? (combine : α → α → α) : Nat → List α → Option α
  | 0, values => values.head?
  | levels + 1, values => root? combine levels (pairUp combine values)

/-- Binary trees with values at the leaves. -/
inductive LeafTree (α : Type) where
  | leaf (value : α)
  | node (left right : LeafTree α)

namespace LeafTree

def leaves : LeafTree α → List α
  | leaf value => [value]
  | node left right => left.leaves ++ right.leaves

/-- The value at the root, if the nodes combine what is below them. -/
def fold (combine : β → β → β) (read : α → β) : LeafTree α → β
  | leaf value => read value
  | node left right => combine (left.fold combine read) (right.fold combine read)

end LeafTree

variable {combine : α → α → α} {other : β → β → β}

theorem getElem?_pairUp {values : List α} {n j : Nat} {z : α} (even : values.length = 2 * n)
    (found : (pairUp combine values)[j]? = some z) :
    j < n ∧ ∃ x y, values[2 * j]? = some x ∧ values[2 * j + 1]? = some y ∧ z = combine x y := by
  induction n generalizing values j with
  | zero => simp_all [pairUp]
  | succ n ih =>
    match values, even, j with
    | a :: b :: rest, _, 0 => exact ⟨Nat.succ_pos n, a, b, rfl, rfl, by simp_all [pairUp]⟩
    | a :: b :: rest, even, j + 1 =>
      obtain ⟨inside, found⟩ := @ih rest j (by simpa [Nat.mul_succ] using even) found
      exact ⟨Nat.succ_lt_succ inside, found⟩

theorem length_pairUp {values : List α} {n : Nat} (even : values.length = 2 * n) :
    (pairUp combine values).length = n := by
  induction n generalizing values with
  | zero => simp_all [pairUp]
  | succ n ih =>
    match values, even with
    | a :: b :: rest, even => simp [pairUp, ih (by simpa [Nat.mul_succ] using even)]

section Map

variable {f : α → β} (hom : ∀ x y, f (combine x y) = other (f x) (f y))

include hom

theorem map_pairUp (values : List α) :
    (pairUp combine values).map f = pairUp other (values.map f) := by
  fun_induction pairUp combine values with
  | case1 x y rest ih => simp [pairUp, hom, ih]
  | case2 rest short =>
    match rest with
    | [] => rfl
    | [x] => rfl
    | x :: y :: rest => exact (short x y rest rfl).elim

theorem map_root? (levels : Nat) (values : List α) :
    (root? combine levels values).map f = root? other levels (values.map f) := by
  induction levels generalizing values with
  | zero => cases values <;> rfl
  | succ levels ih => simp [root?, ih, map_pairUp hom]

end Map

theorem flatMap_leaves_pairUp (trees : List (LeafTree α)) :
    (pairUp .node trees).flatMap LeafTree.leaves = trees.flatMap LeafTree.leaves := by
  fun_induction pairUp LeafTree.node trees with
  | case1 x y rest ih => simp [LeafTree.leaves, ih]
  | case2 rest short => rfl

/-- The tree over trees has their leaves, in their order. -/
theorem leaves_root? {levels : Nat} {trees : List (LeafTree α)} (full : trees.length = 2 ^ levels) :
    ∃ tree, root? .node levels trees = some tree ∧ tree.leaves = trees.flatMap LeafTree.leaves := by
  induction levels generalizing trees with
  | zero =>
    obtain ⟨tree, rfl⟩ := List.length_eq_one_iff.mp full
    exact ⟨tree, rfl, by simp⟩
  | succ levels ih =>
    obtain ⟨tree, isRoot, same⟩ := ih (length_pairUp (full.trans (Nat.pow_succ' ..)))
    exact ⟨tree, isRoot, same.trans (flatMap_leaves_pairUp trees)⟩

end PerfectTree
