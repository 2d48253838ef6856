import Memero.Basic.TreeHash
import Memero.Lib.PerfectTree
import Mathlib.Data.Nat.Log

/-!
# The tree hash and its definition

Section 5.1 of the CryptoNote standard defines the root of `n` hashes: with `m` the largest power of
two below `n`, the last `2 * (n - m)` hashes are hashed in pairs, and the `m` values that result are
the leaves of a perfect tree. `tree_hash` descends from the root of the same tree.
-/

namespace Memero

open List Nat

open PerfectTree

section Definition

variable {α β : Type} (combine : α → α → α)

/-- The leaves of the perfect tree, for `m` of them. -/
def fullLevel (m : Nat) (hashes : List α) : List α :=
  hashes.take (2 * m - hashes.length) ++ pairUp combine (hashes.drop (2 * m - hashes.length))

/-- The root by the definition. -/
def cryptonoteRoot (hashes : List α) : Option α :=
  let levels := Nat.log 2 (hashes.length - 1)
  root? combine levels (fullLevel combine (2 ^ levels) hashes)

theorem length_fullLevel {hashes : List α} (some : hashes ≠ []) :
    (fullLevel combine (2 ^ Nat.log 2 (hashes.length - 1)) hashes).length =
      2 ^ Nat.log 2 (hashes.length - 1) := by
  have positive := length_pos_iff.mpr some
  have bounds : 2 ^ log 2 (hashes.length - 1) ≤ hashes.length ∧
      hashes.length ≤ 2 * 2 ^ log 2 (hashes.length - 1) := by
    have upper := Nat.lt_pow_succ_log_self Nat.one_lt_two (hashes.length - 1)
    by_cases one : hashes.length - 1 = 0
    · rw [one, log_zero_right]
      omega
    · have lower := pow_log_le_self 2 one
      omega
  rw [fullLevel, length_append, length_take, @length_pairUp _ combine _
    (hashes.length - 2 ^ log 2 (hashes.length - 1)) (by rw [length_drop]; omega)]
  omega

variable {combine} {other : β → β → β}

theorem map_cryptonoteRoot {f : α → β} (hom : ∀ x y, f (combine x y) = other (f x) (f y))
    (hashes : List α) :
    (cryptonoteRoot combine hashes).map f = cryptonoteRoot other (hashes.map f) := by
  simp [cryptonoteRoot, fullLevel, map_root? hom, map_pairUp hom]

end Definition

theorem doubleWhileBelow_pow (x levels : Nat) (positive : 0 < 2 ^ levels) :
    ∃ more, doubleWhileBelow x (2 ^ levels) positive = 2 ^ (levels + more) := by
  induction gap : x - 2 ^ levels using Nat.strongRecOn generalizing levels with
  | ind gap ih =>
    unfold doubleWhileBelow
    split
    · obtain ⟨more, same⟩ := ih (x - 2 ^ (levels + 1)) (by rw [pow_succ']; omega) (levels + 1)
        (Nat.two_pow_pos _) rfl
      simp only [pow_succ'] at same
      exact ⟨more + 1, by rw [same, Nat.add_right_comm, Nat.add_assoc]⟩
    · exact ⟨0, rfl⟩

/-- What the loop finds is the largest power of two below the number of hashes. -/
theorem largestPowerOfTwo_eq {n : Nat} (two : 2 ≤ n) :
    largestPowerOfTwo n = 2 ^ Nat.log 2 (n - 1) := by
  obtain ⟨more, same⟩ := doubleWhileBelow_pow n 1 (by decide)
  have power : largestPowerOfTwo n = 2 ^ more := by
    unfold largestPowerOfTwo
    simp only [pow_one] at same
    rw [same, Nat.add_comm, Nat.pow_succ, Nat.mul_div_cancel _ Nat.two_pos]
  have below := largestPowerOfTwo_lt two
  have enough := le_two_mul_largestPowerOfTwo n
  rw [power] at below enough ⊢
  have found : log 2 (n - 1) = more :=
    log_eq_of_pow_le_of_lt_pow (by omega) (by rw [pow_succ]; omega)
  rw [found]

section Root

variable {sha3 : List UInt8 → Hash} {hashes : List Hash}

/-- The values of a level are those of the nodes at that level. -/
theorem hashAt_root {levels : Nat} {values : List Hash} (full : values.length = 2 ^ levels)
    (inner : 2 ^ levels ≤ largestPowerOfTwo hashes.length)
    (level : ∀ j x, values[j]? = some x → hashAt sha3 hashes (2 ^ levels + j) = .ok x) :
    ∃ root, hashAt sha3 hashes 1 = .ok root ∧ root? (hashPair sha3) levels values = some root := by
  induction levels generalizing values with
  | zero =>
    obtain ⟨x, rfl⟩ := length_eq_one_iff.mp full
    exact ⟨x, level 0 x rfl, rfl⟩
  | succ levels ih =>
    rw [pow_succ'] at full inner level
    refine ih (length_pairUp full) (by omega) fun j x found => ?_
    obtain ⟨inside, y, z, first, second, rfl⟩ := getElem?_pairUp full found
    unfold hashAt
    rw [dif_pos (.inl (by omega)), mul_add, add_assoc, level _ _ first, level _ _ second]
    rfl

theorem hashAt_of_leafNode (two : 2 ≤ hashes.length) {i j : Nat} {x : Hash}
    (listed : hashes[j]? = some x) (node : leafNode hashes.length j = i) :
    hashAt sha3 hashes i = .ok x := by
  have inside := (List.getElem?_eq_some_iff.mp listed).1
  rw [← node, hashAt_leafNode sha3 two inside, getD_eq_getElem?_getD, listed]
  rfl

/-- The lowest level whose nodes are all there. -/
theorem hashAt_lowest (two : 2 ≤ hashes.length) {m j : Nat} {x : Hash}
    (power : largestPowerOfTwo hashes.length = m)
    (found : (fullLevel (hashPair sha3) m hashes)[j]? = some x) :
    hashAt sha3 hashes (m + j) = .ok x := by
  have enough := le_two_mul_largestPowerOfTwo hashes.length
  have below := largestPowerOfTwo_lt two
  have single : (hashes.take (2 * m - hashes.length)).length = 2 * m - hashes.length := by
    rw [length_take]
    omega
  rw [fullLevel] at found
  rcases lt_or_ge j (2 * m - hashes.length) with high | low
  · rw [getElem?_append_left (by omega), getElem?_take_of_lt high] at found
    exact hashAt_of_leafNode two found (by rw [leafNode, power, if_pos high, add_comm])
  · rw [getElem?_append_right (by omega)] at found
    have paired : (hashes.drop (2 * m - hashes.length)).length = 2 * (hashes.length - m) := by
      rw [length_drop]
      omega
    obtain ⟨inside, y, z, first, second, rfl⟩ := getElem?_pairUp paired found
    rw [getElem?_drop] at first second
    have left : hashAt sha3 hashes (2 * (m + j)) = .ok y :=
      hashAt_of_leafNode two first (by rw [leafNode, if_neg (by omega)]; omega)
    have right : hashAt sha3 hashes (2 * (m + j) + 1) = .ok z :=
      hashAt_of_leafNode two second (by rw [leafNode, if_neg (by omega)]; omega)
    unfold hashAt
    rw [dif_pos (.inr (by omega)), left, right]
    rfl

/-- Nothing is thrown, and the root is that of the definition. -/
theorem treeHash_root (some : hashes ≠ []) :
    ∃ root, treeHash sha3 hashes = .ok (.some root) ∧
      cryptonoteRoot (hashPair sha3) hashes = .some root := by
  by_cases two : 2 ≤ hashes.length
  · have power := largestPowerOfTwo_eq two
    obtain ⟨root, isHash, isRoot⟩ := hashAt_root (length_fullLevel _ some) power.ge
      fun j x => hashAt_lowest two power
    exact ⟨root, by rw [treeHash_eq two, isHash]; rfl, isRoot⟩
  · match hashes with
    | [x] => exact ⟨x, rfl, by simp [cryptonoteRoot, fullLevel, root?]⟩
    | _ :: _ :: _ => exact absurd (by simp) two

end Root

/-- For each number of hashes there is one tree, with each position once and in order, whose root
`tree_hash` computes from any hashes, with any hash function; it is the root of the definition. -/
theorem treeHash_construction (n : Nat) (some : 0 < n) :
    ∃ tree : LeafTree Nat, tree.leaves = List.range n ∧
      ∀ (sha3 : List UInt8 → Hash) (hashes : List Hash), hashes.length = n →
        treeHash sha3 hashes = .ok (.some (tree.fold (hashPair sha3) fun j => hashes.getD j 0)) ∧
        treeHash sha3 hashes = .ok (cryptonoteRoot (hashPair sha3) hashes) := by
  have nonempty : (List.range n).map LeafTree.leaf ≠ [] := by simp [Nat.pos_iff_ne_zero.mp some]
  obtain ⟨tree, isTree, leaves⟩ := leaves_root? (length_fullLevel .node nonempty)
  refine ⟨tree, ?_, ?_⟩
  · rw [leaves, fullLevel, flatMap_append, flatMap_leaves_pairUp, ← flatMap_append]
    simp [flatMap_map, LeafTree.leaves]
  · rintro sha3 hashes rfl
    obtain ⟨root, isHash, isRoot⟩ := @treeHash_root sha3 hashes (length_pos_iff.mp some)
    have read : (List.range hashes.length).map (fun j => hashes.getD j 0) = hashes := by
      apply ext_getElem (by simp)
      intro j _ inside
      simp [inside]
    have folded : cryptonoteRoot (hashPair sha3) hashes =
        .some (tree.fold (hashPair sha3) fun j => hashes.getD j 0) := by
      have mapped := @map_cryptonoteRoot _ _ .node (hashPair sha3)
        (LeafTree.fold (hashPair sha3) fun j => hashes.getD j 0) (fun _ _ => rfl)
        ((List.range hashes.length).map LeafTree.leaf)
      rw [map_map, Function.comp_def] at mapped
      simp only [LeafTree.fold, read] at mapped
      rw [← mapped, cryptonoteRoot, isTree]
      rfl
    exact ⟨by rw [isHash, ← isRoot, folded], by rw [isHash, isRoot]⟩

theorem treeHash_construction_three :
    treeHash (fun _ => 7) [1, 2, 3] = .ok (cryptonoteRoot (hashPair fun _ => 7) [1, 2, 3]) := by
  obtain ⟨_, -, computed⟩ := treeHash_construction 3 (by decide)
  exact (computed _ [1, 2, 3] rfl).2

end Memero
