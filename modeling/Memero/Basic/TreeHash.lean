import Memero.Basic.Bytes

/-!
# The tree hash

`math/hash/functional/tree-hash.cpp`: one hash for a list of hashes. The tree is a heap whose
root is node 1 and whose node `i` has the children `2 * i` and `2 * i + 1`. With `m` the power of
two that `n` hashes need, the first hashes hang one level higher than the others.

Two lists of one length with one tree hash are the same list, if the hash function tells apart
the pairs that were hashed: node by node, from the root down, the two trees agree.
-/

namespace Memero

open List Nat

/-- The exceptions of the functions that compute identifiers. -/
inductive HashError where
  /-- `failed to serialize object to blob` -/
  | notSerialised
  /-- `error trying to calculate prunable_hash on v1 tx` -/
  | prunableOfVersionOne
  /-- `Inconsistent transaction unprunable and blob sizes` -/
  | inconsistentSizes
  /-- `std::out_of_range` of `substr` -/
  | outOfRange
  /-- `invalid case happened in hash-at` -/
  | invalidCase
  deriving DecidableEq, Repr

/-- The loop of `largest_power_of_two`. -/
def doubleWhileBelow (x i : Nat) (positive : 0 < i) : Nat :=
  if i < x then doubleWhileBelow x (2 * i) (by omega) else i
termination_by x - i

/-- `largest_power_of_two`. -/
def largestPowerOfTwo (x : Nat) : Nat :=
  doubleWhileBelow x 2 (by decide) / 2

theorem le_doubleWhileBelow (x i : Nat) (positive : 0 < i) :
    x ≤ doubleWhileBelow x i positive ∧ i ≤ doubleWhileBelow x i positive := by
  fun_induction doubleWhileBelow x i positive with
  | case1 i positive below ih => omega
  | case2 i positive above => omega

/-- The loop stops as soon as it can, at an even number if it starts at one. -/
theorem doubleWhileBelow_spec (x i : Nat) (positive : 0 < i) (even : i % 2 = 0) :
    doubleWhileBelow x i positive % 2 = 0 ∧
      (doubleWhileBelow x i positive = i ∨ doubleWhileBelow x i positive < 2 * x) := by
  fun_induction doubleWhileBelow x i positive with
  | case1 i positive below ih =>
    obtain ⟨stays, least⟩ := ih (by omega)
    refine ⟨stays, .inr ?_⟩
    rcases least with same | least
    · omega
    · exact least
  | case2 i positive above => exact ⟨even, .inl rfl⟩

theorem le_two_mul_largestPowerOfTwo (x : Nat) : x ≤ 2 * largestPowerOfTwo x := by
  have enough := (le_doubleWhileBelow x 2 (by decide)).1
  have even := (doubleWhileBelow_spec x 2 (by decide) rfl).1
  unfold largestPowerOfTwo
  omega

theorem largestPowerOfTwo_lt {x : Nat} (two : 2 ≤ x) : largestPowerOfTwo x < x := by
  obtain ⟨even, least⟩ := doubleWhileBelow_spec x 2 (by decide) rfl
  unfold largestPowerOfTwo
  omega

section Tree

variable (sha3 : List UInt8 → Hash)

/-- The string that `hash_pair` hashes. -/
def pairBlob (x y : Hash) : List UInt8 :=
  scalarBlob x ++ scalarBlob y

/-- `hash_pair`. -/
def hashPair (x y : Hash) : Hash :=
  sha3 (pairBlob x y)

/-- The nodes with children, for `n` hashes. -/
def InnerNode (n i : Nat) : Prop :=
  (i > 0 ∧ i < largestPowerOfTwo n) ∨
    (i ≥ 3 * largestPowerOfTwo n - n ∧ i < 2 * largestPowerOfTwo n)

instance (n i : Nat) : Decidable (InnerNode n i) :=
  inferInstanceAs (Decidable (_ ∨ _))

variable {i : Nat}
variable {n : Nat} {xs ys : List Hash} {root : Hash}

theorem InnerNode.pos (inner : InnerNode n i) : 0 < i := by
  have enough := le_two_mul_largestPowerOfTwo n
  unfold InnerNode at inner
  omega

theorem InnerNode.lt (inner : InnerNode n i) : i < 2 * largestPowerOfTwo n := by
  unfold InnerNode at inner
  omega

/-- `hash_at`. The accesses to `hashes` are never out of bounds. -/
def hashAt (hashes : List Hash) (i : Nat) : Except HashError Hash :=
  if inner : InnerNode hashes.length i then do
    let x ← hashAt hashes (2 * i)
    let y ← hashAt hashes (2 * i + 1)
    return hashPair sha3 x y
  else if i ≥ largestPowerOfTwo hashes.length ∧
      i < 3 * largestPowerOfTwo hashes.length - hashes.length then
    .ok (hashes.getD (i - largestPowerOfTwo hashes.length) 0)
  else if i ≥ 6 * largestPowerOfTwo hashes.length - 2 * hashes.length ∧
      i < 4 * largestPowerOfTwo hashes.length then
    .ok (hashes.getD (i + hashes.length - 4 * largestPowerOfTwo hashes.length) 0)
  else
    .error .invalidCase
termination_by 4 * largestPowerOfTwo hashes.length - i
decreasing_by
  all_goals
    have positive := inner.pos
    have below := inner.lt
    omega

/-- `tree_hash`. -/
def treeHash (hashes : List Hash) : Except HashError (Option Hash) :=
  match hashes with
  | [] => .ok none
  | [x] => .ok (some x)
  | [x, y] => .ok (some (hashPair sha3 x y))
  | _ => return some (← hashAt sha3 hashes 1)

/-- `get_tx_tree_hash` of a list. -/
def getTxTreeHash (hashes : List Hash) : Except HashError Hash :=
  return (← treeHash sha3 hashes).getD 0

/-! ## The nodes -/

/-- The nodes of the tree for `n` hashes. -/
def TreeNode (n i : Nat) : Prop :=
  0 < i ∧ (i < 2 * largestPowerOfTwo n ∨
    (6 * largestPowerOfTwo n - 2 * n ≤ i ∧ i < 4 * largestPowerOfTwo n))

/-- Every node but the root has a parent. -/
theorem TreeNode.parent (node : TreeNode n i) (deep : 1 < i) :
    InnerNode n (i / 2) ∧ TreeNode n (i / 2) := by
  unfold TreeNode at node ⊢
  unfold InnerNode
  omega

/-- The node that carries one of the hashes. -/
def leafNode (n j : Nat) : Nat :=
  if j < 2 * largestPowerOfTwo n - n then j + largestPowerOfTwo n
  else j + 4 * largestPowerOfTwo n - n

theorem leafNode_treeNode {j : Nat} (two : 2 ≤ n) (inside : j < n) : TreeNode n (leafNode n j) := by
  have enough := le_two_mul_largestPowerOfTwo n
  unfold leafNode TreeNode
  split <;> omega

variable {hashes : List Hash}

theorem hashAt_leafNode {j : Nat} (two : 2 ≤ hashes.length) (inside : j < hashes.length) :
    hashAt sha3 hashes (leafNode hashes.length j) = .ok (hashes.getD j 0) := by
  have enough := le_two_mul_largestPowerOfTwo hashes.length
  unfold leafNode
  split
  · rename_i high
    unfold hashAt
    rw [dif_neg (by unfold InnerNode; omega), if_pos (by omega), Nat.add_sub_cancel]
  · rename_i low
    unfold hashAt
    rw [dif_neg (by unfold InnerNode; omega), if_neg (by omega), if_pos (by omega)]
    congr 2
    omega

variable {sha3}

theorem hashAt_inner {h : Hash} (inner : InnerNode hashes.length i)
    (found : hashAt sha3 hashes i = .ok h) :
    ∃ x y, hashAt sha3 hashes (2 * i) = .ok x ∧ hashAt sha3 hashes (2 * i + 1) = .ok y ∧
      h = hashPair sha3 x y := by
  unfold hashAt at found
  rw [dif_pos inner] at found
  cases left : hashAt sha3 hashes (2 * i) with
  | error e =>
    rw [left] at found
    cases found
  | ok x =>
    cases right : hashAt sha3 hashes (2 * i + 1) with
    | error e =>
      rw [left, right] at found
      cases found
    | ok y =>
      rw [left, right] at found
      cases found
      exact ⟨x, y, rfl, rfl, rfl⟩

theorem largestPowerOfTwo_two : largestPowerOfTwo 2 = 1 := by
  unfold largestPowerOfTwo doubleWhileBelow
  rw [if_neg (lt_irrefl 2)]

/-- The case of two hashes is not special. -/
theorem hashAt_pair (x y : Hash) : hashAt sha3 [x, y] 1 = .ok (hashPair sha3 x y) := by
  have first : leafNode 2 0 = 2 * 1 := by
    unfold leafNode
    rw [largestPowerOfTwo_two]
    rfl
  have second : leafNode 2 1 = 2 * 1 + 1 := by
    unfold leafNode
    rw [largestPowerOfTwo_two]
    rfl
  have left : hashAt sha3 [x, y] (leafNode 2 0) = .ok x :=
    hashAt_leafNode sha3 (Nat.le_refl 2) Nat.two_pos
  have right : hashAt sha3 [x, y] (leafNode 2 1) = .ok y :=
    hashAt_leafNode sha3 (Nat.le_refl 2) Nat.one_lt_two
  have inner : InnerNode [x, y].length 1 := by
    unfold InnerNode
    rw [show [x, y].length = 2 by rfl, largestPowerOfTwo_two]
    decide
  unfold hashAt
  rw [dif_pos inner, ← second, ← first, left, right]
  rfl

theorem treeHash_eq (two : 2 ≤ hashes.length) :
    treeHash sha3 hashes = (hashAt sha3 hashes 1).map some := by
  match hashes, two with
  | [x, y], _ =>
    rw [hashAt_pair]
    rfl
  | x :: y :: z :: rest, _ =>
    unfold treeHash
    cases hashAt sha3 (x :: y :: z :: rest) 1 <;> rfl

/-! ## Binding -/

/-- The strings that are hashed for a tree. -/
def treeStrings (sha3 : List UInt8 → Hash) (hashes : List Hash) : List (List UInt8) :=
  (List.range (2 * largestPowerOfTwo hashes.length)).filterMap fun i =>
    match hashAt sha3 hashes (2 * i), hashAt sha3 hashes (2 * i + 1) with
    | .ok x, .ok y => if InnerNode hashes.length i then some (pairBlob x y) else none
    | _, _ => none

theorem mem_treeStrings {x y : Hash} (inner : InnerNode hashes.length i)
    (left : hashAt sha3 hashes (2 * i) = .ok x) (right : hashAt sha3 hashes (2 * i + 1) = .ok y) :
    pairBlob x y ∈ treeStrings sha3 hashes := by
  apply mem_filterMap.mpr
  refine ⟨i, mem_range.mpr inner.lt, ?_⟩
  rw [left, right]
  exact if_pos inner

theorem hashAt_lt {h : Hash} (bounded : ∀ s, sha3 s < 256 ^ 32)
    (leaves : ∀ x ∈ hashes, x < 256 ^ 32) (found : hashAt sha3 hashes i = .ok h) :
    h < 256 ^ 32 := by
  have entry : ∀ j, hashes.getD j 0 < 256 ^ 32 := by
    intro j
    rw [getD_eq_getElem?_getD]
    cases at_j : hashes[j]? with
    | none => exact Nat.pow_pos (by decide)
    | some x => exact leaves x (mem_of_getElem? at_j)
  by_cases inner : InnerNode hashes.length i
  · obtain ⟨x, y, -, -, rfl⟩ := hashAt_inner inner found
    exact bounded _
  · unfold hashAt at found
    rw [dif_neg inner] at found
    split at found
    · cases found
      exact entry _
    · split at found
      · cases found
        exact entry _
      · cases found

theorem scalarBlob_length (x : Nat) : (scalarBlob x).length = 32 :=
  littleEndian_length 32 x

theorem scalarBlob_inj {x y : Nat} (left : x < 256 ^ 32) (right : y < 256 ^ 32)
    (same : scalarBlob x = scalarBlob y) : x = y := by
  have back := ofBigEndian_littleEndian left
  rw [show littleEndian 32 x = littleEndian 32 y from same, ofBigEndian_littleEndian right] at back
  exact back.symm

theorem scalarBlob_append_inj {x y : Nat} {left right : List UInt8} (first : x < 256 ^ 32)
    (second : y < 256 ^ 32) (same : scalarBlob x ++ left = scalarBlob y ++ right) :
    x = y ∧ left = right := by
  obtain ⟨head, rest⟩ := append_inj same (by rw [scalarBlob_length, scalarBlob_length])
  exact ⟨scalarBlob_inj first second head, rest⟩

/-- From the root down, the trees of two lists with one tree hash agree. -/
theorem hashAt_agree (bounded : ∀ s, sha3 s < 256 ^ 32) (left : ∀ x ∈ xs, x < 256 ^ 32)
    (right : ∀ y ∈ ys, y < 256 ^ 32) (length : xs.length = ys.length)
    (apart : ∀ s ∈ treeStrings sha3 xs, ∀ t ∈ treeStrings sha3 ys, sha3 s = sha3 t → s = t)
    (leftRoot : hashAt sha3 xs 1 = .ok root) (rightRoot : hashAt sha3 ys 1 = .ok root) (i : Nat)
    (node : TreeNode xs.length i) : ∃ h, hashAt sha3 xs i = .ok h ∧ hashAt sha3 ys i = .ok h := by
  induction i using Nat.strongRecOn with
  | ind i ih =>
    by_cases top : i = 1
    · rw [top]
      exact ⟨root, leftRoot, rightRoot⟩
    · have deep : 1 < i := by
        have positive := node.1
        omega
      obtain ⟨inner, parent⟩ := node.parent deep
      obtain ⟨h, inLeft, inRight⟩ := ih (i / 2) (by omega) parent
      obtain ⟨x, y, leftX, leftY, made⟩ := hashAt_inner inner inLeft
      obtain ⟨z, w, rightZ, rightW, alsoMade⟩ := hashAt_inner (length ▸ inner) inRight
      have same := apart _ (mem_treeStrings inner leftX leftY) _
        (mem_treeStrings (length ▸ inner) rightZ rightW) (made.symm.trans alsoMade)
      obtain ⟨rfl, rest⟩ := scalarBlob_append_inj (hashAt_lt bounded left leftX)
        (hashAt_lt bounded right rightZ) same
      have last := scalarBlob_inj (hashAt_lt bounded left leftY)
        (hashAt_lt bounded right rightW) rest
      rcases mod_two_eq_zero_or_one i with even | odd
      · rw [show i = 2 * (i / 2) by omega]
        exact ⟨x, leftX, rightZ⟩
      · rw [show i = 2 * (i / 2) + 1 by omega]
        exact ⟨y, leftY, last ▸ rightW⟩

theorem getTxTreeHash_eq (two : 2 ≤ hashes.length) :
    getTxTreeHash sha3 hashes = hashAt sha3 hashes 1 := by
  unfold getTxTreeHash
  rw [treeHash_eq two]
  cases hashAt sha3 hashes 1 <;> rfl

/-- The tree hash of a list of known length determines the list. -/
theorem eq_of_getTxTreeHash (bounded : ∀ s, sha3 s < 256 ^ 32) (left : ∀ x ∈ xs, x < 256 ^ 32)
    (right : ∀ y ∈ ys, y < 256 ^ 32) (length : xs.length = ys.length)
    (apart : ∀ s ∈ treeStrings sha3 xs, ∀ t ∈ treeStrings sha3 ys, sha3 s = sha3 t → s = t)
    (leftRoot : getTxTreeHash sha3 xs = .ok root) (rightRoot : getTxTreeHash sha3 ys = .ok root) :
    xs = ys := by
  by_cases two : 2 ≤ xs.length
  · rw [getTxTreeHash_eq two] at leftRoot
    rw [getTxTreeHash_eq (length ▸ two)] at rightRoot
    apply ext_getElem length
    intro j inLeft inRight
    obtain ⟨h, atLeft, atRight⟩ := hashAt_agree bounded left right length apart leftRoot rightRoot
      _ (leafNode_treeNode two inLeft)
    rw [hashAt_leafNode sha3 two inLeft] at atLeft
    rw [length, hashAt_leafNode sha3 (length ▸ two) inRight] at atRight
    have same := Except.ok.inj (atLeft.trans atRight.symm)
    rwa [getD_eq_getElem?_getD, getD_eq_getElem?_getD, getElem?_eq_getElem inLeft,
      getElem?_eq_getElem inRight] at same
  · match xs, ys, length with
    | [], [], _ => rfl
    | [x], [y], _ =>
      cases leftRoot
      cases rightRoot
      rfl
    | _ :: _ :: _, _, _ => exact absurd (by simp) two

theorem getTxTreeHash_lt (bounded : ∀ s, sha3 s < 256 ^ 32) (leaves : ∀ x ∈ hashes, x < 256 ^ 32)
    (found : getTxTreeHash sha3 hashes = .ok root) : root < 256 ^ 32 := by
  by_cases two : 2 ≤ hashes.length
  · rw [getTxTreeHash_eq two] at found
    exact hashAt_lt bounded leaves found
  · match hashes with
    | [] =>
      cases found
      exact Nat.pow_pos (by decide)
    | [x] =>
      cases found
      exact leaves _ (mem_singleton_self _)
    | _ :: _ :: _ => exact absurd (by simp) two

end Tree

end Memero
