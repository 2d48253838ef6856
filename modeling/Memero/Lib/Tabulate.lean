import Mathlib.Algebra.BigOperators.Intervals
import Mathlib.Data.List.Range
import Mathlib.Logic.Function.Basic

/-!
# Lists given by their entries

`table n entry` is the list of the first `n` values of a function. Operations on lists become
operations on functions.
-/

variable {α β : Type}

/-- A list given by its entries. -/
def table (n : Nat) (entry : Nat → α) : List α :=
  (List.range n).map entry

@[simp] theorem table_length (n : Nat) (entry : Nat → α) : (table n entry).length = n := by
  simp [table]

variable {n : Nat} {entry : Nat → α}

@[simp] theorem table_getElem {i : Nat} (inside : i < (table n entry).length) :
    (table n entry)[i] = entry i := by
  simp [table]

theorem table_getElem? {i : Nat} {value : α} (found : (table n entry)[i]? = some value) :
    value = entry i := by
  obtain ⟨inside, same⟩ := List.getElem?_eq_some_iff.mp found
  simpa using same.symm

theorem table_congr {other : Nat → α} (same : ∀ i < n, entry i = other i) :
    table n entry = table n other := by
  apply List.map_congr_left
  intro i member
  exact same i (List.mem_range.mp member)

/-- Every list is the table of its entries. -/
theorem eq_table (items : List α) (default : α) :
    items = table items.length fun i => items.getD i default := by
  apply List.ext_getElem
  · simp
  · intro i inside _
    simp [inside]

theorem table_succ (n : Nat) (entry : Nat → α) :
    table (n + 1) entry = entry 0 :: table n fun i => entry (i + 1) := by
  rw [table, List.range_succ_eq_map, List.map_cons, List.map_map]
  rfl

theorem table_add (n m : Nat) (entry : Nat → α) :
    table (n + m) entry = table n entry ++ table m fun i => entry (n + i) := by
  rw [table, List.range_add, List.map_append, List.map_map]
  rfl

theorem map_table (operation : α → β) (n : Nat) (entry : Nat → α) :
    (table n entry).map operation = table n fun i => operation (entry i) := by
  rw [table, List.map_map]
  rfl

theorem zip_table {m : Nat} (short : n ≤ m) (entry : Nat → α) (other : Nat → β) :
    (table n entry).zip (table m other) = table n fun i => (entry i, other i) := by
  apply List.ext_getElem
  · simp [short]
  · intro i _ _
    simp

theorem take_table {m : Nat} (short : n ≤ m) (entry : Nat → α) :
    (table m entry).take n = table n entry := by
  obtain ⟨rest, rfl⟩ := Nat.exists_eq_add_of_le short
  rw [table_add, List.take_left' (table_length n entry)]

theorem drop_table (n m : Nat) (entry : Nat → α) :
    (table m entry).drop n = table (m - n) fun i => entry (n + i) := by
  apply List.ext_getElem
  · simp
  · intro i _ _
    simp

theorem table_set (n : Nat) (entry : Nat → α) (i : Nat) (value : α) :
    (table n entry).set i value = table n (Function.update entry i value) := by
  apply List.ext_getElem
  · simp
  · intro position inside _
    rw [List.getElem_set]
    simp only [table_getElem, Function.update_apply]
    split
    · rename_i same
      rw [if_pos same.symm]
    · rename_i other
      rw [if_neg (Ne.symm other)]

/-- Tables of equal width, one behind the other. -/
theorem flatten_table (n width : Nat) (positive : 0 < width) (entry : Nat → Nat → α) :
    (table n fun j => table width (entry j)).flatten =
      table (n * width) fun i => entry (i / width) (i % width) := by
  induction n generalizing entry with
  | zero => simp [table]
  | succ n ih =>
    rw [table_succ, List.flatten_cons, ih fun j => entry (j + 1), Nat.succ_mul, Nat.add_comm,
      table_add]
    congr 1
    · apply table_congr
      intro i small
      rw [Nat.div_eq_of_lt small, Nat.mod_eq_of_lt small]
    · apply table_congr
      intro i _
      rw [Nat.add_div_left i positive, Nat.add_mod_left]

theorem table_sum {M : Type} [AddCommMonoid M] (n : Nat) (entry : Nat → M) :
    (table n entry).sum = ∑ i ∈ Finset.range n, entry i := by
  rw [table, ← List.sum_toFinset _ List.nodup_range, List.toFinset_range]
