import Memero.Lib.SetTable
import Mathlib.Algebra.BigOperators.Group.List.Basic
import Mathlib.Algebra.GroupWithZero.Nat

/-!
# Tables of sums

A table of numbers, with zero for a key without a row, and the sum over its rows.
-/

namespace Table

open Prod

variable {κ ν : Type} [DecidableEq κ]

/-- The number of a key, zero if it has none. -/
def sumOf (table : Table κ Nat) (key : κ) : Nat :=
  (table.find key).getD 0

/-- The sum over all rows. -/
def total (table : Table κ Nat) : Nat :=
  (table.map Prod.snd).sum

@[simp] theorem sumOf_set_self (table : Table κ Nat) (key : κ) (value : Nat) :
    (table.set key value).sumOf key = value := by
  simp [sumOf]

theorem sumOf_set_of_ne (table : Table κ Nat) {key other : κ} (value : Nat)
    (different : other ≠ key) : (table.set key value).sumOf other = table.sumOf other := by
  rw [sumOf, find_set_of_ne table value different, sumOf]

/-- A row that is set replaces the one that was there. -/
theorem total_set {table : Table κ Nat} (unique : (table.map fst).Nodup) (key : κ)
    (value : Nat) : (table.set key value).total + table.sumOf key = table.total + value := by
  have rest : table.total = table.sumOf key + (table.remove key).total := by
    cases found : table.find key with
    | none =>
      rw [remove_of_find_eq_none found, sumOf, found]
      exact (Nat.zero_add _).symm
    | some old =>
      have split := (perm_cons_remove unique (mem_of_find found)).map snd
      rw [total, split.sum_eq, sumOf, found]
      rfl
  have added : (table.set key value).total = value + (table.remove key).total := rfl
  omega

theorem keys_set (table : Table κ ν) (key : κ) (value : ν) :
    (table.set key value).map fst =
      key :: (table.map fst).filter fun other => decide (other ≠ key) := by
  rw [set, List.filter_map]
  rfl

/-- Setting a key in two tables keeps their keys the same. -/
theorem keys_set_perm {μ : Type} {table : Table κ ν} {other : Table κ μ}
    (same : (table.map fst).Perm (other.map fst)) (key : κ) (value : ν) (entry : μ) :
    ((table.set key value).map fst).Perm ((other.set key entry).map fst) := by
  rw [keys_set, keys_set]
  exact (same.filter _).cons key

/-- Setting a key that is there already adds none. -/
theorem keys_set_perm_self {table : Table κ ν} (unique : (table.map fst).Nodup) {key : κ}
    (present : key ∈ table.map fst) (value : ν) :
    ((table.set key value).map fst).Perm (table.map fst) := by
  obtain ⟨⟨_, old⟩, member, rfl⟩ := List.mem_map.mp present
  exact ((perm_cons_remove unique member).map fst).symm

end Table
