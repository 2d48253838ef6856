import Memero.Lib.Table

/-!
# Tables of sets

A table whose values are sets, each a list without repetition, stands for a relation between
keys and items. `Indexes` says that it holds exactly the pairs of the relation, and that no
key has an empty set. Adding and deleting a pair keeps that.
-/

namespace Table

variable {κ ι : Type} [DecidableEq κ]

/-- The set of a key, empty if it has none. -/
def members (table : Table κ (List ι)) (key : κ) : List ι :=
  (table.find key).getD []

/-- The table holds the pairs of a relation and no empty set. -/
structure Indexes (table : Table κ (List ι)) (related : κ → ι → Prop) : Prop where
  mem_members : ∀ key item, item ∈ table.members key ↔ related key item
  filled : ∀ key, table.find key ≠ some []
  distinct : ∀ key, (table.members key).Nodup

section Members

variable (table : Table κ (List ι)) (key : κ) (items : List ι)

@[simp] theorem members_set_self : (table.set key items).members key = items := by
  simp [members]

@[simp] theorem members_remove_self : (table.remove key).members key = [] := by
  simp [members]

variable {key}

theorem members_set_of_ne {other : κ} (different : other ≠ key) :
    (table.set key items).members other = table.members other := by
  rw [members, find_set_of_ne table items different, members]

theorem members_remove_of_ne {other : κ} (different : other ≠ key) :
    (table.remove key).members other = table.members other := by
  rw [members, find_remove_of_ne table different, members]

end Members

namespace Indexes

variable {table : Table κ (List ι)} {related : κ → ι → Prop}

theorem empty : Indexes ([] : Table κ (List ι)) fun _ _ => False where
  mem_members := by simp [members]
  filled := by simp
  distinct := by simp [members]

theorem congr {other : κ → ι → Prop} (indexes : table.Indexes related)
    (same : ∀ key item, related key item ↔ other key item) : table.Indexes other where
  mem_members := fun key item => (indexes.mem_members key item).trans (same key item)
  filled := indexes.filled
  distinct := indexes.distinct

variable {key : κ}

theorem members_eq_nil (indexes : table.Indexes related) (unrelated : ∀ item, ¬ related key item) :
    table.members key = [] := by
  rw [List.eq_nil_iff_forall_not_mem]
  intro item member
  exact unrelated item ((indexes.mem_members key item).mp member)

/-- Add a pair that is not there. -/
theorem insert (indexes : table.Indexes related) {item : ι} (absent : ¬ related key item) :
    (table.set key (item :: table.members key)).Indexes fun other element =>
      (other = key ∧ element = item) ∨ related other element where
  mem_members := by
    intro other element
    by_cases same : other = key
    · subst same
      simp [← indexes.mem_members]
    · simp [members_set_of_ne table _ same, indexes.mem_members, same]
  filled := by
    intro other
    by_cases same : other = key
    · subst same
      simp
    · rw [find_set_of_ne table _ same]
      exact indexes.filled other
  distinct := by
    intro other
    by_cases same : other = key
    · subst same
      rw [members_set_self, List.nodup_cons]
      exact ⟨fun member => absent ((indexes.mem_members other item).mp member),
        indexes.distinct other⟩
    · rw [members_set_of_ne table _ same]
      exact indexes.distinct other

/-- Store the set of a key again. -/
theorem refresh (indexes : table.Indexes related) (nonempty : table.members key ≠ []) :
    (table.set key (table.members key)).Indexes related := by
  have same : ∀ other, (table.set key (table.members key)).members other = table.members other := by
    intro other
    by_cases equal : other = key
    · rw [equal, members_set_self]
    · rw [members_set_of_ne table _ equal]
  refine ⟨fun other item => ?_, fun other => ?_, fun other => ?_⟩
  · rw [same, indexes.mem_members]
  · by_cases equal : other = key
    · subst equal
      simpa using nonempty
    · rw [find_set_of_ne table _ equal]
      exact indexes.filled other
  · rw [same]
    exact indexes.distinct other

variable [DecidableEq ι]

/-- Delete a pair, and the set of the key if it was the last one. -/
theorem delete (indexes : table.Indexes related) {items : List ι} (item : ι)
    (found : table.find key = some items) :
    (if items.erase item = [] then table.remove key
      else table.set key (items.erase item)).Indexes fun other element =>
        related other element ∧ ¬ (other = key ∧ element = item) := by
  have known : table.members key = items := by simp [members, found]
  have unique : items.Nodup := known ▸ indexes.distinct key
  have left : ∀ element, element ∈ items.erase item ↔ related key element ∧ element ≠ item := by
    intro element
    rw [unique.mem_erase_iff, ← indexes.mem_members, known, and_comm]
  split
  · rename_i last
    refine ⟨fun other element => ?_, fun other => ?_, fun other => ?_⟩ <;>
      by_cases same : other = key
    · subst same
      have none := left element
      rw [last] at none
      simpa using none
    · simp [members_remove_of_ne table same, indexes.mem_members, same]
    · subst same
      simp
    · rw [find_remove_of_ne table same]
      exact indexes.filled other
    · subst same
      simp
    · rw [members_remove_of_ne table same]
      exact indexes.distinct other
  · rename_i more
    refine ⟨fun other element => ?_, fun other => ?_, fun other => ?_⟩ <;>
      by_cases same : other = key
    · subst same
      rw [members_set_self, left]
      simp
    · simp [members_set_of_ne table _ same, indexes.mem_members, same]
    · subst same
      simpa using more
    · rw [find_set_of_ne table _ same]
      exact indexes.filled other
    · subst same
      rw [members_set_self]
      exact unique.erase item
    · rw [members_set_of_ne table _ same]
      exact indexes.distinct other

end Indexes

end Table
