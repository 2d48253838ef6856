import Mathlib.Data.List.Nodup

/-!
# Finite tables

A table is a list of keyed rows, the newest row first. Adding a row does not look for an
older one with the same key, so the caller decides what a duplicate means; removing a key
removes its newest row. Removing what was added last is therefore exact, whatever the
table held before.
-/

/-- Rows of keys and values, newest first. -/
abbrev Table (κ ν : Type) : Type :=
  List (κ × ν)

namespace Table

open List Prod

variable {κ ν μ : Type}

/-- Add a row. -/
def put (table : Table κ ν) (key : κ) (value : ν) : Table κ ν :=
  (key, value) :: table

/-- Change every value. -/
def mapValues (change : ν → μ) (table : Table κ ν) : Table κ μ :=
  table.map fun row => (row.1, change row.2)

variable {table : Table κ ν} {key : κ}
variable {row : κ × ν}
variable {value : ν} {other : κ}

@[simp] theorem mem_put : row ∈ table.put key value ↔ row = (key, value) ∨ row ∈ table := by
  simp [put]

variable (change : ν → μ)

theorem put_mapValues (table : Table κ ν) (key : κ) (value : ν) :
    (table.put key value).mapValues change = (table.mapValues change).put key (change value) :=
  rfl

theorem ne_of_mem {rest : Table κ ν} (unique : ((row :: rest).map fst).Nodup)
    (member : (key, value) ∈ rest) : row.1 ≠ key := by
  rintro rfl
  exact (nodup_cons.mp unique).1 (mem_map.mpr ⟨_, member, rfl⟩)

/-! ## Tables in the order of their keys -/

/-- Give a key a value in a table that is kept in the order of its keys. -/
def insert (less : κ → κ → Bool) (key : κ) (value : ν) : Table κ ν → Table κ ν
  | [] => [(key, value)]
  | row :: rest =>
    if less row.1 key then row :: insert less key value rest
    else if less key row.1 then (key, value) :: row :: rest
    else (key, value) :: rest

section Insert

variable {less : κ → κ → Bool} {key : κ} {value : ν} {row : κ × ν}

theorem mem_insert_self (table : Table κ ν) : (key, value) ∈ insert less key value table := by
  fun_induction insert less key value table <;> simp_all

variable {table : Table κ ν}

theorem eq_or_mem_of_mem_insert (member : row ∈ insert less key value table) :
    row = (key, value) ∨ row ∈ table := by
  fun_induction insert less key value table <;> grind

/-- The rows of other keys are kept. -/
theorem mem_insert_of_ne
    (total : ∀ {key other : κ}, less key other = false → less other key = false → key = other)
    (different : row.1 ≠ key) (member : row ∈ table) : row ∈ insert less key value table := by
  fun_induction insert less key value table <;> grind

end Insert

variable [DecidableEq κ]

/-- The value of the newest row with a key. -/
def find (table : Table κ ν) (key : κ) : Option ν :=
  (List.find? (fun row => decide (row.1 = key)) table).map Prod.snd

/-- Whether a key has a row. -/
def has (table : Table κ ν) (key : κ) : Bool :=
  (table.find key).isSome

/-- Remove the newest row with a key. -/
def erase (table : Table κ ν) (key : κ) : Table κ ν :=
  List.eraseP (fun row => decide (row.1 = key)) table

/-- Remove every row with a key. -/
def remove (table : Table κ ν) (key : κ) : Table κ ν :=
  List.filter (fun row => decide (row.1 ≠ key)) table

/-- Make a value the only one of its key. -/
def set (table : Table κ ν) (key : κ) (value : ν) : Table κ ν :=
  (table.remove key).put key value

@[simp] theorem find_nil (key : κ) : find ([] : Table κ ν) key = none := rfl

@[simp] theorem find_put_self (table : Table κ ν) (key : κ) (value : ν) :
    (table.put key value).find key = some value := by
  simp [find, put]

theorem find_put_of_ne (table : Table κ ν) (value : ν) (different : other ≠ key) :
    (table.put other value).find key = table.find key := by
  simp [find, put, different]

@[simp] theorem erase_put_self (table : Table κ ν) (key : κ) (value : ν) :
    (table.put key value).erase key = table := by
  simp [erase, put]

theorem mem_of_find (found : table.find key = some value) : (key, value) ∈ table := by
  unfold find at found
  cases row : find? (fun row => decide (row.1 = key)) table with
  | none => simp [row] at found
  | some entry =>
    rw [row] at found
    have same : entry.1 = key := by simpa using find?_some row
    have member := mem_of_find?_eq_some row
    cases found
    cases same
    exact member

theorem mem_of_mem_remove (member : row ∈ table.remove key) : row ∈ table :=
  (mem_filter.mp member).1

theorem mem_of_mem_erase (member : row ∈ table.erase key) : row ∈ table :=
  mem_of_mem_eraseP member

@[simp] theorem find_remove_self (table : Table κ ν) (key : κ) :
    (table.remove key).find key = none := by
  simp [find, remove]

theorem find_remove_of_ne (table : Table κ ν) (different : other ≠ key) :
    (table.remove key).find other = table.find other := by
  unfold find remove
  rw [find?_filter]
  congr 2
  funext row
  by_cases same : row.1 = other
  · simp [same, different]
  · simp [same]

@[simp] theorem find_set_self (table : Table κ ν) (key : κ) (value : ν) :
    (table.set key value).find key = some value :=
  find_put_self _ _ _

theorem find_set_of_ne (table : Table κ ν) (value : ν) (different : other ≠ key) :
    (table.set key value).find other = table.find other := by
  rw [set, find_put_of_ne _ _ different.symm, find_remove_of_ne _ different]

theorem eq_or_find_of_find_set {new found : ν}
    (isFound : (table.set key new).find other = some found) :
    other = key ∧ found = new ∨ table.find other = some found := by
  by_cases same : other = key
  · rw [same, find_set_self] at isFound
    exact .inl ⟨same, (Option.some.inj isFound).symm⟩
  · rw [find_set_of_ne _ _ same] at isFound
    exact .inr isFound

theorem has_eq_false : table.has key = false ↔ table.find key = none := by
  simp [has]

theorem has_eq_true : table.has key = true ↔ ∃ value, table.find key = some value := by
  simp [has, Option.isSome_iff_exists]

@[simp] theorem remove_put_self (table : Table κ ν) (key : κ) (value : ν) :
    (table.put key value).remove key = table.remove key := by
  simp [remove, put]

@[simp] theorem remove_remove_self (table : Table κ ν) (key : κ) :
    (table.remove key).remove key = table.remove key := by
  simp [remove]

@[simp] theorem set_set_self (table : Table κ ν) (key : κ) (old new : ν) :
    (table.set key old).set key new = table.set key new := by
  simp [set]

theorem find_eq_none_iff : table.find key = none ↔ key ∉ table.map fst := by
  rw [find, Option.map_eq_none_iff, find?_eq_none, mem_map]
  constructor
  · rintro different ⟨row, member, same⟩
    exact different row member (decide_eq_true same)
  · intro missing row member same
    exact missing ⟨row, member, of_decide_eq_true same⟩

theorem remove_of_find_eq_none (missing : table.find key = none) : table.remove key = table := by
  rw [remove, filter_eq_self]
  intro row member
  rw [decide_eq_true_eq]
  rintro rfl
  exact find_eq_none_iff.mp missing (mem_map_of_mem member)

/-! ## Tables with one row for each key -/

section Keys

variable {table : Table κ ν} {key : κ} {value : ν}

theorem nodup_keys_remove (unique : (table.map fst).Nodup) (key : κ) :
    ((table.remove key).map fst).Nodup :=
  unique.sublist (filter_sublist.map _)

theorem not_mem_keys_remove (table : Table κ ν) (key : κ) : key ∉ (table.remove key).map fst :=
  find_eq_none_iff.mp (find_remove_self table key)

variable (unique : (table.map fst).Nodup)
include unique

theorem nodup_keys_set (key : κ) (value : ν) : ((table.set key value).map fst).Nodup :=
  nodup_cons.mpr ⟨not_mem_keys_remove table key, nodup_keys_remove unique key⟩

/-- A row and the rest of the table. -/
theorem perm_cons_remove (member : (key, value) ∈ table) :
    table.Perm ((key, value) :: table.remove key) := by
  induction table with
  | nil => cases member
  | cons row rest ih =>
    have others := (nodup_cons.mp unique)
    rcases mem_cons.mp member with rfl | later
    · have same : remove ((key, value) :: rest) key = rest :=
        (remove_put_self rest key value).trans
          (remove_of_find_eq_none (find_eq_none_iff.mpr others.1))
      rw [same]
    · have kept : remove (row :: rest) key = row :: remove rest key := by
        simp [remove, ne_of_mem unique later]
      rw [kept]
      exact ((ih others.2 later).cons row).trans (.swap _ _ _)

theorem find_of_mem (member : (key, value) ∈ table) : table.find key = some value := by
  induction table with
  | nil => cases member
  | cons row rest ih =>
    rcases mem_cons.mp member with rfl | later
    · exact find_put_self rest key value
    · exact (find_put_of_ne rest row.2 (ne_of_mem unique later)).trans
        (ih (nodup_cons.mp unique).2 later)

end Keys

/-! ## Taking out several keys -/

/-- Remove every row whose key is listed. -/
def without (table : Table κ ν) (keys : List (Option κ)) : Table κ ν :=
  List.filter (fun row => decide (some row.1 ∉ keys)) table

variable (table : Table κ ν)

@[simp] theorem without_nil : table.without [] = table := by
  simp [without]

theorem without_cons (key : κ) (keys : List (Option κ)) :
    table.without (some key :: keys) = (table.remove key).without keys := by
  unfold without remove
  rw [filter_filter]
  congr 1
  funext row
  simp [Bool.and_comm]

/-- A row under a new key is taken out again with it. -/
theorem without_set (missing : table.find key = none) (value : ν) (keys : List (Option κ)) :
    (table.set key value).without (keys ++ [some key]) = table.without keys := by
  have others : table.without (keys ++ [some key]) = table.without keys := by
    refine filter_congr fun row member => ?_
    have different : row.1 ≠ key := by
      rintro rfl
      exact find_eq_none_iff.mp missing (mem_map_of_mem member)
    simp [different]
  rw [← others, set, remove_of_find_eq_none missing, put, without, filter_cons_of_neg (by simp),
    without]

/-! ## Changing the values -/

theorem find_mapValues (key : κ) :
    (table.mapValues change).find key = (table.find key).map change := by
  simp [find, mapValues, Function.comp_def]

theorem erase_mapValues (key : κ) :
    (table.mapValues change).erase key = (table.erase key).mapValues change := by
  simp [erase, mapValues, eraseP_map, Function.comp_def]

end Table
