import Memero.Lib.Table

/-!
# Keys held up to a limit

Rows of keys and limits, with a key held as long as one of its limits is ahead. Two lists of rows
agree from a time on when they hold the same keys at every later time; rows whose limit is past no
longer matter, and rows of one key may be merged when the later limit stays.
-/

namespace Limits

variable {κ : Type}

/-- A key with a limit ahead. -/
def Held (rows : Table κ Nat) (key : κ) (time : Nat) : Prop :=
  ∃ limit, (key, limit) ∈ rows ∧ time < limit

/-- The same keys are held from a time on, before the last time there is. -/
def Agree (last now : Nat) (rows others : Table κ Nat) : Prop :=
  ∀ key time, now ≤ time → time < last → (Held rows key time ↔ Held others key time)

variable {last now : Nat} {rows rows' others : Table κ Nat} {key : κ}

theorem Agree.nil : Agree last now ([] : Table κ Nat) [] := fun _ _ _ _ => Iff.rfl

section

variable (agree : Agree last now rows others)
include agree

theorem Agree.later {after : Nat} (ordered : now ≤ after) : Agree last after rows others :=
  fun key time ahead => agree key time (Nat.le_trans ordered ahead)

/-- A new row on one side, and on the other side a row in place of those of the same key with no
later limit. -/
theorem Agree.place {limit expiry : Nat} (placed : (key, limit) ∈ rows')
    (old : ∀ row ∈ rows', row = (key, limit) ∨ row ∈ rows)
    (kept : ∀ row ∈ rows, row.1 ≠ key → row ∈ rows')
    (longest : ∀ past, (key, past) ∈ rows → past ≤ expiry)
    (cut : ∀ time, time < last → (time < limit ↔ time < expiry)) :
    Agree last now rows' ((key, expiry) :: others) := by
  intro other time ahead before
  constructor
  · rintro ⟨bound, member, early⟩
    rcases old _ member with same | member
    · cases same
      exact ⟨expiry, List.mem_cons_self, (cut time before).mp early⟩
    · obtain ⟨bound, member, early⟩ := (agree other time ahead before).mp ⟨bound, member, early⟩
      exact ⟨bound, List.mem_cons_of_mem _ member, early⟩
  · rintro ⟨bound, member, early⟩
    rcases List.mem_cons.mp member with same | member
    · cases same
      exact ⟨limit, placed, (cut time before).mpr early⟩
    · obtain ⟨past, stored, early⟩ := (agree other time ahead before).mpr ⟨bound, member, early⟩
      by_cases same : other = key
      · subst same
        have placed_early := Nat.lt_of_lt_of_le early (longest past stored)
        exact ⟨limit, placed, (cut time before).mpr placed_early⟩
      · exact ⟨past, kept _ stored same, early⟩

/-- Rows past their limit can go. -/
theorem Agree.drop (old : ∀ row ∈ rows', row ∈ rows)
    (kept : ∀ row ∈ rows, now < row.2 → row ∈ rows') : Agree last now rows' others := by
  intro key time ahead before
  rw [← agree key time ahead before]
  constructor
  · rintro ⟨limit, member, early⟩
    exact ⟨limit, old _ member, early⟩
  · rintro ⟨limit, member, early⟩
    exact ⟨limit, kept _ member (Nat.lt_of_le_of_lt ahead early), early⟩

/-- A key is taken out of both. -/
theorem Agree.remove [DecidableEq κ] (key : κ) :
    Agree last now (rows.remove key) (others.remove key) := by
  have held (rows : Table κ Nat) (other : κ) (time : Nat) :
      Held (rows.remove key) other time ↔ other ≠ key ∧ Held rows other time := by
    simp only [Held, Table.remove]
    grind
  intro other time ahead before
  rw [held, held, agree other time ahead before]

end

/-- The rows on the other side are made from a list, from which those of the key are dropped. -/
theorem Agree.remove_map [DecidableEq κ] {α : Type} {items : List α} {row : α → κ × Nat}
    {stays : α → Bool} (agree : Agree last now rows (items.map row))
    (same : ∀ item ∈ items, stays item = true ↔ (row item).1 ≠ key) :
    Agree last now (rows.remove key) ((items.filter stays).map row) := by
  have dropped : (items.filter stays).map row = Table.remove (items.map row) key := by
    rw [Table.remove, List.filter_map]
    refine congrArg _ (List.filter_congr fun item member => ?_)
    rw [Bool.eq_iff_iff, same item member, Function.comp_apply, decide_eq_true_iff]
  rw [dropped]
  exact agree.remove key

end Limits
