import Mathlib.Data.List.Basic

/-!
# Pieces of one width

A list that is written piece by piece, all pieces of one width, and read back by their positions.
-/

variable {α : Type}

/-- The piece at a position of a list cut at every `width` items. -/
def piece (width : Nat) (items : List α) (position : Nat) : List α :=
  (items.drop (position * width)).take width

variable {width : Nat}
variable {count : Nat}

theorem length_flatMap_range {entry : Nat → List α}
    (widths : ∀ i < count, (entry i).length = width) :
    ((List.range count).flatMap entry).length = count * width := by
  induction count with
  | zero => simp
  | succ count ih =>
    rw [List.range_succ, List.flatMap_append, List.length_append,
      ih fun i below => widths i (Nat.lt_succ_of_lt below), List.flatMap_singleton,
      widths count (Nat.lt_succ_self count), Nat.succ_mul]

/-- A piece of what was written piece by piece. -/
theorem piece_flatMap {entry : Nat → List α} (widths : ∀ i < count, (entry i).length = width)
    (rest : List α) {position : Nat} (below : position < count) :
    piece width ((List.range count).flatMap entry ++ rest) position = entry position := by
  induction count generalizing rest with
  | zero => cases below
  | succ count ih =>
    have lower : ∀ i < count, (entry i).length = width :=
      fun i inside => widths i (Nat.lt_succ_of_lt inside)
    rw [List.range_succ, List.flatMap_append, List.flatMap_singleton, List.append_assoc]
    rcases Nat.lt_or_ge position count with inside | last
    · exact ih lower _ inside
    · have same : position = count := Nat.le_antisymm (Nat.le_of_lt_succ below) last
      rw [same, piece, List.drop_left' (length_flatMap_range lower),
        List.take_left' (widths count (Nat.lt_succ_self count))]

/-- A list is its pieces in order. -/
theorem flatMap_piece {items : List α} (length : items.length = count * width) :
    (List.range count).flatMap (piece width items) = items := by
  induction count generalizing items with
  | zero => simpa using (List.length_eq_zero_iff.mp (by simpa using length)).symm
  | succ count ih =>
    have front : (items.take (count * width)).length = count * width := by
      rw [List.length_take, length]
      exact Nat.min_eq_left (Nat.mul_le_mul_right _ (Nat.le_succ count))
    have lower : ∀ i ∈ List.range count,
        piece width items i = piece width (items.take (count * width)) i := by
      intro i member
      have room : i * width + width ≤ count * width := by
        rw [← Nat.succ_mul]
        exact Nat.mul_le_mul_right _ (List.mem_range.mp member)
      rw [piece, piece, List.drop_take, List.take_take, Nat.min_eq_left (by omega)]
    have last : piece width items count = items.drop (count * width) := by
      rw [piece, List.take_of_length_le]
      rw [List.length_drop, length, Nat.succ_mul]
      omega
    rw [List.range_succ, List.flatMap_append, List.flatMap_congr lower, ih front,
      List.flatMap_singleton, last, List.take_append_drop]

theorem length_piece {items : List α} {position : Nat} (length : count * width ≤ items.length)
    (below : position < count) : (piece width items position).length = width := by
  have room : position * width + width ≤ count * width := by
    rw [← Nat.succ_mul]
    exact Nat.mul_le_mul_right _ below
  rw [piece, List.length_take, List.length_drop]
  omega

/-- An item of a piece, by its position in the whole list. -/
theorem getElem?_piece (items : List α) (position : Nat) {i : Nat} (inside : i < width) :
    (piece width items position)[i]? = items[position * width + i]? := by
  rw [piece, List.getElem?_take, if_pos inside, List.getElem?_drop]
