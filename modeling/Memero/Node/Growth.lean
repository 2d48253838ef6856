import Memero.Node.EmptyBlocks

/-!
# Growth of the chain

A block can only be added if the difficulty of the next block can be computed, which fails if
the quotient of `next_difficulty` is zero. The quotient falls with the solve times, and nothing
bounds it from below: on a chain of blocks six targets apart every window has at most 33/200 of
the difficulty of the window before it, until no block can follow.
-/

namespace Memero

open List Nat ChainTables Word

open ChainTables (ofLedger)

/-! ## The difficulty of the next block -/

/-- The blocks that decide the difficulty of the next block. -/
def difficultyWindow (ledger : Ledger) : Ledger :=
  ledger.drop (ledger.length - difficultyBlocksCount)

/-- The difficulty of the window is large enough for its solve times. -/
def WindowHeavy (ledger : Ledger) : Prop :=
  200 * weightedSolveTimes ((difficultyWindow ledger).map (·.block.timestamp)) ≤
    difficultyNumerator ((difficultyWindow ledger).map (·.cumulativeDifficulty)) ledger.length

variable {ledger : Ledger} {height : Nat}

theorem difficultyWindow_length (high : lwmaStartHeight ≤ ledger.length) :
    (difficultyWindow ledger).length = difficultyBlocksCount := by
  have window : difficultyBlocksCount ≤ ledger.length := le_trans (by decide) high
  rw [difficultyWindow, List.length_drop, Nat.sub_sub_self window]

/-- The window of a chain whose blocks follow from their height. -/
theorem difficultyWindow_map {α : Type} {count : Nat} (high : lwmaStartHeight ≤ count + 1)
    (read : Entry → α) (value : Nat → α)
    (rows : ledger.map read = (List.range (count + 1)).map value) :
    (difficultyWindow ledger).map read =
      (range' (count - difficultyWindowInBlocks) difficultyBlocksCount).map value := by
  have length : ledger.length = count + 1 := by
    have sizes := congrArg List.length rows
    rwa [length_map, length_map, length_range] at sizes
  have start : count + 1 - difficultyBlocksCount = count - difficultyWindowInBlocks := by
    simp only [difficultyBlocksCount]
    omega
  have size : count + 1 - (count - difficultyWindowInBlocks) = difficultyBlocksCount := by
    simp only [lwmaStartHeight] at high ⊢
    omega
  rw [difficultyWindow, length, start, map_drop, rows, ← map_drop,
    range_eq_range', drop_range', size]
  simp

theorem getDifficultyForNextBlock_window {env : Env} (high : lwmaStartHeight ≤ ledger.length) :
    (ofLedger env ledger).getDifficultyForNextBlock 0 =
      liftDifficulty
        (if 0 < nextDifficultyPure ((difficultyWindow ledger).map (·.block.timestamp))
            ((difficultyWindow ledger).map (·.cumulativeDifficulty)) ledger.length then
          .ok (nextDifficultyPure ((difficultyWindow ledger).map (·.block.timestamp))
            ((difficultyWindow ledger).map (·.cumulativeDifficulty)) ledger.length)
        else .error .nextDifficultyOverflowed) := by
  have height : (ofLedger env ledger).height = ledger.length :=
    ofLedger_height env ledger
  have tall : difficultyBlocksCount < ledger.length := lt_of_lt_of_le (by decide) high
  have positive : 1 ≤ ledger.length := lt_of_le_of_lt (zero_le _) tall
  have start : windowStart ledger.length = ledger.length - difficultyBlocksCount :=
    if_neg (Nat.not_le_of_lt tall)
  have size := difficultyWindow_length high
  rw [getDifficultyForNextBlock_eq (ofLedger_aligned env ledger)
    (height ▸ positive), height, start,
    ofLedger_blockInfo_map env ledger _ (·.block.timestamp) fun _ _ => rfl,
    ofLedger_blockInfo_map env ledger _ (·.cumulativeDifficulty) fun _ _ => rfl,
    ← map_drop, ← map_drop]
  change liftDifficulty (nextDifficulty ((difficultyWindow ledger).map _)
    ((difficultyWindow ledger).map _) ledger.length) = _
  unfold nextDifficulty
  rw [if_neg (by simp), if_neg (Nat.ne_of_gt positive), if_neg (Nat.not_lt_of_le high),
    if_neg (by simp [size])]

/-- The weighted sum over blocks six targets apart, if it fits in 64 bits. -/
theorem foldl_accumulate_blockTime (count first : Nat) (x : LCollector)
    (apart : x.last + 6 * difficultyTargetInSeconds ≤ blockTime first)
    (fits : x.sum + 6 * difficultyTargetInSeconds * (range' x.linearIndex count).sum <
      2 ^ 64) :
    (((range' first count).map blockTime).foldl
        accumulateLinearlyWeightedTimestampDiff x).sum =
      x.sum + 6 * difficultyTargetInSeconds * (range' x.linearIndex count).sum := by
  induction count generalizing first x with
  | zero => rfl
  | succ count ih =>
    simp only [range'_succ, sum_cons, map_cons, foldl_cons] at fits ⊢
    have late : ¬ blockTime first ≤ x.last := by
      simp only [difficultyTargetInSeconds] at apart
      omega
    have step : accumulateLinearlyWeightedTimestampDiff x (blockTime first) =
        { linearIndex := x.linearIndex + 1
          sum := x.sum + x.linearIndex * (6 * difficultyTargetInSeconds)
          last := blockTime first } := by
      have capped : min (blockTime first - x.last) (6 * difficultyTargetInSeconds) =
          6 * difficultyTargetInSeconds := min_eq_right (by omega)
      have below : x.sum + x.linearIndex * (6 * difficultyTargetInSeconds) < 2 ^ 64 := by
        simp only [difficultyTargetInSeconds] at fits ⊢
        omega
      simp only [accumulateLinearlyWeightedTimestampDiff, late, decide_false,
        Bool.false_eq_true, if_false, capped]
      rw [wrap_of_lt (lt_of_le_of_lt (le_add_left _ _) below), add_of_lt below]
    rw [step, ih]
    · ring
    · exact le_of_eq (by simp only [blockTime]; ring)
    · calc _ = x.sum + 6 * difficultyTargetInSeconds * (x.linearIndex +
            (range' (x.linearIndex + 1) count).sum) := by ring
        _ < 2 ^ 64 := fits

/-- The weighted solve times of a window of such blocks. -/
theorem weightedSolveTimes_blockTime {first : Nat} (above : 0 < first)
    (small : blockTime first < 2 ^ 64) :
    weightedSolveTimes ((range' first difficultyBlocksCount).map blockTime) = 18792000 := by
  have shifted : sub 64 (blockTime first) difficultyTargetInSeconds =
      blockTime first - difficultyTargetInSeconds := by
    refine sub_of_le ?_ small
    simp only [blockTime, difficultyTargetInSeconds]
    omega
  have weights : (range' 1 difficultyWindowInBlocks).sum = 10440 := by decide +kernel
  have sum := foldl_accumulate_blockTime difficultyWindowInBlocks (first + 1)
    { linearIndex := 1
      sum := 0
      last := sub 64 (blockTime first) difficultyTargetInSeconds }
    (by
      rw [shifted]
      simp only [blockTime, difficultyTargetInSeconds]
      omega)
    (by
      rw [weights]
      exact (by decide : 0 + 6 * difficultyTargetInSeconds * 10440 < 2 ^ 64))
  rw [weights] at sum
  change max (((range' (first + 1) difficultyWindowInBlocks).map blockTime).foldl
    accumulateLinearlyWeightedTimestampDiff
      { linearIndex := 1
        sum := 0
        last := sub 64 (blockTime first) difficultyTargetInSeconds }).sum minWeight = _
  rw [sum]
  exact (by decide : max (0 + 6 * difficultyTargetInSeconds * 10440) minWeight = 18792000)

/-- The cumulative difficulties of a chain of blocks six targets apart. -/
def slowWork : Nat → Nat
  | 0 => 1
  | height + 1 =>
    slowWork height +
      if height + 1 < lwmaStartHeight then bootstrapDifficulty
      else (slowWork height - slowWork (height - difficultyWindowInBlocks)) /
        difficultyWindowInBlocks * 33 / 200
termination_by height => height

/-- The difficulty of the block that follows the one at a height. -/
def slowDifficulty (height : Nat) : Nat :=
  if height + 1 < lwmaStartHeight then bootstrapDifficulty
  else (slowWork height - slowWork (height - difficultyWindowInBlocks)) /
    difficultyWindowInBlocks * 33 / 200

theorem slowWork_succ (height : Nat) :
    slowWork (height + 1) = slowWork height + slowDifficulty height := by
  rw [slowWork]
  rfl

theorem slowWork_le_add (start count : Nat) : slowWork start ≤ slowWork (start + count) := by
  induction count with
  | zero => exact le_refl _
  | succ count ih =>
    rw [← add_assoc, slowWork_succ]
    exact le_add_right_of_le ih

theorem slowWork_add_le {start count bound : Nat}
    (light : ∀ height, start ≤ height → height < start + count → slowDifficulty height ≤ bound) :
    slowWork (start + count) ≤ slowWork start + count * bound := by
  induction count with
  | zero => simp
  | succ count ih =>
    have lower := ih fun height above below => light height above (by omega)
    have top := light (start + count) (le_add_right _ _) (by omega)
    rw [← add_assoc, slowWork_succ, succ_mul]
    omega

/-- A block has at most 33/200 of the largest difficulty of its window. -/
theorem slowDifficulty_le_of_window {bound : Nat} (high : lwmaStartHeight ≤ height + 1)
    (light : ∀ other, height - difficultyWindowInBlocks ≤ other → other < height → slowDifficulty other ≤ bound) :
    slowDifficulty height ≤ bound * 33 / 200 := by
  have window : height - difficultyWindowInBlocks + difficultyWindowInBlocks = height := by
    simp only [lwmaStartHeight] at high ⊢
    omega
  have grown := @slowWork_add_le (height - difficultyWindowInBlocks) difficultyWindowInBlocks bound
  rw [window] at grown
  have lighter := grown light
  have average : (slowWork height - slowWork (height - difficultyWindowInBlocks)) /
      difficultyWindowInBlocks ≤ bound := by
    refine Nat.div_le_of_le_mul ?_
    omega
  rw [slowDifficulty, if_neg (Nat.not_lt_of_le high)]
  exact Nat.div_le_div_right (Nat.mul_le_mul_right 33 average)

theorem slowDifficulty_le_bootstrap (height : Nat) :
    slowDifficulty height ≤ bootstrapDifficulty := by
  induction height using Nat.strongRecOn with
  | ind height ih =>
    rcases lt_or_ge (height + 1) lwmaStartHeight with low | high
    · exact le_of_eq (if_pos low)
    · exact le_trans (slowDifficulty_le_of_window high fun other _ below => ih other below)
        (by decide)

/-- The largest difficulty after a number of windows. -/
def slowBound : Nat → Nat
  | 0 => bootstrapDifficulty
  | windows + 1 => slowBound windows * 33 / 200

theorem slowDifficulty_le_slowBound (windows : Nat)
    (late : lwmaStartHeight + difficultyWindowInBlocks * windows ≤ height) :
    slowDifficulty height ≤ slowBound windows := by
  induction windows generalizing height with
  | zero => exact slowDifficulty_le_bootstrap height
  | succ windows ih =>
    rw [mul_succ] at late
    refine slowDifficulty_le_of_window (by omega) fun other above _ => ih ?_
    omega

/-- After eight windows nothing is left. -/
theorem slowDifficulty_exhausted : ∃ height ≤ 1299, slowDifficulty height = 0 := by
  refine ⟨1299, le_refl _, eq_zero_of_le_zero ?_⟩
  exact le_trans (slowDifficulty_le_slowBound 8 (by decide)) (by decide)

theorem slowWork_lt (low : height ≤ 1299) : slowWork height < 2 ^ 64 := by
  have bounded := @slowWork_add_le 0 height bootstrapDifficulty fun other _ _ =>
    slowDifficulty_le_bootstrap other
  have value : bootstrapDifficulty = 1048576 := by decide
  have first : slowWork 0 = 1 := by rw [slowWork]
  rw [zero_add, value] at bounded
  omega

/-- The numerator over a window of such blocks is not cut. -/
theorem slowNumerator {count : Nat} (high : lwmaStartHeight ≤ count + 1) (low : count ≤ 1299) :
    difficultyNumerator
        ((range' (count - difficultyWindowInBlocks) difficultyBlocksCount).map slowWork)
          (count + 1) =
      (slowWork count - slowWork (count - difficultyWindowInBlocks)) /
        difficultyWindowInBlocks * 620136000 := by
  have window : count - difficultyWindowInBlocks + difficultyWindowInBlocks = count := by
    simp only [lwmaStartHeight] at high ⊢
    omega
  have lower := slowWork_le_add (count - difficultyWindowInBlocks) difficultyWindowInBlocks
  have upper := @slowWork_add_le (count - difficultyWindowInBlocks) difficultyWindowInBlocks
    bootstrapDifficulty fun other _ _ => slowDifficulty_le_bootstrap other
  rw [window] at lower upper
  have last : ((range' (count - difficultyWindowInBlocks) difficultyBlocksCount).map
      slowWork).getLastD 0 = slowWork count := by
    rw [show difficultyBlocksCount = difficultyWindowInBlocks + 1 from rfl, range'_concat,
      one_mul, window, map_append, map_singleton, getLastD_concat]
  have fits : slowWork count < 2 ^ 128 := lt_trans (slowWork_lt low) (by decide)
  have scaled : scaledAverageDifficulty
      ((range' (count - difficultyWindowInBlocks) difficultyBlocksCount).map slowWork) =
        (slowWork count - slowWork (count - difficultyWindowInBlocks)) /
          difficultyWindowInBlocks * 620136000 := by
    unfold scaledAverageDifficulty
    rw [last]
    change sub 128 (slowWork count) (slowWork (count - difficultyWindowInBlocks)) / _ * _ = _
    rw [sub_of_le lower fits]
    rfl
  have average : (slowWork count - slowWork (count - difficultyWindowInBlocks)) /
      difficultyWindowInBlocks ≤ bootstrapDifficulty := by
    refine Nat.div_le_of_le_mul ?_
    omega
  have small : scaledAverageDifficulty
      ((range' (count - difficultyWindowInBlocks) difficultyBlocksCount).map slowWork) <
        2 ^ 64 := by
    rw [scaled]
    exact lt_of_le_of_lt (mul_le_mul_right _ average) (by decide)
  unfold difficultyNumerator
  rw [wrap_of_lt small, ite_self, scaled]

section SlowChain

variable {env : Env} {network : Network}

/-- The difficulty that the program computes on such a chain. -/
theorem slow_getDifficultyForNextBlock {count : Nat} (low : count ≤ 1299) :
    (ofLedger env (timedLedger env network blockTime slowWork count)).getDifficultyForNextBlock 0 =
      if 0 < slowDifficulty count then .ok (slowDifficulty count)
      else .error (.difficulty .nextDifficultyOverflowed) := by
  rcases lt_or_ge (count + 1) lwmaStartHeight with short | high
  · have difficulty : slowDifficulty count = bootstrapDifficulty := if_pos short
    have some : timedLedger env network blockTime slowWork count ≠ [] := cons_ne_nil _ _
    rw [getDifficultyForNextBlock_bootstrap some (by simpa using short), difficulty]
    exact (if_pos (by decide)).symm
  · have timestamps := difficultyWindow_map high (·.block.timestamp) blockTime
      (@timedLedger_map env network blockTime slowWork _ _ _ rfl (fun _ => rfl) count)
    have difficulties := difficultyWindow_map high (·.cumulativeDifficulty) slowWork
      (@timedLedger_map env network blockTime slowWork _ _ _ (by rw [slowWork]; rfl) (fun _ => rfl) count)
    have solveTimes : weightedSolveTimes
        ((range' (count - difficultyWindowInBlocks) difficultyBlocksCount).map blockTime) =
          18792000 := by
      apply weightedSolveTimes_blockTime
      · simp only [lwmaStartHeight] at high ⊢
        omega
      · simp only [blockTime, difficultyTargetInSeconds]
        omega
    have numerator := slowNumerator high low
    rw [getDifficultyForNextBlock_window (by simpa using high), timestamps, difficulties,
      timedLedger_length, nextDifficultyPure_eq (by simp), solveTimes, numerator]
    have quotient : (slowWork count - slowWork (count - difficultyWindowInBlocks)) /
        difficultyWindowInBlocks * 620136000 / (200 * 18792000) = slowDifficulty count := by
      rw [slowDifficulty, if_neg (Nat.not_lt_of_le high),
        show 620136000 = 33 * 18792000 by decide, ← mul_assoc,
        Nat.mul_div_mul_right _ _ (by decide)]
    rw [quotient]
    split <;> rfl

end SlowChain

end Memero
