import Memero.Lib.Word
import Mathlib.Data.List.Basic
import Mathlib.Tactic.Linarith

/-!
# Difficulty

`math/blockchain/functional/difficulty`: the linearly weighted moving average that turns a
window of timestamps and cumulative difficulties into the difficulty of the next block,
and the proof of work test. Timestamps are 64-bit words, cumulative difficulties 128-bit
words, and the weighted average is divided in 256 bits.
-/

namespace Memero

open Nat Word

/-! ## Constants -/

/-- The aimed time between two blocks, `DIFFICULTY_TARGET_IN_SECONDS`. -/
def difficultyTargetInSeconds : Nat := 300

/-- `DIFFICULTY_WINDOW_IN_BLOCKS`. -/
def difficultyWindowInBlocks : Nat := 144

/-- `DIFFICULTY_BLOCKS_COUNT`. -/
def difficultyBlocksCount : Nat := difficultyWindowInBlocks + 1

/-- `overflow_until_height`: below it the numerator is cut to 64 bits. -/
def overflowUntilHeight : Nat := 279

/-- The first height whose difficulty comes from the window. -/
def lwmaStartHeight : Nat := difficultyWindowInBlocks + 3

/-- The difficulty of every block from height one up to `lwmaStartHeight`. -/
def bootstrapDifficulty : Nat := 1 <<< 20

/-- What `next_difficulty` throws. -/
inductive DifficultyError where
  | timestampSizeMismatch
  | timestampSizeIsInvalid
  | nextDifficultyOverflowed
  deriving DecidableEq, Repr

/-! ## The weighted sum of solve times -/

/-- `L_collector`. -/
structure LCollector where
  linearIndex : Nat
  sum : Nat
  last : Nat
  deriving DecidableEq, Repr

/-- One step of the accumulation: a timestamp that does not advance counts as one second,
one that advances by more than six targets counts as six targets. -/
def accumulateLinearlyWeightedTimestampDiff (x : LCollector) (t : Nat) : LCollector :=
  let isPastSolveTime := decide (t ≤ x.last)
  let acceptedTimeDiff :=
    if isPastSolveTime then 1 else min (t - x.last) (6 * difficultyTargetInSeconds)
  let weight := Word.wrap 64 (x.linearIndex * acceptedTimeDiff)
  let acceptedTimestamp := if isPastSolveTime then Word.add 64 x.last 1 else t
  { linearIndex := x.linearIndex + 1
    sum := Word.add 64 x.sum weight
    last := acceptedTimestamp }

/-- The lower bound of the weighted sum. -/
def minWeight : Nat :=
  difficultyWindowInBlocks * difficultyWindowInBlocks * difficultyTargetInSeconds / 20

/-- `L`: the weighted sum of the solve times of a window, with its lower bound. -/
def weightedSolveTimes (timestamps : List Nat) : Nat :=
  let init : LCollector :=
    { linearIndex := 1
      sum := 0
      last := Word.sub 64 (timestamps.headD 0) difficultyTargetInSeconds }
  max (timestamps.tail.foldl accumulateLinearlyWeightedTimestampDiff init).sum minWeight

/-- `up`: the numerator of the next difficulty. -/
def scaledAverageDifficulty (cumulativeDifficulties : List Nat) : Nat :=
  let avgD := Word.sub 128 (cumulativeDifficulties.getLastD 0)
    (cumulativeDifficulties.headD 0) / difficultyWindowInBlocks
  avgD * (difficultyWindowInBlocks * (difficultyWindowInBlocks + 1) *
    difficultyTargetInSeconds * 99)

/-- `next_difficulty_pure`: zero stands for a value that does not fit in 128 bits. -/
def nextDifficultyPure (timestamps cumulativeDifficulties : List Nat) (height : Nat) :
    Nat :=
  let l200 := Word.wrap 64 (200 * weightedSolveTimes timestamps)
  let up := scaledAverageDifficulty cumulativeDifficulties
  let nextD :=
    if height < overflowUntilHeight then Word.wrap 64 up / l200 else up / l200
  if nextD ≤ 2 ^ 128 - 1 then nextD else 0

/-- `next_difficulty`. -/
def nextDifficulty (timestamps cumulativeDifficulties : List Nat) (height : Nat) :
    Except DifficultyError Nat :=
  if timestamps.length ≠ cumulativeDifficulties.length then
    .error .timestampSizeMismatch
  else if height = 0 then
    .ok 1
  else if height < lwmaStartHeight then
    .ok bootstrapDifficulty
  else if timestamps.length ≠ difficultyBlocksCount then
    .error .timestampSizeIsInvalid
  else
    let next := nextDifficultyPure timestamps cumulativeDifficulties height
    if 0 < next then .ok next else .error .nextDifficultyOverflowed

/-- `check_hash_int`, on the value of the hash read as a little-endian number. -/
def checkHash (hashInt difficulty : Nat) : Bool :=
  decide (hashInt * difficulty ≤ 2 ^ 256 - 1)

/-! ## Bounds of the weighted sum

The accumulated sum never exceeds six targets at every index, so neither it nor its
two-hundredfold leaves 64 bits, and the divisor of the next difficulty is positive. -/

theorem accumulate_linearIndex (x : LCollector) (t : Nat) :
    (accumulateLinearlyWeightedTimestampDiff x t).linearIndex = x.linearIndex + 1 := rfl

theorem accumulate_sum_le (x : LCollector) (t : Nat) :
    (accumulateLinearlyWeightedTimestampDiff x t).sum ≤
      x.sum + x.linearIndex * (6 * difficultyTargetInSeconds) := by
  have accepted : (if decide (t ≤ x.last) then 1
      else min (t - x.last) (6 * difficultyTargetInSeconds)) ≤ 6 * difficultyTargetInSeconds := by
    split
    · decide
    · exact min_le_right _ _
  calc (accumulateLinearlyWeightedTimestampDiff x t).sum
      ≤ x.sum + wrap 64 (x.linearIndex * _) := add_le _ _
    _ ≤ x.sum + x.linearIndex * _ := Nat.add_le_add_left (Word.wrap_le _) _
    _ ≤ _ := Nat.add_le_add_left (Nat.mul_le_mul_left _ accepted) _

theorem foldl_accumulate_sum_le (timestamps : List Nat) (x : LCollector) :
    2 * (timestamps.foldl accumulateLinearlyWeightedTimestampDiff x).sum ≤
      2 * x.sum + 6 * difficultyTargetInSeconds *
        (timestamps.length * (2 * x.linearIndex + timestamps.length)) := by
  induction timestamps generalizing x with
  | nil => simp
  | cons t rest ih =>
    have step := accumulate_sum_le x t
    have others := ih (accumulateLinearlyWeightedTimestampDiff x t)
    rw [accumulate_linearIndex] at others
    simp only [List.foldl_cons, List.length_cons] at *
    nlinarith

variable {timestamps : List Nat}

theorem weightedSolveTimes_le (window : timestamps.length = difficultyBlocksCount) :
    weightedSolveTimes timestamps ≤ 18921600 := by
  have bound := foldl_accumulate_sum_le timestamps.tail
    { linearIndex := 1
      sum := 0
      last := sub 64 (timestamps.headD 0) difficultyTargetInSeconds }
  rw [List.length_tail, window] at bound
  simp only [difficultyBlocksCount, difficultyWindowInBlocks, difficultyTargetInSeconds] at bound
  refine Nat.max_le.mpr ⟨?_, by decide⟩
  simp only [difficultyTargetInSeconds]
  omega

theorem minWeight_le_weightedSolveTimes (timestamps : List Nat) :
    minWeight ≤ weightedSolveTimes timestamps :=
  le_max_right _ _

/-- The divisor of the next difficulty. -/
theorem divisor_least (timestamps : List Nat) : 62208000 ≤ 200 * weightedSolveTimes timestamps := by
  have bound := minWeight_le_weightedSolveTimes timestamps
  have value : minWeight = 311040 := by decide
  omega

/-! ## When the next difficulty is positive -/

/-- The numerator of the next difficulty, as the height cuts it. -/
def difficultyNumerator (cumulativeDifficulties : List Nat) (height : Nat) : Nat :=
  if height < overflowUntilHeight then Word.wrap 64 (scaledAverageDifficulty cumulativeDifficulties)
  else scaledAverageDifficulty cumulativeDifficulties

/-- Cutting the numerator to 64 bits changes the quotient unless nothing is cut off. -/
theorem wrap_div_eq_iff (up : Nat) {divisor : Nat} (positive : 0 < divisor)
    (small : divisor ≤ 2 ^ 64) : Word.wrap 64 up / divisor = up / divisor ↔ up < 2 ^ 64 := by
  constructor
  · intro equal
    by_contra large
    have split : wrap 64 up + divisor ≤ up := by
      unfold wrap
      omega
    have larger := Nat.div_le_div_right (c := divisor) split
    rw [add_div_right _ positive] at larger
    omega
  · intro fits
    rw [wrap_of_lt fits]

theorem scaledAverageDifficulty_le (cumulativeDifficulties : List Nat) :
    scaledAverageDifficulty cumulativeDifficulties ≤ 2 ^ 128 / 144 * 620136000 := by
  have difference : sub 128 (cumulativeDifficulties.getLastD 0)
      (cumulativeDifficulties.headD 0) ≤ 2 ^ 128 := le_of_lt (wrap_lt _)
  exact Nat.mul_le_mul_right _ (Nat.div_le_div_right difference)

theorem difficultyNumerator_le (cumulativeDifficulties : List Nat) (height : Nat) :
    difficultyNumerator cumulativeDifficulties height ≤
      scaledAverageDifficulty cumulativeDifficulties := by
  unfold difficultyNumerator
  split
  · exact wrap_le _
  · exact le_refl _

/-- The divisor is not cut. -/
theorem wrap_weightedSolveTimes (window : timestamps.length = difficultyBlocksCount) :
    Word.wrap 64 (200 * weightedSolveTimes timestamps) = 200 * weightedSolveTimes timestamps := by
  have bounded := weightedSolveTimes_le window
  exact wrap_of_lt (by omega)

/-- No quotient of a numerator leaves 128 bits. -/
theorem quotient_le (cumulativeDifficulties timestamps : List Nat) :
    scaledAverageDifficulty cumulativeDifficulties / (200 * weightedSolveTimes timestamps) ≤
      2 ^ 128 - 1 :=
  calc scaledAverageDifficulty cumulativeDifficulties / (200 * weightedSolveTimes timestamps)
      ≤ 2 ^ 128 / 144 * 620136000 / (200 * weightedSolveTimes timestamps) :=
        Nat.div_le_div_right (scaledAverageDifficulty_le _)
    _ ≤ 2 ^ 128 / 144 * 620136000 / 62208000 :=
        div_le_div_left (divisor_least timestamps) (by decide)
    _ ≤ 2 ^ 128 - 1 := by decide

variable {cumulativeDifficulties : List Nat}
variable (window : timestamps.length = difficultyBlocksCount)
include window

/-- The next difficulty is the quotient, which always fits in 128 bits. -/
theorem nextDifficultyPure_eq {height : Nat} :
    nextDifficultyPure timestamps cumulativeDifficulties height =
      difficultyNumerator cumulativeDifficulties height / (200 * weightedSolveTimes timestamps) := by
  have fits : difficultyNumerator cumulativeDifficulties height /
      (200 * weightedSolveTimes timestamps) ≤ 2 ^ 128 - 1 :=
    Nat.le_trans (Nat.div_le_div_right (difficultyNumerator_le _ _)) (quotient_le _ _)
  have divided : (if height < overflowUntilHeight then
        wrap 64 (scaledAverageDifficulty cumulativeDifficulties) /
          (200 * weightedSolveTimes timestamps)
      else scaledAverageDifficulty cumulativeDifficulties / (200 * weightedSolveTimes timestamps)) =
      difficultyNumerator cumulativeDifficulties height /
        (200 * weightedSolveTimes timestamps) := by
    unfold difficultyNumerator
    split <;> rfl
  unfold nextDifficultyPure
  simp only [wrap_weightedSolveTimes window, divided]
  exact if_pos fits

theorem nextDifficultyPure_le (cumulativeDifficulties : List Nat) (height : Nat) :
    nextDifficultyPure timestamps cumulativeDifficulties height ≤
      scaledAverageDifficulty cumulativeDifficulties / 62208000 := by
  rw [nextDifficultyPure_eq window]
  exact Nat.div_le_div (difficultyNumerator_le _ _) (divisor_least timestamps) (by decide)

theorem nextDifficultyPure_pos_iff {height : Nat} :
    0 < nextDifficultyPure timestamps cumulativeDifficulties height ↔
      200 * weightedSolveTimes timestamps ≤ difficultyNumerator cumulativeDifficulties height := by
  have positive : 0 < 200 * weightedSolveTimes timestamps :=
    lt_of_lt_of_le (by decide) (divisor_least timestamps)
  rw [nextDifficultyPure_eq window, Nat.div_pos_iff]
  exact and_iff_right positive

end Memero
