import Memero.Consensus.Difficulty
import Mathlib.Algebra.Order.BigOperators.Group.List
import Mathlib.Algebra.Order.Ring.Int
import Mathlib.Tactic.Ring

/-!
# The moving average over the integers

LWMA-1 computed without a word size, and how far `next_difficulty_pure` computes it. The sum of the
solve times stays small, so the only step that leaves the integers is the first one: the clock of
the window starts one target before its first timestamp, and a 64-bit word has no times before zero.
-/

namespace Memero

open List Nat Word

namespace Lwma

/-! ## The formula -/

/-- The clock of a window: a timestamp that does not advance counts as one second after the one
before it. -/
def advance (last : Int) (t : Nat) : Int :=
  if (t : Int) ≤ last then last + 1 else t

/-- The solve time of a timestamp, at least one second and at most six targets. -/
def solveTime (last : Int) (t : Nat) : Int :=
  if (t : Int) ≤ last then 1 else min (t - last) (6 * difficultyTargetInSeconds : Nat)

/-- The sum of the solve times behind a time, each times its position. -/
def weightedSum : Int → Nat → List Nat → Int
  | _, _, [] => 0
  | last, i, t :: rest => i * solveTime last t + weightedSum (advance last t) (i + 1) rest

/-- The sum of a window, whose first solve time is measured from one target before its first
timestamp. -/
def windowSum (timestamps : List Nat) : Int :=
  weightedSum ((timestamps.headD 0 : Int) - difficultyTargetInSeconds) 1 timestamps.tail

/-- The average difficulty of a window. -/
def averageDifficulty (cumulativeDifficulties : List Nat) : Int :=
  ((cumulativeDifficulties.getLastD 0 : Int) - cumulativeDifficulties.headD 0) /
    difficultyWindowInBlocks

/-- The next difficulty for a scaled average and a weighted sum. -/
def quotient (up sum : Int) : Int :=
  up / (200 * max sum minWeight)

/-- The next difficulty of a window. -/
def nextDifficulty (timestamps cumulativeDifficulties : List Nat) : Int :=
  quotient (averageDifficulty cumulativeDifficulties *
    (difficultyWindowInBlocks * (difficultyWindowInBlocks + 1) * difficultyTargetInSeconds * 99 :
      Nat)) (windowSum timestamps)

theorem solveTime_bounds (last : Int) (t : Nat) : 1 ≤ solveTime last t ∧
    solveTime last t ≤ 1800 := by
  unfold solveTime
  simp only [difficultyTargetInSeconds]
  split <;> omega

/-- The sum is at most six targets at every position. -/
theorem weightedSum_le (last : Int) (i : Nat) (timestamps : List Nat) :
    weightedSum last i timestamps ≤ 1800 * ((range' i timestamps.length).sum : Nat) := by
  induction timestamps generalizing last i with
  | nil => simp [weightedSum]
  | cons t rest ih =>
    have others := ih (advance last t) (i + 1)
    have here : i * solveTime last t ≤ i * 1800 :=
      Int.mul_le_mul_of_nonneg_left (solveTime_bounds last t).2 (Int.natCast_nonneg i)
    rw [weightedSum, length_cons, range'_succ, sum_cons]
    omega

variable {timestamps rest : List Nat} {x : LCollector} {first : Nat}

theorem windowSum_le (window : timestamps.length = difficultyBlocksCount) :
    windowSum timestamps ≤ 18792000 := by
  have bound := weightedSum_le ((timestamps.headD 0 : Int) - difficultyTargetInSeconds) 1
    timestamps.tail
  have positions : (range' 1 (difficultyBlocksCount - 1)).sum = 10440 := by decide +kernel
  rw [length_tail, window, positions] at bound
  exact bound

/-- The next difficulty lies between 16% and 998% of the average. -/
theorem nextDifficulty_bounds {cumulativeDifficulties : List Nat}
    (window : timestamps.length = difficultyBlocksCount)
    (grown : 0 ≤ averageDifficulty cumulativeDifficulties) :
    averageDifficulty cumulativeDifficulties * 16 / 100 ≤
        nextDifficulty timestamps cumulativeDifficulties ∧
      nextDifficulty timestamps cumulativeDifficulties ≤
        averageDifficulty cumulativeDifficulties * 998 / 100 := by
  have upper := windowSum_le window
  have least : (minWeight : Int) = 311040 := by decide
  unfold nextDifficulty quotient
  generalize averageDifficulty cumulativeDifficulties = average at *
  generalize windowSum timestamps = sum at *
  simp only [difficultyWindowInBlocks, difficultyTargetInSeconds, least]
  have scale : ((144 * (144 + 1) * 300 * 99 : Nat) : Int) = 620136000 := by norm_num
  rw [scale]
  have divisor : 311040 ≤ max sum 311040 ∧ max sum 311040 ≤ 18792000 := by omega
  generalize max sum 311040 = weight at *
  have positive : 0 < 200 * weight := by omega
  constructor
  · rw [Int.le_ediv_iff_mul_le positive]
    have nonneg : 0 ≤ average * 16 / 100 := Int.ediv_nonneg (by omega) (by decide)
    calc average * 16 / 100 * (200 * weight)
        ≤ average * 16 / 100 * (200 * 18792000) :=
          Int.mul_le_mul_of_nonneg_left (by omega) nonneg
      _ ≤ average * 620136000 := by omega
  · rw [Int.le_ediv_iff_mul_le (by decide)]
    have rounded : average * 620136000 / (200 * weight) * (200 * weight) ≤ average * 620136000 :=
      Int.ediv_mul_le _ (Int.ne_of_gt positive)
    have nonneg : 0 ≤ average * 620136000 / (200 * weight) :=
      Int.ediv_nonneg (by omega) (Int.le_of_lt positive)
    have smallest : average * 620136000 / (200 * weight) * (200 * 311040) ≤
        average * 620136000 / (200 * weight) * (200 * weight) :=
      Int.mul_le_mul_of_nonneg_left (by omega) nonneg
    omega

/-! ## The collector -/

/-- A step of the collector whose sum and clock stay in 64 bits. -/
theorem accumulate_eq (t : Nat) (clock : x.last + 1 < 2 ^ 64)
    (room : x.sum + 1800 * x.linearIndex < 2 ^ 64) :
    ((accumulateLinearlyWeightedTimestampDiff x t).sum : Int) =
        x.sum + x.linearIndex * solveTime x.last t ∧
      ((accumulateLinearlyWeightedTimestampDiff x t).last : Int) = advance x.last t := by
  unfold accumulateLinearlyWeightedTimestampDiff solveTime advance
  simp only [difficultyTargetInSeconds, Int.ofNat_le]
  by_cases past : t ≤ x.last
  · simp only [past, decide_true, if_true]
    have weight : wrap 64 (x.linearIndex * 1) = x.linearIndex := by
      rw [mul_one, wrap_of_lt (by omega)]
    rw [add_of_lt (by omega), add_of_lt clock]
    omega
  · simp only [past, decide_false, Bool.false_eq_true, if_false]
    have capped : x.linearIndex * min (t - x.last) 1800 ≤ x.linearIndex * 1800 :=
      mul_le_mul_left _ (min_le_right _ _)
    have weight : wrap 64 (x.linearIndex * min (t - x.last) 1800) =
        x.linearIndex * min (t - x.last) 1800 := wrap_of_lt (by omega)
    rw [weight, add_of_lt (by omega)]
    push_cast [Nat.cast_sub (Nat.le_of_not_le past)]
    simp

/-- The collector adds up the integer sum, as long as its clock does not reach the end of its
word. -/
theorem foldl_accumulate_eq (timestamps : List Nat) (clock : x.last + timestamps.length < 2 ^ 64)
    (early : ∀ t ∈ timestamps, t + timestamps.length < 2 ^ 64)
    (room : x.sum + 1800 * (timestamps.length * (x.linearIndex + timestamps.length)) < 2 ^ 64) :
    ((timestamps.foldl accumulateLinearlyWeightedTimestampDiff x).sum : Int) =
      x.sum + weightedSum x.last x.linearIndex timestamps := by
  induction timestamps generalizing x with
  | nil => simp [weightedSum]
  | cons t rest ih =>
    rw [length_cons] at clock early room
    have expanded : (rest.length + 1) * (x.linearIndex + (rest.length + 1)) =
        rest.length * (x.linearIndex + 1 + rest.length) + x.linearIndex + rest.length + 1 := by
      ring
    obtain ⟨sum, last⟩ := @accumulate_eq x t (by omega) (by omega)
    have index := accumulate_linearIndex x t
    have capped : (x.linearIndex : Int) * solveTime x.last t ≤ x.linearIndex * 1800 :=
      Int.mul_le_mul_of_nonneg_left (solveTime_bounds _ t).2 (Int.natCast_nonneg _)
    have next : (accumulateLinearlyWeightedTimestampDiff x t).last ≤ max (x.last + 1) t := by
      have : ((accumulateLinearlyWeightedTimestampDiff x t).last : Int) ≤ max (x.last + 1) t := by
        rw [last]
        unfold advance
        split <;> omega
      exact_mod_cast this
    have here := early t mem_cons_self
    rw [foldl_cons, ih, sum, last, index, weightedSum]
    · ring
    · omega
    · intro other member
      have := early other (mem_cons_of_mem _ member)
      omega
    · rw [index]
      omega

/-- A step behind all timestamps counts as one second. -/
theorem accumulate_past {t : Nat} (past : t ≤ x.last) (room : x.sum + x.linearIndex < 2 ^ 64) :
    accumulateLinearlyWeightedTimestampDiff x t =
      { linearIndex := x.linearIndex + 1
        sum := x.sum + x.linearIndex
        last := wrap 64 (x.last + 1) } := by
  unfold accumulateLinearlyWeightedTimestampDiff
  simp only [past, decide_true, if_true, mul_one]
  rw [wrap_of_lt (show x.linearIndex < 2 ^ 64 by omega), add_of_lt room]
  rfl

/-- Behind all timestamps the clock runs up to the end of its word, and on from zero. -/
theorem foldl_accumulate_past (timestamps : List Nat) (seconds : Nat)
    (clock : x.last + seconds = 2 ^ 64) (some : 0 < seconds) (short : timestamps.length ≤ seconds)
    (past : ∀ t ∈ timestamps, t ≤ x.last)
    (room : x.sum + timestamps.length * (x.linearIndex + timestamps.length) < 2 ^ 64) :
    timestamps.foldl accumulateLinearlyWeightedTimestampDiff x =
      { linearIndex := x.linearIndex + timestamps.length
        sum := x.sum + (range' x.linearIndex timestamps.length).sum
        last := wrap 64 (x.last + timestamps.length) } := by
  induction timestamps generalizing x seconds with
  | nil => simp [wrap_of_lt (show x.last < 2 ^ 64 by omega)]
  | cons t rest ih =>
    rw [length_cons] at short room
    have expanded : (rest.length + 1) * (x.linearIndex + (rest.length + 1)) =
        rest.length * (x.linearIndex + 1 + rest.length) + x.linearIndex + rest.length + 1 := by
      ring
    rw [foldl_cons, accumulate_past (past t mem_cons_self) (by omega)]
    cases rest with
    | nil => simp
    | cons next others =>
      rw [length_cons] at short
      have fits : x.last + 1 < 2 ^ 64 := by omega
      rw [wrap_of_lt fits, ih (seconds - 1)]
      · simp only [length_cons, range'_succ, sum_cons]
        congr 1
        · omega
        · omega
        · congr 1
          omega
      · dsimp only
        omega
      · omega
      · rw [length_cons]
        omega
      · intro other member
        exact le_succ_of_le (past other (mem_cons_of_mem _ member))
      · dsimp only
        omega

/-! ## The window -/

/-- The sum of a window that starts before the first target. The clock starts that many seconds
before the end of its word: up to there every solve time counts as one second, and the one behind is
measured from zero. -/
def wrappedSum (timestamps : List Nat) : Int :=
  let seconds := difficultyTargetInSeconds - timestamps.headD 0
  ((List.range' 1 (min seconds timestamps.tail.length)).sum : Nat) +
    weightedSum 0 (seconds + 1) (timestamps.tail.drop seconds)

/-- The sum that the collector computes. -/
def collectedSum (timestamps : List Nat) : Int :=
  if difficultyTargetInSeconds ≤ timestamps.headD 0 then windowSum timestamps
  else wrappedSum timestamps

variable {timestamps cumulativeDifficulties : List Nat}

section

variable (size : rest.length = difficultyWindowInBlocks)
  (clock : ∀ t ∈ first :: rest, t < 2 ^ 63 + 600)
include size clock

/-- A window that starts behind the first target is added up over the integers. -/
theorem foldl_accumulate_behind (behind : difficultyTargetInSeconds ≤ first) :
    ((rest.foldl accumulateLinearlyWeightedTimestampDiff
        { linearIndex := 1, sum := 0, last := sub 64 first difficultyTargetInSeconds }).sum :
          Int) = windowSum (first :: rest) := by
  have here := clock first mem_cons_self
  simp only [difficultyWindowInBlocks] at size
  rw [sub_of_le behind (by omega), foldl_accumulate_eq]
  · simp only [windowSum, headD_cons, tail_cons]
    rw [cast_sub behind, cast_zero, zero_add]
  · dsimp only
    omega
  · intro t member
    have := clock t (mem_cons_of_mem _ member)
    omega
  · rw [size]
    dsimp only
    omega

/-- A window that starts before it is added up by a clock that runs over the end of its word. -/
theorem foldl_accumulate_before (before : first < difficultyTargetInSeconds) :
    ((rest.foldl accumulateLinearlyWeightedTimestampDiff
        { linearIndex := 1, sum := 0, last := sub 64 first difficultyTargetInSeconds }).sum :
          Int) = wrappedSum (first :: rest) := by
  rw [sub_of_lt before (by decide)]
  simp only [wrappedSum, headD_cons, tail_cons]
  have few : difficultyTargetInSeconds - first ≤ 300 := sub_le _ _
  have some : 0 < difficultyTargetInSeconds - first := Nat.sub_pos_of_lt before
  generalize difficultyTargetInSeconds - first = seconds at few some ⊢
  simp only [difficultyWindowInBlocks] at size
  have taken : (rest.take seconds).length = min seconds rest.length := length_take
  -- up to the end of the word, and on from zero
  have start := foldl_accumulate_past (rest.take seconds) (x := ⟨1, 0, 2 ^ 64 - seconds⟩) seconds
    (by dsimp only; omega) some (by rw [taken]; omega)
    (fun t member => by
      have := clock t (mem_cons_of_mem _ (mem_of_mem_take member))
      dsimp only
      omega)
    (by
      have : (rest.take seconds).length ≤ 144 := by rw [taken]; omega
      have := Nat.mul_le_mul this (Nat.add_le_add_left this 1)
      dsimp only
      omega)
  rw [taken] at start
  conv_lhs => rw [← List.take_append_drop seconds rest, List.foldl_append, start]
  rcases Nat.lt_or_ge rest.length seconds with long | short
  · rw [drop_of_length_le (le_of_lt long)]
    simp [weightedSum]
  · rw [min_eq_left short, foldl_accumulate_eq]
    · have full : wrap 64 (2 ^ 64 - seconds + seconds) = 0 := by
        rw [Nat.sub_add_cancel (by omega)]
        decide
      rw [full, zero_add, cast_zero, add_comm 1 seconds]
    · have full : wrap 64 (2 ^ 64 - seconds + seconds) = 0 := by
        rw [Nat.sub_add_cancel (by omega)]
        decide
      dsimp only
      rw [length_drop]
      omega
    · intro t member
      have := clock t (mem_cons_of_mem _ (mem_of_mem_drop member))
      rw [length_drop]
      omega
    · have positions : (range' 1 seconds).sum ≤ seconds * seconds := by
        have bound := sum_le_card_nsmul (range' 1 seconds) seconds fun i member => by
          have := (mem_range'_1.mp member).2
          omega
        rwa [length_range', nsmul_eq_mul, cast_id] at bound
      have square := mul_le_mul (show seconds ≤ 144 by omega) (show seconds ≤ 144 by omega)
      have product := mul_le_mul (show rest.length - seconds ≤ 144 by omega)
        (show 1 + seconds + (rest.length - seconds) ≤ 145 by omega)
      rw [length_drop]
      dsimp only
      omega

end

/-- The weighted sum of a window of times that a clock of 63 bits can show. -/
theorem weightedSolveTimes_eq (window : timestamps.length = difficultyBlocksCount)
    (clock : ∀ t ∈ timestamps, t < 2 ^ 63 + 600) :
    (weightedSolveTimes timestamps : Int) = max (collectedSum timestamps) minWeight := by
  obtain ⟨first, rest, rfl⟩ : ∃ first rest, timestamps = first :: rest :=
    exists_cons_of_length_eq_add_one window
  have size : rest.length = difficultyWindowInBlocks := succ.inj window
  rw [weightedSolveTimes, cast_max]
  by_cases behind : difficultyTargetInSeconds ≤ first
  · have collected : collectedSum (first :: rest) = windowSum (first :: rest) := if_pos behind
    rw [collected, ← foldl_accumulate_behind size clock behind]
    rfl
  · have collected : collectedSum (first :: rest) = wrappedSum (first :: rest) := if_neg behind
    rw [collected, ← foldl_accumulate_before size clock (Nat.lt_of_not_le behind)]
    rfl

/-! ## The next difficulty -/

/-- A word that counts what was added between two cumulative difficulties. -/
theorem scaledAverageDifficulty_eq
    (grown : cumulativeDifficulties.headD 0 ≤ cumulativeDifficulties.getLastD 0)
    (words : cumulativeDifficulties.getLastD 0 < 2 ^ 128) :
    (scaledAverageDifficulty cumulativeDifficulties : Int) =
      averageDifficulty cumulativeDifficulties *
        (difficultyWindowInBlocks * (difficultyWindowInBlocks + 1) * difficultyTargetInSeconds * 99 :
          Nat) := by
  unfold scaledAverageDifficulty averageDifficulty
  rw [sub_of_le grown words, cast_mul, Int.natCast_ediv, cast_sub grown]

/-- `next_difficulty_pure` computes the next difficulty of the window, within 16% and 998% of the
average. -/
structure Exact (timestamps cumulativeDifficulties : List Nat) (height : Nat) : Prop where
  equal : (nextDifficultyPure timestamps cumulativeDifficulties height : Int) =
    nextDifficulty timestamps cumulativeDifficulties
  atLeast : averageDifficulty cumulativeDifficulties * 16 / 100 ≤
    nextDifficultyPure timestamps cumulativeDifficulties height
  atMost : nextDifficultyPure timestamps cumulativeDifficulties height ≤
    averageDifficulty cumulativeDifficulties * 998 / 100

/-- What `next_difficulty_pure` computes, over the integers. -/
theorem nextDifficultyPure_eq_quotient {height : Nat}
    (window : timestamps.length = difficultyBlocksCount)
    (clock : ∀ t ∈ timestamps, t < 2 ^ 63 + 600) :
    (nextDifficultyPure timestamps cumulativeDifficulties height : Int) =
      quotient (difficultyNumerator cumulativeDifficulties height) (collectedSum timestamps) := by
  rw [nextDifficultyPure_eq window, Int.natCast_ediv, cast_mul, weightedSolveTimes_eq window clock]
  rfl

/-- Cutting the numerator below the truncation height changes the quotient unless nothing is cut
off. -/
theorem quotient_difficultyNumerator_iff {height : Nat}
    (window : timestamps.length = difficultyBlocksCount)
    (clock : ∀ t ∈ timestamps, t < 2 ^ 63 + 600) :
    quotient (difficultyNumerator cumulativeDifficulties height) (collectedSum timestamps) =
        quotient (scaledAverageDifficulty cumulativeDifficulties) (collectedSum timestamps) ↔
      overflowUntilHeight ≤ height ∨ scaledAverageDifficulty cumulativeDifficulties < 2 ^ 64 := by
  have bounded := weightedSolveTimes_le window
  have least := divisor_least timestamps
  have cut := wrap_div_eq_iff (scaledAverageDifficulty cumulativeDifficulties)
    (show 0 < 200 * weightedSolveTimes timestamps by omega)
    (show 200 * weightedSolveTimes timestamps ≤ 2 ^ 64 by omega)
  have natural (up : Nat) : quotient up (collectedSum timestamps) =
      ((up / (200 * weightedSolveTimes timestamps) : Nat) : Int) := by
    rw [Int.natCast_ediv, cast_mul, weightedSolveTimes_eq window clock]
    rfl
  rw [natural, natural, Nat.cast_inj]
  unfold difficultyNumerator
  by_cases early : height < overflowUntilHeight
  · rw [if_pos early, cut]
    exact ⟨.inr, fun either => either.resolve_left (Nat.not_le_of_lt early)⟩
  · rw [if_neg early]
    exact ⟨fun _ => .inl (Nat.le_of_not_lt early), fun _ => rfl⟩

theorem nextDifficulty_neg (shrunk : cumulativeDifficulties.getLastD 0 <
    cumulativeDifficulties.headD 0) : nextDifficulty timestamps cumulativeDifficulties < 0 := by
  have average : averageDifficulty cumulativeDifficulties < 0 :=
    Int.ediv_neg_of_neg_of_pos (by omega) (by decide)
  have least : (minWeight : Int) = 311040 := by decide
  refine Int.ediv_neg_of_neg_of_pos (Int.mul_neg_of_neg_of_pos average (by decide)) ?_
  omega

/-- The window is computed exactly if its cumulative difficulties have not run over, and either it
starts behind the first target and the numerator is not cut, or the quotient is the same with the
solve times of a clock that has run over. -/
theorem exact_iff {height : Nat} (window : timestamps.length = difficultyBlocksCount)
    (clock : ∀ t ∈ timestamps, t < 2 ^ 63 + 600)
    (words : cumulativeDifficulties.getLastD 0 < 2 ^ 128) :
    Exact timestamps cumulativeDifficulties height ↔
      cumulativeDifficulties.headD 0 ≤ cumulativeDifficulties.getLastD 0 ∧
        (difficultyTargetInSeconds ≤ timestamps.headD 0 →
          overflowUntilHeight ≤ height ∨ scaledAverageDifficulty cumulativeDifficulties < 2 ^ 64) ∧
        (timestamps.headD 0 < difficultyTargetInSeconds →
          quotient (difficultyNumerator cumulativeDifficulties height) (wrappedSum timestamps) =
            quotient (scaledAverageDifficulty cumulativeDifficulties) (windowSum timestamps)) := by
  have computed := @nextDifficultyPure_eq_quotient timestamps cumulativeDifficulties height window clock
  rcases lt_or_ge (cumulativeDifficulties.getLastD 0) (cumulativeDifficulties.headD 0)
    with shrunk | grown
  · have negative := @nextDifficulty_neg timestamps cumulativeDifficulties shrunk
    constructor
    · intro exact
      have equal := exact.equal
      omega
    · rintro ⟨grown, -⟩
      omega
  · have scaled := scaledAverageDifficulty_eq grown words
    have target : nextDifficulty timestamps cumulativeDifficulties =
        quotient (scaledAverageDifficulty cumulativeDifficulties) (windowSum timestamps) := by
      rw [nextDifficulty, scaled]
    have average : 0 ≤ averageDifficulty cumulativeDifficulties :=
      Int.ediv_nonneg (by omega) (by decide)
    have bounds := @nextDifficulty_bounds timestamps cumulativeDifficulties window average
    have equal : Exact timestamps cumulativeDifficulties height ↔
        quotient (difficultyNumerator cumulativeDifficulties height) (collectedSum timestamps) =
          quotient (scaledAverageDifficulty cumulativeDifficulties) (windowSum timestamps) := by
      rw [← computed, ← target]
      refine ⟨Exact.equal, fun same => ⟨same, ?_, ?_⟩⟩
      · exact same ▸ bounds.1
      · exact same ▸ bounds.2
    rw [equal]
    by_cases behind : difficultyTargetInSeconds ≤ timestamps.headD 0
    · have collected : collectedSum timestamps = windowSum timestamps := if_pos behind
      rw [← collected, quotient_difficultyNumerator_iff window clock]
      exact ⟨fun whole => ⟨grown, fun _ => whole, fun before => absurd behind (Nat.not_le_of_lt before)⟩,
        fun conditions => conditions.2.1 behind⟩
    · have collected : collectedSum timestamps = wrappedSum timestamps := if_neg behind
      rw [collected]
      exact ⟨fun same => ⟨grown, fun early => absurd early behind, fun _ => same⟩,
        fun conditions => conditions.2.2 (Nat.lt_of_not_le behind)⟩

end Lwma

end Memero
