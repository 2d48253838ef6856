import Memero.Blockchain.Windows

/-!
# Difficulty of an alternative block

The difficulty of a new alternative block is computed from the same window of ancestors as
the difficulty the main chain would compute for it, but with the height of the current
main chain in place of the block's own. The two agree unless the bootstrap rule or the
64-bit truncation applies to one of the two heights and not to the other.
-/

namespace Memero

open List Nat Word

namespace ChainTables

/-! ## Reading a window -/

theorem readRange_getBlockInfo {α : Type} {db : ChainTables} (read : BlockInfo → α)
    {offset count : Nat} (known : offset + count ≤ db.blockInfo.length) :
    readRange (fun height => (db.getBlockInfo height).map read) offset count =
      .ok (((db.blockInfo.map read).drop offset).take count) := by
  induction count generalizing offset with
  | zero => simp [readRange, pure, Except.pure]
  | succ count ih =>
    have here : offset < (db.blockInfo.map read).length := by
      rw [length_map]
      omega
    have rest := @ih (offset + 1) (by omega)
    have info : db.blockInfo[offset]? = some (db.blockInfo[offset]) :=
      getElem?_eq_getElem (by omega)
    unfold readRange at rest ⊢
    rw [range'_succ, mapM_cons, rest, drop_eq_getElem_cons here]
    simp [getBlockInfo, info, Except.map, bind, Except.bind, pure, Except.pure]

section

variable {db : ChainTables} {offset count : Nat} (known : offset + count ≤ db.blockInfo.length)
include known

theorem readRange_timestamps :
    readRange db.getBlockTimestamp offset count =
      .ok (((db.blockInfo.map (·.timestamp)).drop offset).take count) :=
  readRange_getBlockInfo (·.timestamp) known

theorem readRange_difficulties :
    readRange db.getBlockCumulativeDifficulty offset count =
      .ok (((db.blockInfo.map (·.diff)).drop offset).take count) :=
  readRange_getBlockInfo (·.diff) known

end

/-! ## Ancestors of an alternative block -/

/-- `ancestry` has as its main chain the ancestors of a new alternative block of `db`: the
lowest `fork` blocks of the main chain, then the alternative chain. -/
structure IsAncestry (db : ChainTables) (fork : Nat) (altChain : List BlockExtendedInfo)
    (ancestry : ChainTables) : Prop where
  shared : 1 ≤ fork
  bounded : fork ≤ db.height
  heights : ∀ (index : Nat) (bei : BlockExtendedInfo), altChain[index]? = some bei →
    bei.height = fork + index
  alignedMain : db.blockInfo.length = db.blocks.length
  alignedAncestry : ancestry.blockInfo.length = ancestry.blocks.length
  timestamps : ancestry.blockInfo.map (·.timestamp) =
    (db.blockInfo.map (·.timestamp)).take fork ++ altChain.map (·.bl.timestamp)
  difficulties : ancestry.blockInfo.map (·.diff) =
    (db.blockInfo.map (·.diff)).take fork ++ altChain.map (·.cumulativeDifficulty)

variable {db ancestry : ChainTables} {fork : Nat} {altChain : List BlockExtendedInfo}

theorem IsAncestry.height (ancestors : db.IsAncestry fork altChain ancestry) :
    ancestry.height = fork + altChain.length := by
  have lengths := congrArg List.length ancestors.timestamps
  have bounded := ancestors.bounded
  have aligned := ancestors.alignedMain
  simp only [length_map, length_append, length_take, ancestors.alignedAncestry] at lengths
  unfold ChainTables.height at *
  omega

/-- The first height of the difficulty window of a chain. -/
def windowStart (height : Nat) : Nat :=
  if height ≤ difficultyBlocksCount then 1 else height - difficultyBlocksCount

variable {height fork value : Nat} {timestamps difficulties : List Nat}

theorem windowDifficulty_eq {offset count : Nat} {rest : List BlockExtendedInfo}
    (known : offset + count ≤ db.blockInfo.length) :
    db.windowDifficulty offset count rest height =
      liftDifficulty (nextDifficulty
        (((db.blockInfo.map (·.timestamp)).drop offset).take count ++ rest.map (·.bl.timestamp))
        (((db.blockInfo.map (·.diff)).drop offset).take count ++
          rest.map (·.cumulativeDifficulty)) height) := by
  unfold windowDifficulty
  rw [readRange_timestamps known, readRange_difficulties known]
  rfl

theorem getDifficultyForNextBlock_eq (aligned : db.blockInfo.length = db.blocks.length)
    (nonempty : 1 ≤ db.height) :
    db.getDifficultyForNextBlock 0 =
      liftDifficulty (nextDifficulty
        ((db.blockInfo.map (·.timestamp)).drop (windowStart db.height))
        ((db.blockInfo.map (·.diff)).drop (windowStart db.height)) db.height) := by
  have known : db.blockInfo.length = db.height := aligned
  have start : (if db.height - min db.height difficultyBlocksCount = 0 then 1
      else db.height - min db.height difficultyBlocksCount) = windowStart db.height := by
    unfold windowStart
    split <;> split <;> omega
  have bounded : windowStart db.height ≤ db.height := by
    unfold windowStart
    split <;> omega
  unfold getDifficultyForNextBlock
  simp only [ne_eq, start]
  rw [windowDifficulty_eq (by omega), take_of_length_le (by simp; omega),
    take_of_length_le (by simp; omega)]
  simp

/-- The part of the window that lies on the main chain, and the alternative chain after
it, are the ancestors from the start of the window. -/
theorem take_drop_append {α : Type} {main alternative : List α} {start : Nat}
    (bounded : start ≤ fork) (long : fork ≤ main.length) :
    (main.drop start).take (fork - start) ++ alternative =
      (main.take fork ++ alternative).drop start := by
  rw [drop_append_of_le_length (by rw [length_take]; omega), drop_take]

theorem getNextDifficultyForAlternativeChain_eq
    (ancestors : db.IsAncestry fork altChain ancestry) :
    db.getNextDifficultyForAlternativeChain 0 altChain ancestry.height =
      liftDifficulty (nextDifficulty
        ((ancestry.blockInfo.map (·.timestamp)).drop (windowStart ancestry.height))
        ((ancestry.blockInfo.map (·.diff)).drop (windowStart ancestry.height))
        db.height) := by
  have height := ancestors.height
  have shared := ancestors.shared
  have known : fork ≤ db.blockInfo.length := by
    rw [ancestors.alignedMain]
    exact ancestors.bounded
  rw [ancestors.timestamps, ancestors.difficulties, height]
  unfold getNextDifficultyForAlternativeChain
  rw [if_neg (by simp)]
  by_cases short : altChain.length < difficultyBlocksCount
  · have stop : (altChain.head?.map (·.height)).getD (fork + altChain.length) = fork := by
      cases altChain with
      | nil => simp
      | cons first rest => simpa using ancestors.heights 0 first rfl
    have start : (if fork - min (difficultyBlocksCount - altChain.length) fork = 0 then 1
        else fork - min (difficultyBlocksCount - altChain.length) fork) =
          windowStart (fork + altChain.length) := by
      unfold windowStart
      split <;> split <;> omega
    have bounded : windowStart (fork + altChain.length) ≤ fork := by
      unfold windowStart
      split <;> omega
    simp only [short, if_true, stop, start]
    rw [windowDifficulty_eq (by omega), take_drop_append bounded (by simpa using known),
      take_drop_append bounded (by simpa using known)]
  · have start : windowStart (fork + altChain.length) =
        fork + (altChain.length - difficultyBlocksCount) := by
      unfold windowStart
      split <;> omega
    have dropped : ∀ {α : Type} (main alternative : List α), fork ≤ main.length →
        (main.take fork ++ alternative).drop
            (fork + (altChain.length - difficultyBlocksCount)) =
          alternative.drop (altChain.length - difficultyBlocksCount) := by
      intro α main alternative long
      rw [drop_append, drop_eq_nil_of_le (by rw [length_take]; omega),
        List.length_take, Nat.min_eq_left long, Nat.add_sub_cancel_left, List.nil_append]
    rw [if_neg short, windowDifficulty_eq (by simp), start, dropped _ _ (by simpa using known),
      dropped _ _ (by simpa using known)]
    simp

theorem getBlockCumulativeDifficulty_eq_ok {difficulty : Nat} :
    db.getBlockCumulativeDifficulty height = .ok difficulty ↔
      (db.blockInfo.map (·.diff))[height]? = some difficulty := by
  unfold getBlockCumulativeDifficulty getBlockInfo
  rw [getElem?_map]
  cases db.blockInfo[height]? <;> simp [Except.map]

theorem alternativeCumulativeDifficulty_eq
    (ancestors : db.IsAncestry fork altChain ancestry) (current : Nat) :
    ∃ total, db.alternativeCumulativeDifficulty altChain (ancestry.height - 1) current =
        .ok total ∧ ancestry.mainCumulativeDifficulty current = .ok total := by
  have height := ancestors.height
  have shared := ancestors.shared
  have known : fork ≤ (db.blockInfo.map (·.diff)).length := by
    rw [length_map, ancestors.alignedMain]
    exact ancestors.bounded
  have taken : ((db.blockInfo.map (·.diff)).take fork).length = fork := by
    rw [length_take]
    omega
  have previous : ∀ {difficulty : Nat},
      ((db.blockInfo.map (·.diff)).take fork ++
        altChain.map (·.cumulativeDifficulty))[ancestry.height - 1]? = some difficulty →
      ancestry.mainCumulativeDifficulty current = .ok (add 128 current difficulty) := by
    intro difficulty found
    rw [← ancestors.difficulties] at found
    unfold mainCumulativeDifficulty
    rw [if_neg (by omega), getBlockCumulativeDifficulty_eq_ok.mpr found]
    rfl
  unfold alternativeCumulativeDifficulty
  cases last : altChain.getLast? with
  | none =>
    rw [getLast?_eq_none_iff] at last
    subst last
    obtain ⟨difficulty, found⟩ : ∃ difficulty,
        (db.blockInfo.map (·.diff))[fork - 1]? = some difficulty :=
      ⟨_, getElem?_eq_getElem (by omega)⟩
    have here : ancestry.height - 1 = fork - 1 := by simp [height]
    refine ⟨add 128 current difficulty, ?_, previous ?_⟩
    · rw [here, getBlockCumulativeDifficulty_eq_ok.mpr found]
      rfl
    · rw [here, getElem?_append_left (by omega), getElem?_take_of_lt (by omega)]
      exact found
  | some bei =>
    refine ⟨add 128 current bei.cumulativeDifficulty, rfl, previous ?_⟩
    have nonempty : 0 < altChain.length := by
      cases altChain with
      | nil => simp at last
      | cons first rest => simp
    rw [getElem?_append_right (by omega), taken, getElem?_map,
      show ancestry.height - 1 - fork = altChain.length - 1 by omega,
      ← getLast?_eq_getElem?, last]
    rfl

/-! ## When the two difficulties agree -/

/-- The heights of the main chain and of the new block fall under the same rule of
`next_difficulty`, or the window happens to give the same value under both. -/
def SameDifficultyRule (mainHeight height : Nat) (timestamps difficulties : List Nat) :
    Prop :=
  (mainHeight < lwmaStartHeight ∧ height < lwmaStartHeight) ∨
  (lwmaStartHeight ≤ mainHeight ∧ lwmaStartHeight ≤ height ∧
    0 < nextDifficultyPure timestamps difficulties height ∧
    ((mainHeight < overflowUntilHeight ↔ height < overflowUntilHeight) ∨
      scaledAverageDifficulty difficulties < 2 ^ 64)) ∨
  (lwmaStartHeight ≤ mainHeight ∧ height + 1 = lwmaStartHeight ∧
    nextDifficultyPure timestamps difficulties mainHeight = bootstrapDifficulty) ∨
  (mainHeight < lwmaStartHeight ∧ lwmaStartHeight ≤ height ∧
    nextDifficultyPure timestamps difficulties height = bootstrapDifficulty)

theorem divisor_pos (window : timestamps.length = difficultyBlocksCount) :
    0 < wrap 64 (200 * weightedSolveTimes timestamps) := by
  have upper := weightedSolveTimes_le window
  have lower := minWeight_le_weightedSolveTimes timestamps
  have positive : 0 < minWeight := by decide
  rw [wrap_of_lt (by omega)]
  omega

theorem nextDifficultyPure_of_lt (early : height < overflowUntilHeight) :
    nextDifficultyPure timestamps difficulties height =
      wrap 64 (scaledAverageDifficulty difficulties) /
        wrap 64 (200 * weightedSolveTimes timestamps) := by
  have bounded : wrap 64 (scaledAverageDifficulty difficulties) /
      wrap 64 (200 * weightedSolveTimes timestamps) ≤ 2 ^ 128 - 1 := by
    have cut : wrap 64 (scaledAverageDifficulty difficulties) < 2 ^ 64 := wrap_lt _
    have divided := div_le_self (wrap 64 (scaledAverageDifficulty difficulties))
      (wrap 64 (200 * weightedSolveTimes timestamps))
    omega
  simp only [nextDifficultyPure, early, if_true, bounded]

theorem nextDifficultyPure_of_le (late : overflowUntilHeight ≤ height) :
    nextDifficultyPure timestamps difficulties height =
      if scaledAverageDifficulty difficulties /
          wrap 64 (200 * weightedSolveTimes timestamps) ≤ 2 ^ 128 - 1 then
        scaledAverageDifficulty difficulties /
          wrap 64 (200 * weightedSolveTimes timestamps)
      else 0 := by
  simp only [nextDifficultyPure, not_lt.mpr late, if_false]

/-- On the two sides of the truncation height the window gives the same difficulty, if it
gives one at all, exactly when nothing is truncated. -/
theorem nextDifficultyPure_early_eq_late {early late : Nat}
    (window : timestamps.length = difficultyBlocksCount) (before : early < overflowUntilHeight)
    (after : overflowUntilHeight ≤ late)
    (positive : 0 < nextDifficultyPure timestamps difficulties early ∨ 0 < nextDifficultyPure timestamps difficulties late) :
    nextDifficultyPure timestamps difficulties early =
        nextDifficultyPure timestamps difficulties late ↔
      scaledAverageDifficulty difficulties < 2 ^ 64 := by
  have quotient := wrap_div_eq_iff (scaledAverageDifficulty difficulties)
    (divisor_pos window) (le_of_lt (wrap_lt _))
  rw [nextDifficultyPure_of_lt before, nextDifficultyPure_of_le after] at positive ⊢
  by_cases small : scaledAverageDifficulty difficulties /
      wrap 64 (200 * weightedSolveTimes timestamps) ≤ 2 ^ 128 - 1
  · rw [if_pos small]
    exact quotient
  · rw [if_neg small] at positive ⊢
    constructor
    · intro equal
      omega
    · intro fits
      have divided := div_le_self (scaledAverageDifficulty difficulties)
        (wrap 64 (200 * weightedSolveTimes timestamps))
      omega

theorem nextDifficultyPure_eq_iff (difficulties : List Nat) (mainHeight height : Nat)
    (window : timestamps.length = difficultyBlocksCount)
    (positive : 0 < nextDifficultyPure timestamps difficulties height) :
    nextDifficultyPure timestamps difficulties mainHeight =
        nextDifficultyPure timestamps difficulties height ↔
      (mainHeight < overflowUntilHeight ↔ height < overflowUntilHeight) ∨
        scaledAverageDifficulty difficulties < 2 ^ 64 := by
  by_cases first : mainHeight < overflowUntilHeight <;>
    by_cases second : height < overflowUntilHeight
  · simp [nextDifficultyPure_of_lt, first, second]
  · simp [first, second, nextDifficultyPure_early_eq_late window first
      (Nat.le_of_not_lt second) (.inr positive)]
  · rw [eq_comm, nextDifficultyPure_early_eq_late window second (Nat.le_of_not_lt first)
      (.inl positive)]
    simp [first, second]
  · simp [nextDifficultyPure_of_le, Nat.le_of_not_lt, first, second]

theorem liftDifficulty_eq_ok {result : Except DifficultyError Nat} :
    liftDifficulty result = .ok value ↔ result = .ok value := by
  cases result <;> simp [liftDifficulty]

section

variable (sizes : timestamps.length = difficulties.length)
include sizes

theorem nextDifficulty_of_lt (positive : 1 ≤ height) (early : height < lwmaStartHeight) :
    nextDifficulty timestamps difficulties height = .ok bootstrapDifficulty := by
  simp [nextDifficulty, sizes, one_le_iff_ne_zero.mp positive, early]

theorem nextDifficulty_eq_ok_of_le (late : lwmaStartHeight ≤ height) :
    nextDifficulty timestamps difficulties height = .ok value ↔
      timestamps.length = difficultyBlocksCount ∧
        0 < nextDifficultyPure timestamps difficulties height ∧
        nextDifficultyPure timestamps difficulties height = value := by
  have nonzero : height ≠ 0 := by
    have : lwmaStartHeight = 147 := rfl
    omega
  simp only [nextDifficulty, sizes, ne_eq, not_true_eq_false, if_false, nonzero, not_lt.mpr late]
  split
  · simp_all
  · split <;> simp_all

theorem exists_nextDifficulty_iff {mainHeight : Nat}
    (window : timestamps.length = difficultyBlocksCount ↔ lwmaStartHeight ≤ height + 1)
    (mainPositive : 1 ≤ mainHeight) (positive : 1 ≤ height) :
    (∃ value, nextDifficulty timestamps difficulties mainHeight = .ok value ∧
        nextDifficulty timestamps difficulties height = .ok value) ↔
      SameDifficultyRule mainHeight height timestamps difficulties := by
  have bootstrap : 0 < bootstrapDifficulty := by decide
  unfold SameDifficultyRule
  by_cases mainEarly : mainHeight < lwmaStartHeight <;>
    by_cases early : height < lwmaStartHeight
  · simp [nextDifficulty_of_lt sizes, *]
  · have late := Nat.le_of_not_lt early
    simp only [nextDifficulty_of_lt sizes mainPositive mainEarly,
      nextDifficulty_eq_ok_of_le sizes late]
    grind
  · have mainLate := Nat.le_of_not_lt mainEarly
    simp only [nextDifficulty_of_lt sizes positive early,
      nextDifficulty_eq_ok_of_le sizes mainLate]
    grind
  · have late := Nat.le_of_not_lt early
    have mainLate := Nat.le_of_not_lt mainEarly
    have full := window.mpr (le_succ_of_le late)
    have agree := nextDifficultyPure_eq_iff difficulties mainHeight height full
    simp only [nextDifficulty_eq_ok_of_le sizes late, nextDifficulty_eq_ok_of_le sizes mainLate]
    grind

end

/-- A chain of blocks at the target distance, all at the bootstrap difficulty. -/
def evenChain (count : Nat) : ChainTables :=
  let coinbase : Transaction :=
    { version := 2, unlockHeight := 60, vin := [.gen 0], vout := [], extra := []
      ringct :=
        { type := .null, ecdhEncryptedData := [], outputCommits := [], fee := 0
          p := { bulletproofs := [], clsags := [], pseudoInputCommits := [] } } }
  let block : Block :=
    { majorVersion := 17, minorVersion := 17, timestamp := 0, prevId := 0, nonce := 0
      minerTx := coinbase, txHashes := [] }
  { empty with
    blocks := List.replicate count block
    blockInfo := (List.range count).map fun height =>
      { height := height, timestamp := difficultyTargetInSeconds * height, coins := 0
        weight := 0, diff := 1 + bootstrapDifficulty * height, hash := height, cumRct := 0
        longTermBlockWeight := 0 }
    blockHeights := (List.range count).map fun height => (height, height) }

theorem evenChain_isAncestry {count : Nat} (shared : 1 ≤ fork) (bounded : fork ≤ count) :
    (evenChain count).IsAncestry fork [] (evenChain fork) where
  shared := shared
  bounded := by simpa [height, evenChain] using bounded
  heights := by simp
  alignedMain := by simp [evenChain]
  alignedAncestry := by simp [evenChain]
  timestamps := by
    simp [evenChain, ← map_take, min_eq_left bounded]
  difficulties := by
    simp [evenChain, ← map_take, min_eq_left bounded]

end ChainTables

end Memero
