import Memero.Consensus.Lwma
import Memero.Node.Growth

/-!
# The moving average on accepted chains

Every window of an accepted chain that starts behind the first target is averaged as over the
integers, and no rule of acceptance keeps a window from starting before it. The numerator that
`next_difficulty_pure` cuts to 64 bits at low heights never has more of them on a chain whose
difficulties are its own results.
-/

namespace Memero

open List Nat ChainTables

open ChainTables (ofLedger windowStart)

section Accepted

variable {env : Env} {extra : Transaction → Prop} {network : Network} {ledger : Ledger}

/-- A block adds the difficulty of the next block to the work of the chain. -/
theorem Accepted.cumulativeDifficulty_eq {entry : Entry}
    (accepted : Accepted env extra ledger entry)
    (nonempty : ledger ≠ []) :
    ∃ difficulty,
      (ofLedger env ledger).getDifficultyForNextBlock env.fixedDifficulty = .ok difficulty ∧
        entry.cumulativeDifficulty =
          Word.add 128 difficulty ((ledger.map (·.cumulativeDifficulty)).getLastD 0) := by
  obtain ⟨difficulty, known, -, -, total⟩ := accepted.work
  refine ⟨difficulty, known, ?_⟩
  have rows := ofLedger_blockInfo_map env ledger (·.diff) (·.cumulativeDifficulty) fun _ _ => rfl
  have positive : 0 < ledger.length := length_pos_of_ne_nil nonempty
  unfold mainCumulativeDifficulty at total
  rw [ofLedger_height, if_neg (ne_of_gt positive)] at total
  unfold getBlockCumulativeDifficulty getBlockInfo at total
  have row : ((ofLedger env ledger).blockInfo.map (·.diff))[ledger.length - 1]? =
      some ((ledger.map (·.cumulativeDifficulty)).getLastD 0) := by
    rw [rows, getLastD_eq_getLast?, getLast?_eq_getElem?]
    simp [getElem?_eq_getElem (sub_lt positive one_pos)]
  rw [getElem?_map] at row
  obtain ⟨info, found, same⟩ := Option.map_eq_some_iff.mp row
  rw [found] at total
  simp only [Except.map, Except.ok.injEq] at total
  rw [← total, ← same]

/-- Cumulative difficulties are 128-bit words. -/
theorem Valid.cumulativeDifficulty_lt (valid : Valid env extra network ledger) :
    ∀ entry ∈ ledger, entry.cumulativeDifficulty < 2 ^ 128 := by
  induction valid with
  | genesis =>
    intro entry member
    rw [mem_singleton.mp member]
    exact lt_of_succ_le (by decide : 2 ≤ 2 ^ 128)
  | extend valid accepted ih =>
    intro entry member
    rcases mem_append.mp member with below | top
    · exact ih entry below
    · obtain ⟨difficulty, -, total⟩ := accepted.cumulativeDifficulty_eq valid.ne_nil
      rw [mem_singleton.mp top, total]
      exact Word.wrap_lt _

end Accepted

/-! ## Exactness -/

/-- Every block came in by a clock that shows a time in 63 bits, as a `time_t` does. -/
def OnClock (env : Env) (ledger : Ledger) : Prop :=
  ∀ height entry, 0 < height → ledger[height]? = some entry →
    ∃ now < 2 ^ 63, (ofLedger env (ledger.take height)).checkBlockTimestamp now entry.block = .ok true

theorem ChainTables.timestamp_le_of_checkBlockTimestamp {db : ChainTables} {now : Nat} {b : Block}
    (timely : db.checkBlockTimestamp now b = .ok true) :
    b.timestamp ≤ Word.add 64 now blockFutureTimeLimit := by
  unfold checkBlockTimestamp at timely
  split at timely
  · cases timely
  · rename_i reached
    exact Nat.le_of_not_lt reached

section Exactness

variable {env : Env} {extra : Transaction → Prop} {network : Network} {ledger : Ledger}

theorem Valid.timestamp_lt (valid : Valid env extra network ledger) (onClock : OnClock env ledger) :
    ∀ entry ∈ ledger, entry.block.timestamp < 2 ^ 63 + 600 := by
  intro entry member
  obtain ⟨height, found⟩ := mem_iff_getElem?.mp member
  cases height with
  | zero =>
    rw [valid.first] at found
    cases found
    exact lt_of_succ_le (by decide : 1 ≤ 2 ^ 63 + 600)
  | succ height =>
    obtain ⟨now, shown, timely⟩ := onClock _ entry (succ_pos height) found
    have reached := timestamp_le_of_checkBlockTimestamp timely
    have limit : blockFutureTimeLimit = 600 := by decide
    rw [Word.add_of_lt (by omega)] at reached
    omega

/-- The times of the blocks that decide the next difficulty. -/
def windowTimestamps (ledger : Ledger) : List Nat :=
  (difficultyWindow ledger).map (·.block.timestamp)

/-- The cumulative difficulties of the blocks that decide the next difficulty. -/
def windowDifficulties (ledger : Ledger) : List Nat :=
  (difficultyWindow ledger).map (·.cumulativeDifficulty)

end Exactness

section Timed

variable {env : Env} {network : Network} {time work : Nat → Nat} {count : Nat}

/-- An empty block comes in when the clock shows its time. -/
theorem timedLedger_onClock (rising : Rising time) (shown : time count < 2 ^ 63) :
    OnClock env (timedLedger env network time work count) := by
  intro height entry positive found
  obtain ⟨height, rfl⟩ := exists_eq_succ_of_ne_zero (ne_of_gt positive)
  rw [timedLedger, getElem?_cons_succ, getElem?_map] at found
  obtain ⟨position, listed, rfl⟩ := Option.map_eq_some_iff.mp found
  obtain ⟨low, same⟩ := List.getElem?_eq_some_iff.mp listed
  rw [length_range] at low
  rw [getElem_range] at same
  subst same
  have below : (timedLedger env network time work count).take (height + 1) =
      timedLedger env network time work height := by
    rw [timedLedger, timedLedger, take_succ_cons, ← map_take, take_range,
      min_eq_left (le_of_lt low)]
  have early : time (height + 1) < 2 ^ 63 :=
    lt_of_le_of_lt (rising.strict.monotone (succ_le_of_lt low)) shown
  refine ⟨time (height + 1), early, ?_⟩
  rw [below]
  refine timedBlock_timely rising ?_ (le_add_right _ _)
  have limit : blockFutureTimeLimit = 600 := by decide
  omega

theorem timedLedger_windowTimestamps (rising : Rising time) (high : lwmaStartHeight ≤ count + 1) :
    windowTimestamps (timedLedger env network time work count) =
      (List.range' (count - difficultyWindowInBlocks) difficultyBlocksCount).map time :=
  difficultyWindow_map high _ _ (timedLedger_map _ _ rising.zero.symm (fun _ => rfl) count)

theorem timedLedger_windowDifficulties (genesis : work 0 = 1) (high : lwmaStartHeight ≤ count + 1) :
    windowDifficulties (timedLedger env network time work count) =
      (List.range' (count - difficultyWindowInBlocks) difficultyBlocksCount).map work :=
  difficultyWindow_map high _ _ (timedLedger_map _ _ genesis.symm (fun _ => rfl) count)

end Timed

/-- Blocks six targets apart, except the first two. -/
def earlyTime (height : Nat) : Nat :=
  if height ≤ 2 then height else blockTime height

theorem earlyTime_rising : Rising earlyTime where
  zero := rfl
  strict := strictMono_nat_of_lt_succ fun height => by
    unfold earlyTime blockTime
    simp only [difficultyTargetInSeconds]
    split <;> split <;> omega

/-- The times and cumulative difficulties of the chains on which every difficulty is the result of
`next_difficulty`. -/
inductive Computed : List Nat → List Nat → Prop where
  | genesis (t : Nat) : Computed [t] [1]
  | next {timestamps works : List Nat} {t difficulty : Nat} (computed : Computed timestamps works)
      (known : nextDifficulty (timestamps.drop (windowStart timestamps.length))
        (works.drop (windowStart timestamps.length)) timestamps.length = .ok difficulty) :
      Computed (timestamps ++ [t]) (works ++ [Word.add 128 difficulty (works.getLastD 0)])

/-- A bound of the cumulative difficulty at a height: a block adds at most 319/32 of the average of
the 144 below it. -/
def workBound : Nat → Nat
  | 0 => 1
  | height + 1 => workBound height +
      if height + 1 < lwmaStartHeight then bootstrapDifficulty else workBound height * 319 / 4608

theorem workBound_mono : Monotone workBound :=
  monotone_nat_of_le_succ fun height => le_add_right (workBound height) _

/-- The bound at the last height whose numerator is cut. -/
theorem workBound_cut : workBound 277 / 144 * 620136000 < 2 ^ 64 := by
  decide +kernel

/-- Works that never fall below an earlier one, with a bound for the last. -/
structure Bounded (works : List Nat) (bound : Nat) : Prop where
  rising : ∀ work ∈ works, work ≤ works.getLastD 0
  last : works.getLastD 0 ≤ bound

variable {works : List Nat} {bound : Nat}

theorem Bounded.push {difficulty : Nat} (bounded : Bounded works bound) :
    Bounded (works ++ [difficulty + works.getLastD 0]) (bound + difficulty) where
  rising := by
    intro work member
    rw [getLastD_concat]
    rcases mem_append.mp member with below | top
    · exact le_trans (bounded.rising work below) (le_add_left _ _)
    · exact le_of_eq (mem_singleton.mp top)
  last := by
    rw [getLastD_concat, add_comm]
    exact Nat.add_le_add_right bounded.last _

theorem Bounded.mono {larger : Nat} (bounded : Bounded works bound) (above : bound ≤ larger) :
    Bounded works larger where
  rising := bounded.rising
  last := Nat.le_trans bounded.last above

/-- The numerator of a window of such works. -/
theorem Bounded.scaledAverageDifficulty_le (bounded : Bounded works bound) (words : bound < 2 ^ 128)
    (start : Nat) :
    (works.drop start).headD 0 ≤ (works.drop start).getLastD 0 ∧
      (works.drop start).getLastD 0 ≤ bound ∧
        scaledAverageDifficulty (works.drop start) ≤ works.getLastD 0 / 144 * 620136000 := by
  rcases lt_or_ge start works.length with inside | beyond
  · have nonempty : works.drop start ≠ [] := by simpa using inside
    have top : (works.drop start).getLastD 0 = works.getLastD 0 := by
      rw [getLastD_eq_getLast?, getLastD_eq_getLast?, getLast?_drop,
        if_neg (Nat.not_le_of_lt inside)]
    have head : (works.drop start).headD 0 ≤ works.getLastD 0 := by
      rw [headD_eq_head?_getD, head?_eq_some_head nonempty]
      exact bounded.rising _ (mem_of_mem_drop (head_mem nonempty))
    refine ⟨top ▸ head, top ▸ bounded.last, ?_⟩
    unfold scaledAverageDifficulty
    rw [top, Word.sub_of_le head (lt_of_le_of_lt bounded.last words)]
    exact Nat.mul_le_mul_right _ (Nat.div_le_div_right (Nat.sub_le _ _))
  · rw [drop_of_length_le beyond]
    exact ⟨le_refl _, zero_le _, zero_le _⟩

namespace Computed

variable {timestamps works : List Nat}

theorem length_pos (computed : Computed timestamps works) : 0 < timestamps.length := by
  cases computed with
  | genesis => simp
  | next => simp

/-- What the next difficulty adds to the bound. -/
theorem difficulty_le {difficulty : Nat} (positive : 0 < timestamps.length)
    (bounded : Bounded works (workBound (timestamps.length - 1)))
    (words : workBound (timestamps.length - 1) < 2 ^ 128)
    (known : nextDifficulty (timestamps.drop (windowStart timestamps.length))
      (works.drop (windowStart timestamps.length)) timestamps.length = .ok difficulty) :
    workBound (timestamps.length - 1) + difficulty ≤ workBound timestamps.length := by
  have unfolded : workBound timestamps.length = workBound (timestamps.length - 1) +
      if timestamps.length < lwmaStartHeight then bootstrapDifficulty
      else workBound (timestamps.length - 1) * 319 / 4608 := by
    obtain ⟨height, same⟩ := exists_eq_succ_of_ne_zero (ne_of_gt positive)
    rw [same]
    rfl
  rw [unfolded]
  apply Nat.add_le_add_left
  unfold nextDifficulty at known
  split at known
  · cases known
  rw [if_neg (ne_of_gt positive)] at known
  split at known
  · rename_i low
    cases known
    rw [if_pos low]
  · rename_i high
    rw [if_neg high]
    split at known
    · cases known
    rename_i window
    dsimp only at known
    split at known
    · cases known
      have quotient := nextDifficultyPure_le (not_not.mp window)
        (works.drop (windowStart timestamps.length)) timestamps.length
      have numerator := (bounded.scaledAverageDifficulty_le words
        (windowStart timestamps.length)).2.2
      have last := bounded.last
      omega
    · cases known

/-- The works of a computed chain, as long as the numerator is cut. -/
theorem bounded (computed : Computed timestamps works) (low : timestamps.length ≤ 278) :
    Bounded works (workBound (timestamps.length - 1)) := by
  induction computed with
  | genesis t => exact ⟨by simp, le_refl _⟩
  | @next timestamps works t difficulty computed known ih =>
    rw [length_append, length_singleton] at low ⊢
    have words (height : Nat) (below : height ≤ 277) : workBound height < 2 ^ 128 :=
      lt_of_le_of_lt (workBound_mono below) (by decide +kernel)
    have step := difficulty_le computed.length_pos (ih (by omega)) (words _ (by omega)) known
    have total := words timestamps.length (by omega)
    have last := (ih (by omega)).last
    rw [Word.add_of_lt (by omega)]
    exact (ih (by omega)).push.mono step

end Computed

end Memero
