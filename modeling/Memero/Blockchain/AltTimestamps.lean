import Memero.Blockchain.AltChain
import Memero.Blockchain.AltDifficulty

/-!
# Timestamp of an alternative block

An alternative block is checked against the median of the timestamps that
`build_alt_chain` collects; the main chain would check it against the median of its last
eleven ancestors and against the local clock. The collected timestamps are those of the
ancestors from `altWindowStart` up, in another order.
-/

namespace Memero

open List

/-! ## The median does not depend on the order -/

theorem median_perm {first second : List Nat} (perm : first.Perm second) :
    median first = median second := by
  have sorted : first.insertionSort (· ≤ ·) = second.insertionSort (· ≤ ·) :=
    (((perm_insertionSort _ _).trans perm).trans
      (perm_insertionSort _ _).symm).eq_of_pairwise'
      (pairwise_insertionSort _ _) (pairwise_insertionSort _ _)
  rw [median, median, sorted, perm.length_eq]

namespace ChainTables

variable {db ancestry : ChainTables} {fork : Nat} {altChain : List BlockExtendedInfo}

/-- The first ancestor whose timestamp `build_alt_chain` collects. -/
def altWindowStart (fork height : Nat) : Nat :=
  min fork (max 1 (height - timestampCheckWindow))

theorem completeTimestampsVector_eq (ancestors : db.IsAncestry fork altChain ancestry) :
    ∃ timestamps,
      db.completeTimestampsVector (fork - 1) (altTimestamps altChain) = .ok timestamps ∧
      timestamps.Perm ((ancestry.blockInfo.map (·.timestamp)).drop
        (altWindowStart fork ancestry.height)) := by
  have height := ancestors.height
  have shared := ancestors.shared
  have bounded := ancestors.bounded
  have known : db.blockInfo.length = db.height := ancestors.alignedMain
  have length : (altTimestamps altChain).length = altChain.length := by
    simp [altTimestamps]
  unfold completeTimestampsVector
  rw [ancestors.timestamps, length]
  by_cases long : timestampCheckWindow ≤ altChain.length
  · refine ⟨_, by rw [if_pos long], ?_⟩
    have start : altWindowStart fork ancestry.height = fork := by
      unfold altWindowStart
      omega
    rw [drop_left' (by simp; omega)]
    exact reverse_perm _
  · have stop : (if timestampCheckWindow - altChain.length < fork - 1 then
        fork - 1 - (timestampCheckWindow - altChain.length) else 0) + 1 =
          altWindowStart fork ancestry.height := by
      unfold altWindowStart
      split <;> omega
    have count : fork - 1 - (if timestampCheckWindow - altChain.length < fork - 1 then
        fork - 1 - (timestampCheckWindow - altChain.length) else 0) =
          fork - altWindowStart fork ancestry.height := by omega
    have low : altWindowStart fork ancestry.height ≤ fork := Nat.min_le_left _ _
    rw [if_neg long, if_neg (by omega)]
    simp only [stop, count]
    rw [readRange_timestamps (by omega)]
    refine ⟨_, rfl, ?_⟩
    rw [← take_drop_append low (by simp; omega)]
    refine (perm_append_comm).trans ?_
    exact (reverse_perm _).append (reverse_perm _)

variable {height : Nat} {timestamps : List Nat}

theorem connectAltChain_eq_some {prevId : Hash}
    (point : db.getBlockHeight (forkBlockId altChain prevId) = .ok height)
    (connected : db.connectAltChain altChain prevId = .ok (some timestamps)) :
    db.completeTimestampsVector height (altTimestamps altChain) = .ok timestamps := by
  have finish : ∀ {completed : Except Exn (List Nat)},
      (do let found ← completed; return some found : Except Exn (Option (List Nat))) =
        .ok (some timestamps) → completed = .ok timestamps := by
    intro completed result
    cases completed with
    | error exception => exact absurd result (by simp [Except.bind])
    | ok found => simpa [bind, Except.bind, pure, Except.pure] using result
  unfold connectAltChain at connected
  unfold forkBlockId at point
  cases altChain with
  | nil =>
    simp only at connected point
    split at connected
    · rw [point] at connected
      exact finish connected
    · simp at connected
  | cons front rest =>
    simp only at connected point
    split at connected
    · simp at connected
    · split at connected
      · cases read : db.getBlockHashFromHeight (front.height - 1) with
        | error exception => simp [read, bind, Except.bind] at connected
        | ok hash =>
          rw [read] at connected
          simp only [bind, Except.bind] at connected
          split at connected
          · rw [point] at connected
            exact finish connected
          · simp [pure, Except.pure] at connected
      · simp at connected

/-! ## When the two rules agree -/

/-- The block is later than the local clock allows. -/
def InFuture (now : Nat) (b : Block) : Prop :=
  Word.add 64 now blockFutureTimeLimit < b.timestamp

instance (now : Nat) (b : Block) : Decidable (InFuture now b) :=
  Nat.decLt _ _

/-- The block is earlier than the median of the ancestors from `start` up. -/
def BeforeMedian (ancestry : ChainTables) (start : Nat) (b : Block) : Prop :=
  b.timestamp < median ((ancestry.blockInfo.map (·.timestamp)).drop start)

instance (ancestry : ChainTables) (start : Nat) (b : Block) :
    Decidable (BeforeMedian ancestry start b) :=
  Nat.decLt _ _

/-- Where the two timestamp rules give the same verdict. They use the same window when the
block has at least twelve ancestors and at most eleven of them are alternative blocks;
otherwise the verdicts agree only if the timestamp is on the same side of both medians. -/
def SameTimestampVerdict (ancestry : ChainTables) (fork now : Nat) (b : Block) : Prop :=
  (InFuture now b ∧ BeforeMedian ancestry (altWindowStart fork ancestry.height) b) ∨
  (¬ InFuture now b ∧ ancestry.height < timestampCheckWindow ∧
    ¬ BeforeMedian ancestry (altWindowStart fork ancestry.height) b) ∨
  (¬ InFuture now b ∧ timestampCheckWindow < ancestry.height ∧
    ancestry.height ≤ fork + timestampCheckWindow) ∨
  (¬ InFuture now b ∧
    (ancestry.height = timestampCheckWindow ∨ fork + timestampCheckWindow < ancestry.height) ∧
    (BeforeMedian ancestry (altWindowStart fork ancestry.height) b ↔
      BeforeMedian ancestry (ancestry.height - timestampCheckWindow) b))

theorem checkBlockTimestamp_eq_ok_true
    (aligned : ancestry.blockInfo.length = ancestry.blocks.length) {now : Nat} {b : Block} :
    ancestry.checkBlockTimestamp now b = .ok true ↔
      ¬ InFuture now b ∧ (timestampCheckWindow ≤ ancestry.height →
        ¬ BeforeMedian ancestry (ancestry.height - timestampCheckWindow) b) := by
  have length : ancestry.blockInfo.length = ancestry.height := aligned
  unfold checkBlockTimestamp
  by_cases future : Word.add 64 now blockFutureTimeLimit < b.timestamp
  · simp [future, InFuture]
  · by_cases short : ancestry.height < timestampCheckWindow
    · simp [InFuture, short]
    · have window : readRange ancestry.getBlockTimestamp
          (ancestry.height - timestampCheckWindow) timestampCheckWindow =
            .ok ((ancestry.blockInfo.map (·.timestamp)).drop
              (ancestry.height - timestampCheckWindow)) := by
        rw [readRange_timestamps (by omega), take_of_length_le (by simp; omega)]
      rw [if_neg short, window]
      simp [InFuture, BeforeMedian, future, Nat.not_lt.mp short, checkBlockTimestampMedian,
        bind, Except.bind, pure, Except.pure]

/-- The window of the alternative chain is the one of the main chain. -/
theorem altWindowStart_eq (long : timestampCheckWindow < height)
    (near : height ≤ fork + timestampCheckWindow) :
    altWindowStart fork height = height - timestampCheckWindow := by
  unfold altWindowStart
  omega

theorem checkBlockTimestampMedian_iff {b : Block} (ancestors : db.IsAncestry fork altChain ancestry)
    (point : db.getBlockHeight (forkBlockId altChain b.prevId) = .ok (fork - 1))
    (connected : db.connectAltChain altChain b.prevId = .ok (some timestamps)) :
    checkBlockTimestampMedian timestamps b = true ↔
      ¬ BeforeMedian ancestry (altWindowStart fork ancestry.height) b := by
  obtain ⟨collected, completed, perm⟩ := completeTimestampsVector_eq ancestors
  rw [connectAltChain_eq_some point connected] at completed
  cases completed
  simp [checkBlockTimestampMedian, BeforeMedian, median_perm perm]

/-- A block on the block at height `parent` of an `evenChain`. -/
def childBlock (parent timestamp : Nat) : Block :=
  { majorVersion := 17, minorVersion := 17, timestamp := timestamp, prevId := parent
    nonce := 0, txHashes := []
    minerTx :=
      { version := 2, unlockHeight := parent + 61, vin := [.gen (parent + 1)], vout := []
        extra := []
        ringct :=
          { type := .null, ecdhEncryptedData := [], outputCommits := [], fee := 0
            p := { bulletproofs := [], clsags := [], pseudoInputCommits := [] } } } }

end ChainTables

end Memero
