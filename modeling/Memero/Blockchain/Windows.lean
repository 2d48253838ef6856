import Memero.Database.Tables
import Mathlib.Data.List.Sort

/-!
# Difficulty and timestamp windows

The functions of `cryptonote/core/blockchain.cpp` that read a window of recent blocks: the
difficulty of the next block of the main chain and of an alternative chain, and the two
timestamp rules. The caches of `get_difficulty_for_next_block` are filled but never used
for its result, which is computed from the database every time.
-/

namespace Memero

/-- `block_extended_info`. -/
structure BlockExtendedInfo where
  bl : Block
  height : Nat
  blockCumulativeWeight : Nat
  cumulativeDifficulty : Nat
  alreadyGeneratedCoins : Nat
  deriving DecidableEq, Repr

/-- `BLOCKCHAIN_TIMESTAMP_CHECK_WINDOW_V2`. -/
def timestampCheckWindow : Nat := 11

/-- `CRYPTONOTE_BLOCK_FUTURE_TIME_LIMIT_V2`. -/
def blockFutureTimeLimit : Nat := 300 * 2

/-- The values read at `count` heights from `offset` up. -/
def readRange {α : Type} (read : Nat → Except Exn α) (offset count : Nat) :
    Except Exn (List α) :=
  (List.range' offset count).mapM read

/-- What `next_difficulty` throws, as an exception of the node. -/
def liftDifficulty {α : Type} : Except DifficultyError α → Except Exn α
  | .ok value => .ok value
  | .error reason => .error (.difficulty reason)

namespace ChainTables

variable (db : ChainTables)

/-! ## Difficulty -/

/-- The difficulty from the blocks at `count` heights from `offset` up followed by the
blocks `rest`, for a chain of the given height. -/
def windowDifficulty (offset count : Nat) (rest : List BlockExtendedInfo) (height : Nat) :
    Except Exn Nat := do
  let timestamps ← readRange db.getBlockTimestamp offset count
  let difficulties ← readRange db.getBlockCumulativeDifficulty offset count
  liftDifficulty (nextDifficulty (timestamps ++ rest.map (·.bl.timestamp))
    (difficulties ++ rest.map (·.cumulativeDifficulty)) height)

/-- `get_difficulty_for_next_block`. -/
def getDifficultyForNextBlock (fixedDifficulty : Nat) : Except Exn Nat :=
  if fixedDifficulty ≠ 0 then
    .ok (if db.height ≠ 0 then fixedDifficulty else 1)
  else
    let start := db.height - min db.height difficultyBlocksCount
    let offset := if start = 0 then 1 else start
    db.windowDifficulty offset (db.height - offset) [] db.height

/-- `get_next_difficulty_for_alternative_chain`; only the height of the new block's
`block_extended_info` is read. -/
def getNextDifficultyForAlternativeChain (fixedDifficulty : Nat)
    (altChain : List BlockExtendedInfo) (beiHeight : Nat) : Except Exn Nat :=
  if fixedDifficulty ≠ 0 then
    .ok (if db.height ≠ 0 then fixedDifficulty else 1)
  else if altChain.length < difficultyBlocksCount then
    let stop := (altChain.head?.map (·.height)).getD beiHeight
    let count := min (difficultyBlocksCount - altChain.length) stop
    let offset := if stop - count = 0 then 1 else stop - count
    db.windowDifficulty offset (stop - offset) altChain db.height
  else
    db.windowDifficulty 0 0 (altChain.drop (altChain.length - difficultyBlocksCount)) db.height

/-- The cumulative difficulty that `handle_block_to_main_chain` stores for a new block. -/
def mainCumulativeDifficulty (currentDiffic : Nat) : Except Exn Nat :=
  if db.height = 0 then
    .ok currentDiffic
  else
    (db.getBlockCumulativeDifficulty (db.height - 1)).map (Word.add 128 currentDiffic)

/-- The cumulative difficulty that `handle_alternative_block` stores for a block on top of
the alternative chain, or on the main chain block at `prevHeight` if that is empty. -/
def alternativeCumulativeDifficulty (altChain : List BlockExtendedInfo)
    (prevHeight currentDiff : Nat) : Except Exn Nat :=
  match altChain.getLast? with
  | some last => .ok (Word.add 128 currentDiff last.cumulativeDifficulty)
  | none => (db.getBlockCumulativeDifficulty prevHeight).map (Word.add 128 currentDiff)

end ChainTables

/-! ## Timestamps -/

/-- `epee::misc_utils::median`: the element in the upper middle of the sorted list. -/
def median (values : List Nat) : Nat :=
  (values.insertionSort (· ≤ ·)).getD (values.length / 2) 0

/-- `check_block_timestamp` against a list of timestamps. -/
def checkBlockTimestampMedian (timestamps : List Nat) (b : Block) : Bool :=
  !decide (b.timestamp < median timestamps)

namespace ChainTables

variable (db : ChainTables)

/-- `check_block_timestamp` against the main chain, at local time `now`. -/
def checkBlockTimestamp (now : Nat) (b : Block) : Except Exn Bool :=
  if Word.add 64 now blockFutureTimeLimit < b.timestamp then
    .ok false
  else if db.height < timestampCheckWindow then
    .ok true
  else do
    let timestamps ← readRange db.getBlockTimestamp (db.height - timestampCheckWindow)
      timestampCheckWindow
    return checkBlockTimestampMedian timestamps b

/-- `complete_timestamps_vector`: main chain timestamps from `startTopHeight` down are
appended until the window is full; the genesis block is never reached. -/
def completeTimestampsVector (startTopHeight : Nat) (timestamps : List Nat) :
    Except Exn (List Nat) :=
  if timestampCheckWindow ≤ timestamps.length then
    .ok timestamps
  else if db.height ≤ startTopHeight then
    .ok timestamps
  else do
    let needElements := timestampCheckWindow - timestamps.length
    let stopOffset := if needElements < startTopHeight then startTopHeight - needElements else 0
    let completion ← readRange db.getBlockTimestamp (stopOffset + 1)
      (startTopHeight - stopOffset)
    return timestamps ++ completion.reverse

end ChainTables

end Memero
