import Memero.Blockchain.Windows

/-!
# Alternative chains

`build_alt_chain`: the blocks of the alternative block table that lead from a given block
down to the main chain, with the timestamps a block on top of them is checked against. A
row of the table holds the block and its `alt_block_data_t`.
-/

namespace Memero

/-- The alternative blocks, by hash. -/
abbrev AltBlocks : Type :=
  Table Hash BlockExtendedInfo

/-- The loop of `build_alt_chain` that follows `prev_id` through the table. The loop does
not end if the links are circular; `fuel` bounds it by the size of the table. -/
def collectAltChain (altBlocks : AltBlocks) :
    Nat → Hash → List BlockExtendedInfo → Option (List BlockExtendedInfo)
  | 0, _, _ => none
  | fuel + 1, prevId, altChain =>
    match altBlocks.find prevId with
    | none => some altChain
    | some bei => collectAltChain altBlocks fuel bei.bl.prevId (bei :: altChain)

/-- The timestamps the loop collects, newest block first. -/
def altTimestamps (altChain : List BlockExtendedInfo) : List Nat :=
  (altChain.map (·.bl.timestamp)).reverse

/-- The rest of `build_alt_chain`: the chain must be attached to the main chain, and its
timestamps are completed from there; `none` stands for the result `false`. -/
def ChainTables.connectAltChain (db : ChainTables) (altChain : List BlockExtendedInfo)
    (prevId : Hash) : Except Exn (Option (List Nat)) :=
  match altChain with
  | [] =>
    if db.blockExists prevId then do
      let height ← db.getBlockHeight prevId
      let timestamps ← db.completeTimestampsVector height (altTimestamps altChain)
      return some timestamps
    else
      .ok none
  | front :: _ =>
    if db.height ≤ front.height then
      .ok none
    else if db.blockExists front.bl.prevId then do
      let hash ← db.getBlockHashFromHeight (front.height - 1)
      if hash = front.bl.prevId then
        let height ← db.getBlockHeight front.bl.prevId
        let timestamps ← db.completeTimestampsVector height (altTimestamps altChain)
        return some timestamps
      else
        return none
    else
      .ok none

/-- The main chain block an alternative chain, or a block without one, is attached to. -/
def forkBlockId (altChain : List BlockExtendedInfo) (prevId : Hash) : Hash :=
  match altChain with
  | [] => prevId
  | front :: _ => front.bl.prevId

end Memero
