import Memero.Node.State

/-!
# The main chain

`pop_block_from_blockchain`, `return_tx_to_pool` and `handle_block_to_main_chain` of
`cryptonote/core/blockchain.cpp`. The table `m_blocks_hash_check` is never filled and the
cached difficulty window is left out.
-/

namespace Memero

/-- The call of `add_tx` that `pop_block_from_blockchain` and `return_tx_to_pool` make, and
the one `add_new_tx` makes; a blob is as long as its transaction is heavy. -/
def poolAddTx (env : Env) (tx blob : Transaction) (id : Hash) (txRelay : RelayMethod)
    (relayed : Bool) : NodeM Bool := do
  let receiveTime ← tick env
  let lastRelayedTime ← tick env
  let uninit ← nextMemory env
  let node ← Exec.get
  onPool (addTx env node.chain node.scanTable node.batch.isSome
    { tx := tx
      blob := blob
      id := id
      txWeight := env.getTransactionWeight blob
      txRelay := txRelay
      relayed := relayed
      receiveTime := receiveTime
      lastRelayedTime := lastRelayedTime
      uninit := uninit })

/-! ## Removing the top block -/

/-- The loop of `pop_block_from_blockchain` that returns transactions to the pool. -/
def returnPopped (env : Env) : List Transaction → NodeM Unit :=
  Exec.forEach fun tx =>
    if tx.isCoinbase then
      pure ()
    else do
      let _ ← poolAddTx env tx tx (env.getTransactionHash tx) .block true
      return ()

/-- `pop_block_from_blockchain`. -/
def popBlockFromBlockchain (env : Env) : NodeM Block := do
  let node ← Exec.get
  if node.chain.height ≤ 1 then
    Exec.throw .cannotPopGenesis
  else
    let popped ← onChain (popBlock env)
    returnPopped env popped.2
    Exec.modify fun node => { node with blocksLonghashTable := [], scanTable := [] }
    onPool onBlockchainChange
    return popped.1

/-! ## Adding a block -/

/-- `add_block_as_invalid`. -/
def addBlockAsInvalid (bei : BlockExtendedInfo) (id : Hash) : NodeM Unit :=
  Exec.modify fun node =>
    if node.invalidBlocks.has id then node
    else { node with invalidBlocks := node.invalidBlocks.put id bei }

/-- The `block_extended_info` of a block that only carries the block. -/
def bareInfo (bl : Block) : BlockExtendedInfo :=
  { bl := bl
    height := 0
    blockCumulativeWeight := 0
    cumulativeDifficulty := 0
    alreadyGeneratedCoins := 0 }

/-- `return_tx_to_pool`. -/
def returnTxToPool (env : Env) : List (Transaction × Transaction) → NodeM Unit :=
  Exec.forEach fun item => do
    let _ ← poolAddTx env item.1 item.2 (env.getTransactionHash item.1) .block true
    return ()

/-- What the loop of `handle_block_to_main_chain` has collected. -/
structure BlockTxs where
  txs : List (Transaction × Transaction)
  feeSummary : Nat
  cumulativeBlockWeight : Nat
  nPruned : Nat
  deriving DecidableEq, Repr

/-- A failure that returns the transactions taken so far. -/
def failWithTxs {α : Type} (env : Env) (txs : List (Transaction × Transaction)) :
    NodeM (Option α) := do
  updateBvc fun bvc => { bvc with verifivationFailed := true }
  returnTxToPool env txs
  return none

/-- The loop of `handle_block_to_main_chain` over the transaction hashes. -/
def takeBlockTxs (env : Env) (bl : Block) (id : Hash) :
    List Hash → BlockTxs → NodeM (Option BlockTxs)
  | [], collected => pure (some collected)
  | txId :: rest, collected => do
      let node ← Exec.get
      if node.chain.txExists txId then
        failWithTxs env collected.txs
      else
        let taken ← onPool (takeTx node.batch.isSome txId)
        match taken with
        | none => failWithTxs env collected.txs
        | some result =>
          let txs := collected.txs ++ [(result.tx, result.blob)]
          let uninit ← nextMemory env
          let used ← Exec.reads fun node =>
            node.chain.checkRingctInputs env node.scanTable uninit result.tx
          if used.isSome ∧ env.checkRingctOutputs result.tx then
            takeBlockTxs env bl id rest
              { txs := txs
                feeSummary := Word.add 64 collected.feeSummary result.fee
                cumulativeBlockWeight :=
                  Word.add 64 collected.cumulativeBlockWeight result.txWeight
                nPruned := if result.pruned then collected.nPruned + 1 else collected.nPruned }
          else
            addBlockAsInvalid (bareInfo bl) id
            failWithTxs env txs

/-- Whether `handle_block_to_main_chain` accepts the coinbase with the collected totals. The
result of `prevalidate_miner_transaction` is used without a test, as in the program. -/
def acceptsCoinbase (bl : Block) (coinbase : Option CoinbaseTx) (collected : BlockTxs)
    (coinsBeforeThisBlock : Nat) : Except Exn Bool :=
  if getBlockHeight bl = 0 then
    .ok true
  else
    match coinbase with
    | none => .error .badGet
    | some coinbase =>
      .ok (validateMinerTransaction (getBlockHeight bl) coinbase
        collected.cumulativeBlockWeight collected.feeSummary coinsBeforeThisBlock).isSome

/-- The end of `handle_block_to_main_chain`, from the totals of the block on. -/
def connectBlock (env : Env) (bl : Block) (currentDiffic : Nat)
    (coinbase : Option CoinbaseTx) (collected : BlockTxs) : NodeM Bool := do
  let coinsBeforeThisBlock ← Exec.reads fun node =>
    if node.chain.height = 0 then .ok 0
    else node.chain.getBlockAlreadyGeneratedCoins (node.chain.height - 1)
  let accepted ← Exec.reads fun _ =>
    acceptsCoinbase bl coinbase collected coinsBeforeThisBlock
  if ¬ accepted then
    updateBvc fun bvc => { bvc with verifivationFailed := true }
    returnTxToPool env collected.txs
    return false
  else
    let cumulativeDifficulty ← Exec.reads fun node =>
      node.chain.mainCumulativeDifficulty currentDiffic
    let added ← Exec.tryCatch
      (do
        onChain (addBlock env bl collected.cumulativeBlockWeight
          (getBlockSizeBound (getBlockHeight bl)) cumulativeDifficulty
          (Word.add 64 coinsBeforeThisBlock (getBlockReward coinsBeforeThisBlock))
          collected.txs)
        return true)
      fun _ => do
        Exec.modify fun node => { node with batchSuccess := false }
        updateBvc fun bvc => { bvc with verifivationFailed := true }
        returnTxToPool env collected.txs
        return false
    if added then
      updateBvc fun bvc => { bvc with addedToMainChain := true }
      onPool onBlockchainChange
      let _ ← Exec.reads fun node =>
        node.chain.getDifficultyForNextBlock env.fixedDifficulty
      return true
    else
      return false

/-- `handle_block_to_main_chain`, called with a context in which nothing has failed. -/
def handleBlockToMainChain (env : Env) (bl : Block) (id : Hash) : NodeM Bool := do
  let node ← Exec.get
  let topHash ← Exec.reads fun node => node.chain.topBlockHash
  if bl.prevId ≠ topHash then
    failBlock
  else
    let now ← tick env
    let timely ← Exec.reads fun node => node.chain.checkBlockTimestamp now bl
    if ¬ timely then
      failBlock
    else
      let currentDiffic ← Exec.reads fun node =>
        node.chain.getDifficultyForNextBlock env.fixedDifficulty
      if currentDiffic = 0 then
        return false
      else if ¬ checkHash ((node.blocksLonghashTable.find id).getD (env.getMiningHash bl))
          currentDiffic then
        updateBvc fun bvc => { bvc with verifivationFailed := true, badPow := true }
        return false
      else
        let coinbase := env.prevalidateMinerTransaction bl node.chain.height
        if node.chain.height ≠ 0 ∧ coinbase.isNone then
          failBlock
        else
          let collected ← takeBlockTxs env bl id bl.txHashes
            { txs := []
              feeSummary := 0
              cumulativeBlockWeight := env.getTransactionWeight bl.minerTx
              nPruned := 0 }
          match collected with
          | none => return false
          | some collected =>
            if 0 < collected.nPruned then
              return false
            else
              connectBlock env bl currentDiffic coinbase collected

end Memero
