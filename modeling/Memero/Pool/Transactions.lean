import Memero.Pool.State
import Memero.Blockchain.Inputs

/-!
# Operations of the pool

`add_tx`, `take_tx`, `prune`, `remove_stuck_transactions`, `init`, `validate` and the
functions of `tx_pool.cpp` below them. The pool reads
the chain tables and does not change them. Its writes happen under a `LockedTXN`, which
opens a batch if none is active: only then are the writes undone when it is not committed.
The readings of the clock and the uninitialised memory of one call are arguments.
-/

namespace Memero

/-- Computations over the pool. -/
abbrev PoolM : Type → Type :=
  Exec Pool Exn

/-- `CRYPTONOTE_COINBASE_BLOB_RESERVED_SIZE`. -/
def coinbaseBlobReservedSize : Nat := 600

/-- `get_transaction_weight_limit`. -/
def transactionWeightLimit : Nat :=
  minimumBlockSizeBound / 2 - coinbaseBlobReservedSize

/-- `FEE_PER_BYTE`. -/
def feePerByte : Nat := 300000

/-- `fee_quantization_mask`. -/
def feeQuantizationMask : Nat := 10 ^ 3

/-- `check_fee`. -/
def checkFee (txWeight fee : Nat) : Bool :=
  let mask := feeQuantizationMask
  let base := Word.wrap 64 (txWeight * feePerByte)
  let neededFee := Word.wrap 64
    (Word.sub 64 (Word.add 64 base mask) 1 / mask * mask)
  !decide (fee < neededFee - neededFee / 50)

/-- `get_inputs_money_amount`. -/
def getInputsMoneyAmount (tx : Transaction) : Nat :=
  sum64 (tx.vin.map fun input =>
    match input with
    | .gen _ => 0
    | .fromKey input => input.amount)

/-- `get_tx_outputs_money_amount`. -/
def getTxOutputsMoneyAmount (tx : Transaction) : Nat :=
  sum64 (tx.vout.map (·.amount))

/-- The fee that `add_tx` computes, unless it refuses the amounts. -/
def addedFee (tx : Transaction) : Option Nat :=
  if tx.version = 1 then
    if getInputsMoneyAmount tx ≤ getTxOutputsMoneyAmount tx then none
    else some (getInputsMoneyAmount tx - getTxOutputsMoneyAmount tx)
  else
    some tx.ringct.fee

/-- `check_inputs_types_supported`. -/
def checkInputsTypesSupported (tx : Transaction) : Bool :=
  tx.vin.all fun input => input.fromKey?.isSome

/-! ## Writes -/

/-- `LockedTXN`: the value of the body says whether it was committed. -/
def lockedTxn {α : Type} (inBatch : Bool) (body : PoolM (α × Bool)) : PoolM α := do
  let before ← Exec.get
  let abort : PoolM Unit := Exec.modify fun after =>
    if inBatch then after else { after with txpool := before.txpool }
  let result ← Exec.tryCatch body fun exception => do
    abort
    Exec.throw exception
  if result.2 then
    return result.1
  else
    abort
    return result.1

/-- `insert_output_key_images`. Looking a set up creates it. -/
def insertOutputKeyImages (id : Hash) (txRelay : RelayMethod) : List TxIn → PoolM Bool
  | [] => pure true
  | .gen _ :: _ => pure false
  | .fromKey input :: rest => do
      let pool ← Exec.get
      let ids := pool.spenders input.outputKeyImage
      Exec.modify fun pool => pool.setSpenders input.outputKeyImage ids
      if txRelay ≠ .block ∧ ¬ (ids = [] ∨ ids = [id]) then
        return false
      else if id ∈ ids then
        if pool.haveTx id .legacy then return false else insertOutputKeyImages id txRelay rest
      else
        Exec.modify fun pool => pool.setSpenders input.outputKeyImage (id :: ids)
        insertOutputKeyImages id txRelay rest

/-- `remove_transaction_keyimages`. -/
def removeTransactionKeyimages (id : Hash) : List TxIn → PoolM Bool
  | [] => pure true
  | .gen _ :: _ => pure false
  | .fromKey input :: rest => do
      let pool ← Exec.get
      match pool.spentOutputKeyImages.find input.outputKeyImage with
      | none => return false
      | some ids =>
        if id ∈ ids then
          Exec.modify fun pool =>
            { pool with
              spentOutputKeyImages :=
                if ids.erase id = [] then
                  pool.spentOutputKeyImages.remove input.outputKeyImage
                else
                  pool.spentOutputKeyImages.set input.outputKeyImage (ids.erase id) }
          removeTransactionKeyimages id rest
        else
          return false

/-- `mark_double_spend`. -/
def markDoubleSpend (tx : Transaction) : PoolM Unit :=
  Exec.modify fun pool =>
    let ids := tx.keyImages.flatMap pool.spenders
    { pool with
      txpool := pool.txpool.map fun row =>
        if row.1 ∈ ids then
          (row.1, { row.2 with details := { row.2.details with doubleSpendSeen := true } })
        else row }

/-- The loop of `prune`, over the entries it looks at from the last one on: whether it got
to the end. -/
def pruneEntries (bytes : Nat) : List SortedEntry → PoolM Bool
  | [] => pure true
  | entry :: rest => do
      let pool ← Exec.get
      if pool.txpoolWeight ≤ bytes then
        return true
      else
        match pool.txpool.find entry.id with
        | none => return false
        | some row =>
          if row.details.txFromBlock then
            pruneEntries bytes rest
          else
            Exec.modify fun pool =>
              { pool with
                txpool := pool.txpool.remove entry.id
                txpoolWeight := Word.sub 64 pool.txpoolWeight row.details.weight }
            let _ ← removeTransactionKeyimages entry.id row.blob.vin
            Exec.modify fun pool =>
              { pool with
                txsByFeeAndReceiveTime := pool.txsByFeeAndReceiveTime.erase entry }
            pruneEntries bytes rest

/-- `prune`; zero bytes stand for the weight the pool was configured with. The first entry is
never looked at. -/
def prune (env : Env) (inBatch : Bool) (bytes : Nat) : PoolM Unit :=
  lockedTxn inBatch do
    let pool ← Exec.get
    let finished ← pruneEntries (if bytes = 0 then env.txpoolMaxWeight else bytes)
      pool.txsByFeeAndReceiveTime.tail.reverse
    return ((), finished)

/-! ## Adding -/

/-- The overload of `check_ringct_inputs` that also returns the hash of the block. -/
def ChainTables.checkRingctInputsWithId (env : Env) (db : ChainTables) (scanTable : ScanTable)
    (uninit : Uninit) (tx : Transaction) : Except Exn (Option (Nat × Hash)) :=
  match db.checkRingctInputs env scanTable uninit tx with
  | .error exception => .error exception
  | .ok none => .ok none
  | .ok (some maxUsedBlockHeight) =>
    if maxUsedBlockHeight < db.height then
      (db.getBlockHashFromHeight maxUsedBlockHeight).map fun maxUsedBlockId =>
        some (maxUsedBlockHeight, maxUsedBlockId)
    else
      .ok none

/-- What one call of `add_tx` gets from outside the pool. -/
structure AddTxInput where
  tx : Transaction
  blob : Transaction
  id : Hash
  txWeight : Nat
  txRelay : RelayMethod
  relayed : Bool
  receiveTime : Nat
  lastRelayedTime : Nat
  uninit : Uninit

/-- The metadata of a new row: `used` is the youngest block whose outputs are spent, if the
inputs were accepted. -/
def AddTxInput.newMeta (input : AddTxInput) (fee : Nat) (used : Option (Nat × Hash))
    (doubleSpendSeen : Bool) : TxpoolTxMeta :=
  TxpoolTxMeta.setRelayMethod
    { maxUsedBlockId := (used.map Prod.snd).getD 0
      lastFailedId := 0
      weight := input.txWeight
      fee := fee
      maxUsedBlockHeight := (used.map Prod.fst).getD 0
      lastFailedHeight := 0
      receiveTime := input.receiveTime
      lastRelayedTime := input.lastRelayedTime
      txFromBlock := false
      relayed := input.relayed
      doNotRelay := false
      doubleSpendSeen := doubleSpendSeen
      pruned := false
      isLocal := false } input.txRelay

/-- The entry of a row in `m_txs_by_fee_and_receive_time`; a stored blob is not empty. -/
def TxpoolTxMeta.sortedEntry (env : Env) (details : TxpoolTxMeta) (id : Hash) : SortedEntry :=
  { feePerWeight := env.feePerWeight details.fee details.weight
    receiveTime := details.receiveTime
    id := id }

/-- The part of `add_tx` that stores the transaction. An older row is removed first only if
the inputs were accepted; `add_txpool_tx` overwrites one in any case. -/
def storeTx (env : Env) (inBatch : Bool) (input : AddTxInput) (details : TxpoolTxMeta)
    (inputsAccepted : Bool) : PoolM Bool := do
  Exec.modify fun pool =>
    if input.txRelay = .block ∧ ¬ pool.parsedTxCache.has input.id then
      { pool with parsedTxCache := pool.parsedTxCache.put input.id input.tx }
    else pool
  lockedTxn inBatch do
    Exec.modify fun pool =>
      if inputsAccepted then { pool with txpool := pool.txpool.remove input.id } else pool
    let inserted ← insertOutputKeyImages input.id input.txRelay input.tx.vin
    if inserted then
      Exec.modify fun pool =>
        { pool with
          txpool := pool.txpool.set input.id { details := details, blob := input.blob }
          txsByFeeAndReceiveTime := emplaceSorted (details.sortedEntry env input.id)
            pool.txsByFeeAndReceiveTime }
      return (true, true)
    else
      return (false, false)

/-- The end of `add_tx`. -/
def finishAddTx (env : Env) (inBatch : Bool) (input : AddTxInput) (details : TxpoolTxMeta)
    (inputsAccepted : Bool) : PoolM Bool := do
  let stored ← storeTx env inBatch input details inputsAccepted
  if stored then
    Exec.modify fun pool =>
      { pool with txpoolWeight := Word.add 64 pool.txpoolWeight input.txWeight }
    prune env inBatch env.txpoolMaxWeight
    return true
  else
    return false

/-- `add_tx`. -/
def addTx (env : Env) (db : ChainTables) (scanTable : ScanTable) (inBatch : Bool)
    (input : AddTxInput) : PoolM Bool := do
  let pool ← Exec.get
  let txFromBlock := decide (input.txRelay = .block)
  if input.tx.version = 0 then
    return false
  else if ¬ txFromBlock ∧ input.id ∈ pool.timedOutTransactions then
    return false
  else if ¬ checkInputsTypesSupported input.tx then
    return false
  else
    match addedFee input.tx with
    | none => return false
    | some fee =>
      if ¬ txFromBlock ∧ ¬ checkFee input.txWeight fee then
        return false
      else if transactionWeightLimit < input.txWeight then
        return false
      else if ¬ txFromBlock ∧ pool.haveTxKeyimgesAsSpent input.tx input.id then
        markDoubleSpend input.tx
        return false
      else if ¬ env.checkRingctOutputs input.tx then
        return false
      else
        let used ← Exec.reads fun _ =>
          db.checkRingctInputsWithId env scanTable input.uninit input.tx
        match used with
        | none =>
          if txFromBlock then
            finishAddTx env inBatch input (input.newMeta fee none
              (pool.haveTxKeyimgesAsSpent input.tx input.id)) false
          else
            return false
        | some _ =>
          finishAddTx env inBatch input (input.newMeta fee used false) true

/-! ## Taking and removing -/

/-- What `take_tx` returns. -/
structure TakenTx where
  tx : Transaction
  blob : Transaction
  txWeight : Nat
  fee : Nat
  relayed : Bool
  doNotRelay : Bool
  doubleSpendSeen : Bool
  pruned : Bool
  deriving DecidableEq, Repr

/-- `take_tx`. -/
def takeTx (inBatch : Bool) (id : Hash) : PoolM (Option TakenTx) := do
  let taken ← lockedTxn inBatch do
    let pool ← Exec.get
    match pool.txpool.find id with
    | none => return (none, false)
    | some row =>
      let tx := (pool.parsedTxCache.find id).getD row.blob
      Exec.modify fun pool =>
        { pool with
          txpool := pool.txpool.remove id
          txpoolWeight := Word.sub 64 pool.txpoolWeight row.details.weight }
      let _ ← removeTransactionKeyimages id tx.vin
      return (some
        { tx := tx
          blob := row.blob
          txWeight := row.details.weight
          fee := row.details.fee
          relayed := row.details.relayed
          doNotRelay := row.details.doNotRelay
          doubleSpendSeen := row.details.doubleSpendSeen
          pruned := row.details.pruned }, true)
  match taken with
  | none => return none
  | some result =>
    Exec.modify fun pool =>
      { pool with
        txsByFeeAndReceiveTime := pool.txsByFeeAndReceiveTime.eraseP (·.id = id) }
    return some result

/-- `CRYPTONOTE_MEMPOOL_TX_LIVETIME`. -/
def mempoolTxLivetime : Nat := 86400 * 3

/-- `CRYPTONOTE_MEMPOOL_TX_FROM_ALT_BLOCK_LIVETIME`. -/
def mempoolTxFromAltBlockLivetime : Nat := 604800

/-- Whether `remove_stuck_transactions` removes a row. -/
def TxpoolTxMeta.isStuck (details : TxpoolTxMeta) (now : Nat) : Bool :=
  let txAge := Word.sub 64 now details.receiveTime
  (decide (mempoolTxLivetime < txAge) && !details.txFromBlock) ||
    (decide (mempoolTxFromAltBlockLivetime < txAge) && details.txFromBlock)

/-- The second loop of `remove_stuck_transactions`. -/
def removeStuck : List (Hash × PoolTx) → PoolM Unit
  | [] => pure ()
  | (id, row) :: rest => do
      Exec.modify fun pool =>
        { pool with
          txpool := pool.txpool.remove id
          txpoolWeight := Word.sub 64 pool.txpoolWeight row.details.weight }
      let _ ← removeTransactionKeyimages id row.blob.vin
      removeStuck rest

/-- `remove_stuck_transactions`. -/
def removeStuckTransactions (now : Nat) : PoolM Unit := do
  let pool ← Exec.get
  let stuck := pool.txpool.filter fun row => row.2.details.isStuck now
  Exec.modify fun pool =>
    { pool with
      txsByFeeAndReceiveTime :=
        stuck.foldl (fun entries row => entries.eraseP (·.id = row.1)) pool.txsByFeeAndReceiveTime
      timedOutTransactions := stuck.map Prod.fst ++ pool.timedOutTransactions }
  removeStuck stuck

/-- `set_relayed`. -/
def setRelayed (hashes : List Hash) (method : RelayMethod) (now : Nat) : PoolM Unit :=
  Exec.modify fun pool =>
    { pool with
      txpool := pool.txpool.map fun row =>
        if row.1 ∈ hashes then
          (row.1, { row.2 with
            details := TxpoolTxMeta.setRelayMethod
              { row.2.details with relayed := true, lastRelayedTime := now } method })
        else row }

/-- `on_blockchain_inc` and `on_blockchain_dec`. -/
def onBlockchainChange : PoolM Unit :=
  Exec.modify fun pool => { pool with parsedTxCache := [] }

/-! ## Starting -/

/-- A pass of `init` over the rows: over those that come from a block, or over the others. -/
def initPass (env : Env) (kept : Bool) : List (Hash × PoolTx) → PoolM Bool
  | [] => pure true
  | (id, row) :: rest => do
      if row.details.txFromBlock ≠ kept then
        initPass env kept rest
      else
        let inserted ← insertOutputKeyImages id row.details.getRelayMethod row.blob.vin
        if inserted then
          Exec.modify fun pool =>
            { pool with
              txsByFeeAndReceiveTime := emplaceSorted (row.details.sortedEntry env id)
                pool.txsByFeeAndReceiveTime
              txpoolWeight := Word.add 64 pool.txpoolWeight row.details.weight }
          initPass env kept rest
        else
          return false

/-- `init`. Every stored blob parses, so it removes nothing. -/
def initPool (env : Env) : PoolM Bool := do
  let pool ← Exec.get
  Exec.modify fun pool =>
    { pool with
      txsByFeeAndReceiveTime := []
      spentOutputKeyImages := []
      txpoolWeight := 0 }
  let first ← initPass env false pool.txpool
  if first then initPass env true pool.txpool else return false

/-- Whether `validate` removes a row. -/
def ChainTables.invalidates (db : ChainTables) (row : Hash × PoolTx) : Bool :=
  decide (transactionWeightLimit < row.2.details.weight) || db.txExists row.1

/-- The loop of `validate` that removes rows. -/
def removeInvalid (env : Env) : List (Hash × PoolTx) → PoolM Unit
  | [] => pure ()
  | (id, row) :: rest => do
      Exec.modify fun pool =>
        { pool with
          txpool := pool.txpool.remove id
          txpoolWeight := Word.sub 64 pool.txpoolWeight (env.getTransactionWeight row.blob) }
      let _ ← removeTransactionKeyimages id row.blob.vin
      Exec.modify fun pool =>
        { pool with
          txsByFeeAndReceiveTime := pool.txsByFeeAndReceiveTime.eraseP (·.id = id) }
      removeInvalid env rest

/-- `validate`: the number of rows removed. -/
def validate (env : Env) (db : ChainTables) : PoolM Nat := do
  let pool ← Exec.get
  Exec.modify fun pool =>
    { pool with txpoolWeight := sum64 (pool.txpool.map (·.2.details.weight)) }
  let invalid := pool.txpool.filter db.invalidates
  removeInvalid env invalid
  return invalid.length

end Memero
