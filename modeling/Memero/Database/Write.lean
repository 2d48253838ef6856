import Memero.Database.Tables

/-!
# Adding and removing blocks

`BlockchainDB::add_block` and `BlockchainDB::pop_block` with the functions of
`lmdb.cpp` below them. Each function performs the program's checks in the program's order
and changes the tables as it goes, so an exception leaves the rows written before it.
-/

namespace Memero

/-- Computations over the chain tables. -/
abbrev ChainM : Type → Type :=
  Exec ChainTables Exn

namespace ChainTables

/-- The row `add_transaction_data` writes for a transaction. -/
def newTxIndex (db : ChainTables) (tx : Transaction) : TxIndex :=
  { txId := db.getTxCount, unlockHeight := tx.unlockHeight, blockId := db.height }

/-- The tables after `add_transaction_data`; `blob` is what the stored blob encodes. -/
def pushTransactionData (db : ChainTables) (tx blob : Transaction) (txHash : Hash) :
    ChainTables :=
  let txId := db.getTxCount
  { db with
    txIndices := db.txIndices.put txHash (db.newTxIndex tx)
    txsPruned := db.txsPruned.put txId (TransactionBase.of blob)
    txsPrunable := db.txsPrunable.put txId blob.ringct.p
    txsPrunableHash :=
      if 1 < tx.version then db.txsPrunableHash.put txId 0 else db.txsPrunableHash }

/-- The row `add_output` writes to `output_txs`. -/
def newOutTx (db : ChainTables) (txHash : Hash) (localIndex : Nat) : OutTx :=
  { outputId := db.numOutputs, txHash := txHash, localIndex := localIndex }

/-- The row `add_output` writes to `output_amounts`. -/
def newOutKey (db : ChainTables) (out : TxOut) (unlockHeight : Nat)
    (commitment : Option EcPoint) : OutKey :=
  { amountIndex := db.getNumOutputs out.amount
    outputId := db.numOutputs
    data :=
      { pubkey := out.outputPublicKey
        unlockHeight := unlockHeight
        height := db.height
        commitment := if out.amount = 0 then commitment else none } }

/-- The tables after `add_output`. -/
def pushOutput (db : ChainTables) (txHash : Hash) (out : TxOut) (localIndex : Nat)
    (unlockHeight : Nat) (commitment : Option EcPoint) : ChainTables :=
  { db with
    outputTxs := db.newOutTx txHash localIndex :: db.outputTxs
    outputAmounts :=
      db.outputAmounts.put out.amount (db.newOutKey out unlockHeight commitment) }

/-- The tables after `add_tx_amount_output_indices`. -/
def pushTxOutputs (db : ChainTables) (txId : Nat) (indices : List Nat) : ChainTables :=
  { db with txOutputs := db.txOutputs.put txId indices }

/-- The row `add_block` writes to `block_info`. -/
def newBlockInfo (db : ChainTables) (blk : Block) (blockWeight longTermBlockWeight
    cumulativeDifficulty coinsGenerated numRctOuts previousRct : Nat) (blkHash : Hash) :
    BlockInfo :=
  { height := db.height
    timestamp := blk.timestamp
    coins := coinsGenerated
    weight := blockWeight
    diff := cumulativeDifficulty
    hash := blkHash
    cumRct := numRctOuts + previousRct
    longTermBlockWeight := longTermBlockWeight }

/-- The tables after the block row itself is written. -/
def pushBlockInfo (db : ChainTables) (blk : Block) (info : BlockInfo) : ChainTables :=
  { db with
    blocks := db.blocks ++ [blk]
    blockInfo := db.blockInfo ++ [info]
    blockHeights := db.blockHeights.put info.hash db.height }

end ChainTables

/-! ## Adding -/

/-- `add_spent_key`. -/
def addSpentKey (image : KeyImage) : ChainM Unit := do
  let db ← Exec.get
  if db.hasOutputKeyImage image then
    Exec.throw .keyImageExists
  else
    Exec.modify fun db => { db with spentKeys := image :: db.spentKeys }

/-- `add_transaction_data`. -/
def addTransactionData (tx blob : Transaction) (txHash : Hash) : ChainM Nat := do
  let db ← Exec.get
  if db.txExists txHash then
    Exec.throw .txExists
  else
    Exec.modify fun db => db.pushTransactionData tx blob txHash
    return db.getTxCount

/-- `add_output`. -/
def addOutput (txHash : Hash) (out : TxOut) (localIndex unlockHeight : Nat)
    (commitment : Option EcPoint) : ChainM Nat := do
  let db ← Exec.get
  if out.amount = 0 ∧ commitment = none then
    Exec.throw .dbError
  else
    Exec.modify fun db => db.pushOutput txHash out localIndex unlockHeight commitment
    return db.getNumOutputs out.amount

/-- Whether `add_transaction` treats a transaction as a miner transaction. -/
def Transaction.hasGenInput (tx : Transaction) : Bool :=
  tx.vin.any fun input => input.keyImage?.isNone

/-- The output and the commitment that `add_transaction` stores for output `index`. A
miner output of version 2 is stored under amount zero with the commitment to its public
amount; the generators in that commitment are constants, so no call in it fails. -/
def storedOutput (env : Env) (tx : Transaction) (index : Nat) (out : TxOut) :
    TxOut × Option EcPoint :=
  if tx.hasGenInput ∧ tx.version = 2 then
    ({ out with amount := 0 }, some ((env.dummyCommit out.amount).value fun _ => identity))
  else if tx.hasGenInput ∧ tx.version = 1 then
    (out, none)
  else
    (out, some (tx.ringct.outputCommits.getD index 0))

/-- The loop of `add_transaction` over the outputs. -/
def addOutputs (env : Env) (tx : Transaction) (txHash : Hash) :
    Nat → List TxOut → ChainM (List Nat)
  | _, [] => pure []
  | index, out :: rest => do
      let amountIndex ← addOutput txHash (storedOutput env tx index out).1 index
        tx.unlockHeight (storedOutput env tx index out).2
      let others ← addOutputs env tx txHash (index + 1) rest
      return amountIndex :: others

/-- `add_transaction`. -/
def addTransaction (env : Env) (tx blob : Transaction) (txHash : Hash) : ChainM Unit := do
  Exec.forEach addSpentKey tx.keyImages
  let txId ← addTransactionData tx blob txHash
  let indices ← addOutputs env tx txHash 0 tx.vout
  Exec.modify fun db => db.pushTxOutputs txId indices

/-- The outputs of a block that count as confidential outputs. -/
def numRctOuts (blk : Block) (txs : List Transaction) : Nat :=
  (if blk.minerTx.version = 2 then blk.minerTx.vout.length else 0) +
    (txs.map fun tx => (tx.vout.filter (·.amount = 0)).length).sum

/-- `BlockchainLMDB::add_block` for the block and its metadata. -/
def addBlockInfo (blk : Block) (blockWeight longTermBlockWeight cumulativeDifficulty
    coinsGenerated rctOuts : Nat) (blkHash : Hash) : ChainM Unit := do
  let db ← Exec.get
  let write := fun previousRct => Exec.modify fun db : ChainTables =>
    db.pushBlockInfo blk (db.newBlockInfo blk blockWeight longTermBlockWeight
      cumulativeDifficulty coinsGenerated rctOuts previousRct blkHash)
  if db.blockExists blkHash then
    Exec.throw .blockExists
  else if db.height = 0 then
    write 0
  else
    match db.blockHeights.find blk.prevId with
    | none => Exec.throw .dbError
    | some parent =>
      if parent ≠ db.height - 1 then
        Exec.throw .blockParentDne
      else if blk.majorVersion < 4 then
        write 0
      else
        match db.getBlockInfo (db.height - 1) with
        | .error exception => Exec.throw exception
        | .ok previous => write previous.cumRct

/-- `BlockchainDB::add_block`; a transaction comes with what its blob encodes. -/
def addBlock (env : Env) (blk : Block) (blockWeight longTermBlockWeight
    cumulativeDifficulty coinsGenerated : Nat) (txs : List (Transaction × Transaction)) :
    ChainM Unit := do
  if blk.txHashes.length ≠ txs.length then
    Exec.throw .inconsistentSizes
  else
    addTransaction env blk.minerTx blk.minerTx (env.getTransactionHash blk.minerTx)
    Exec.forEach (fun item : Hash × Transaction × Transaction =>
      addTransaction env item.2.1 item.2.2 item.1) (blk.txHashes.zip txs)
    addBlockInfo blk blockWeight longTermBlockWeight cumulativeDifficulty coinsGenerated
      (numRctOuts blk (txs.map Prod.fst)) (env.getBlockHash blk)

/-! ## Removing -/

/-- `remove_block`. The block row goes with the cursor that `get_top_block` left on it. -/
def removeBlock : ChainM Unit := do
  let db ← Exec.get
  if db.height = 0 then
    Exec.throw .blockDne
  else
    let info ← Exec.reads fun db => db.getBlockInfo (db.height - 1)
    if db.blockExists info.hash then
      Exec.modify fun db =>
        { db with
          blocks := db.blocks.dropLast
          blockInfo := db.blockInfo.dropLast
          blockHeights := db.blockHeights.erase info.hash }
    else
      Exec.throw .dbError

/-- `remove_spent_key`. -/
def removeSpentKey (image : KeyImage) : ChainM Unit :=
  Exec.modify fun db => { db with spentKeys := db.spentKeys.erase image }

/-- `remove_output`. -/
def removeOutput (amount index : Nat) : ChainM Unit := do
  let db ← Exec.get
  match db.findOutput amount index with
  | none => Exec.throw .outputDne
  | some row =>
    if db.outputTxs.any (·.outputId = row.outputId) then
      Exec.modify fun db =>
        { db with
          outputTxs := db.outputTxs.eraseP (·.outputId = row.outputId)
          outputAmounts := db.outputAmounts.eraseP fun entry =>
            entry.1 = amount ∧ entry.2.amountIndex = index }
    else
      Exec.throw .dbError

/-- `remove_tx_outputs`, from the last output to the first. -/
def removeTxOutputs (txId : Nat) (tx : Transaction) : ChainM Unit := do
  let db ← Exec.get
  match db.txOutputs.find txId with
  | none => Exec.throw .dbError
  | some indices =>
    if indices.isEmpty ∧ ¬ tx.vout.isEmpty then
      Exec.throw .dbError
    else
      let isPseudoRct := decide (2 ≤ tx.version) && tx.isCoinbase
      Exec.forEach (fun item : TxOut × Nat =>
        removeOutput (if isPseudoRct then 0 else item.1.amount) item.2)
        (tx.vout.zip indices).reverse

/-- `remove_transaction_data`. -/
def removeTransactionData (txHash : Hash) (tx : Transaction) : ChainM Unit := do
  let db ← Exec.get
  match db.txIndices.find txHash with
  | none => Exec.throw .txDne
  | some index =>
    if ¬ db.txsPruned.has index.txId then
      Exec.throw .dbError
    else
      Exec.modify fun db =>
        { db with
          txsPruned := db.txsPruned.erase index.txId
          txsPrunable := db.txsPrunable.erase index.txId }
      if 1 < tx.version ∧ ¬ db.txsPrunableHash.has index.txId then
        Exec.throw .dbError
      else
        Exec.modify fun db =>
          { db with
            txsPrunableHash :=
              if 1 < tx.version then db.txsPrunableHash.erase index.txId
              else db.txsPrunableHash }
        removeTxOutputs index.txId tx
        Exec.modify fun db =>
          { db with
            txOutputs := db.txOutputs.erase index.txId
            txIndices := db.txIndices.erase txHash }

/-- `remove_transaction`. -/
def removeTransaction (txHash : Hash) : ChainM Unit := do
  let db ← Exec.get
  match db.getTx? txHash with
  | none => Exec.throw .txDne
  | some tx =>
    Exec.forEach removeSpentKey tx.keyImages
    removeTransactionData txHash tx

/-- The loop of `pop_block` over the transactions of the block, given in that order. -/
def popTransactions : List Hash → ChainM (List Transaction)
  | [] => pure []
  | txHash :: rest => do
      let db ← Exec.get
      match db.getTx? txHash with
      | none => Exec.throw .dbError
      | some tx =>
        removeTransaction txHash
        let others ← popTransactions rest
        return tx :: others

/-- `BlockchainDB::pop_block`: the top block and its transactions, last one first. -/
def popBlock (env : Env) : ChainM (Block × List Transaction) := do
  let db ← Exec.get
  match db.blocks.getLast? with
  | none => Exec.throw .blockDne
  | some blk =>
    removeBlock
    let txs ← popTransactions blk.txHashes.reverse
    removeTransaction (env.getTransactionHash blk.minerTx)
    return (blk, txs)

end Memero
