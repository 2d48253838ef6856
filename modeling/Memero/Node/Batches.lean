import Memero.Node.Reorganize

/-!
# Batches of incoming blocks

`prepare_handle_incoming_blocks`, `cleanup_handle_incoming_blocks` and `pop_blocks` of
`cryptonote/core/blockchain.cpp`. An entry holds what its blobs encode; a blob that does
not parse is `none`.
-/

namespace Memero

/-- `block_complete_entry`. -/
structure BlockCompleteEntry where
  block : Option Block
  txs : List (Option Transaction)
  deriving DecidableEq, Repr

/-! ## Looking outputs up in advance -/

/-- The transactions of the entries with their prefix hashes, unless one does not parse or
occurs twice. -/
def scanTransactions (env : Env) :
    List (Option Transaction) → List (Hash × List TxinFromKey) →
      Except Exn (Option (List (Hash × List TxinFromKey)))
  | [], scanned => .ok (some scanned)
  | none :: _, _ => .ok none
  | some tx :: rest, scanned =>
    if scanned.any (·.1 = env.getTransactionPrefixHash tx) then
      .ok none
    else
      match tx.vin.mapM TxIn.fromKey? with
      | none => .error .badGet
      | some inputs =>
        scanTransactions env rest (scanned ++ [(env.getTransactionPrefixHash tx, inputs)])

/-- The sorted offsets of an amount. -/
def scanOffsets (scanned : List (Hash × List TxinFromKey)) (amount : Nat) : List Nat :=
  (((scanned.flatMap Prod.snd).filter (·.amount = amount)).flatMap fun input =>
    relativeOutputOffsetsToAbsolute input.outputRelativeOffsets).dedup.insertionSort (· ≤ ·)

/-- The output found for an offset: the outputs of the sorted offsets are known up to the
first one that does not exist. -/
def ChainTables.scannedOutput (env : Env) (db : ChainTables) (offsets : List Nat)
    (amount offset : Nat) : Option OutputData :=
  (db.getOutputKeys env amount offsets)[offsets.idxOf offset]?

/-- The outputs found for an input, up to the first one that was not. -/
def ChainTables.scannedOutputs (env : Env) (db : ChainTables) (offsets : List Nat)
    (amount : Nat) : List Nat → List OutputData
  | [] => []
  | offset :: rest =>
    match db.scannedOutput env offsets amount offset with
    | none => []
    | some output => output :: scannedOutputs env db offsets amount rest

/-- The row of a transaction in `m_scan_table`; the first input with a key image counts. -/
def ChainTables.scanRow (env : Env) (db : ChainTables)
    (scanned : List (Hash × List TxinFromKey)) :
    List TxinFromKey → Table KeyImage (List OutputData)
  | [] => []
  | input :: rest =>
    (input.outputKeyImage, db.scannedOutputs env (scanOffsets scanned input.amount)
      input.amount (relativeOutputOffsetsToAbsolute input.outputRelativeOffsets)) ::
        scanRow env db scanned rest

/-- `m_scan_table` for the transactions of the entries. -/
def ChainTables.scanRows (env : Env) (db : ChainTables)
    (scanned : List (Hash × List TxinFromKey)) : ScanTable :=
  scanned.map fun item => (item.1, db.scanRow env scanned item.2)

/-! ## Preparation and cleanup -/

/-- The blocks of the entries, up to the first one that does not parse. -/
def parsedBlocks : List BlockCompleteEntry → Option (List Block)
  | [] => some []
  | entry :: rest =>
    match entry.block with
    | none => none
    | some bl => (parsedBlocks rest).map (bl :: ·)

/-- `prepare_handle_incoming_blocks`. It waits for a batch that is active; the model does
not come back from that. -/
def prepareHandleIncomingBlocks (env : Env) (entries : List BlockCompleteEntry) :
    NodeM Bool := do
  match entries with
  | [] => return false
  | first :: _ =>
    let started ← batchStart
    if ¬ started then
      Exec.exhaust
    else
      Exec.modify fun node => { node with batchSuccess := true }
      let topHash ← Exec.reads fun node => node.chain.topBlockHash
      if first.block.any (·.prevId ≠ topHash) then
        return true
      else
        match parsedBlocks entries with
        | none => return false
        | some blocks =>
          let node ← Exec.get
          if blocks.any fun bl => node.haveBlock (env.getBlockHash bl) then
            return true
          else
            Exec.modify fun node =>
              { node with
                blocksLonghashTable := blocks.map fun bl =>
                  (env.getBlockHash bl, env.getMiningHash bl)
                scanTable := [] }
            let scanned ← Exec.reads fun _ =>
              scanTransactions env (entries.flatMap (·.txs)) []
            match scanned with
            | none => return false
            | some scanned =>
              Exec.modify fun node =>
                { node with scanTable := node.chain.scanRows env scanned }
              return true

/-- `cleanup_handle_incoming_blocks`: whether the batch could be ended. -/
def cleanupHandleIncomingBlocks : NodeM Bool := do
  let success ← Exec.tryCatch
    (do
      let node ← Exec.get
      if node.batchSuccess then batchStop else batchAbort
      return true)
    fun _ => return false
  Exec.modify fun node => { node with blocksLonghashTable := [], scanTable := [] }
  return success

/-! ## Popping blocks -/

/-- The loop of `pop_blocks`. -/
def popTimes (env : Env) : Nat → NodeM Unit
  | 0 => pure ()
  | count + 1 => do
      let _ ← popBlockFromBlockchain env
      popTimes env count

/-- `pop_blocks`. -/
def popBlocks (env : Env) (nblocks : Nat) : NodeM Unit := do
  let started ← batchStart
  let node ← Exec.get
  let popped ← Exec.tryCatch
    (do
      popTimes env (if 0 < node.chain.height then min nblocks (node.chain.height - 1)
        else nblocks)
      return true)
    fun _ => return false
  if started then
    if popped then batchStop else batchAbort
  else
    return ()

end Memero
