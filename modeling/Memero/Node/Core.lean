import Memero.Node.Batches

/-!
# Incoming transactions

`handle_incoming_ringcts` of `cryptonote/core/cryptonote_core.cpp` with the checks on first
arrival. A blob is given by the transaction it encodes.
-/

namespace Memero

/-- `get_max_tx_size`. -/
def maxTxSize : Nat := minimumBlockSizeBound

/-- `BAD_SEMANTICS_TXES_MAX_SIZE`. -/
def badSemanticsTxesMaxSize : Nat := 100

/-- A transaction blob that parses. The confidential part of a transaction of version 1 is
not serialised, so it has its default type. -/
structure TxBlob where
  tx : Transaction
  legacy : tx.version = 1 → tx.ringct.type = .null

/-! ## Checks -/

/-- `check_outs_valid`. -/
def Env.checkOutsValid (env : Env) (tx : Transaction) : Bool :=
  (tx.version ≠ 1 || tx.vout.all (0 < ·.amount)) && (env.checkTxOutputPoints tx).isSome

/-- `check_ringct_inputs_keyimages_diff`. -/
def checkRingctInputsKeyimagesDiff (tx : Transaction) : Bool :=
  rule8 tx.keyImages

/-- `check_ringct_inputs_ring_members_diff`. -/
def checkRingctInputsRingMembersDiff (tx : Transaction) : Bool :=
  tx.vin.all fun input =>
    match input with
    | .gen _ => false
    | .fromKey input => rule7 input.outputRelativeOffsets

/-- `check_ringct_semantic`. -/
def Env.checkRingctSemantic (env : Env) (tx : Transaction) (txFromBlock : Bool) : Bool :=
  rule25 tx.vin && checkInputsTypesSupported tx && env.checkOutsValid tx &&
    decide (tx.ringct.outputCommits.length = tx.vout.length) &&
    (txFromBlock || decide (env.getTransactionWeight tx < maxTxSize - coinbaseBlobReservedSize)) &&
    checkRingctInputsKeyimagesDiff tx && checkRingctInputsRingMembersDiff tx &&
    (areRingctInputTypesValid tx.vin).isSome

/-- `verify_range_proof` and `verify_ringct_balance`, as `accumulated_batch` calls them. -/
def Env.verifyAmounts (env : Env) (tx : Transaction) (rangeMemory balanceMemory : Uninit) :
    Bool :=
  match maybeSizeCheckedRctData tx.ringct .empty with
  | none => false
  | some checked =>
    env.verifyRangeProof checked rangeMemory &&
      (env.verifyRingctBalance checked).value balanceMemory

/-- `set_semantics_failed`. -/
def setSemanticsFailed (txHash : Hash) : NodeM Unit :=
  Exec.modify fun node =>
    let first := if txHash ∈ node.badSemanticsTxes.1 then node.badSemanticsTxes.1
      else txHash :: node.badSemanticsTxes.1
    { node with
      badSemanticsTxes :=
        if badSemanticsTxesMaxSize ≤ first.length then ([], first)
        else (first, node.badSemanticsTxes.2) }

/-! ## The passes over the incoming transactions -/

/-- What `handle_incoming_ringcts` keeps for one transaction. -/
structure TxpoolEvent where
  blob : TxBlob
  hash : Hash
  res : Bool
  alreadyHave : Bool

/-- `handle_incoming_ringct_pre`, and whether the transaction is already known. -/
def Node.handleIncomingRingctPre (env : Env) (node : Node) (blob : TxBlob) : TxpoolEvent :=
  let hash := env.getTransactionHash blob.tx
  let res := decide (env.getTransactionWeight blob.tx ≤ maxTxSize) &&
    decide (hash ∉ node.badSemanticsTxes.1 ∧ hash ∉ node.badSemanticsTxes.2) &&
    decide (blob.tx.version ≠ 0 ∧ blob.tx.version ≤ 2)
  { blob := blob
    hash := hash
    res := res
    alreadyHave := res && (node.pool.haveTx hash .legacy || node.chain.txExists hash) }

/-- One round of `handle_incoming_ringct_accumulated_batch`: whether the transaction may go
on to the pool. -/
def verifyArrival (env : Env) (tx : Transaction) (txHash : Hash) (txFromBlock : Bool) :
    NodeM Bool := do
  if ¬ env.checkRingctSemantic tx txFromBlock then
    setSemanticsFailed txHash
    return false
  else if tx.version < 2 then
    return true
  else
    let rangeMemory ← nextMemory env
    let balanceMemory ← nextMemory env
    if env.verifyAmounts tx rangeMemory balanceMemory then
      return true
    else
      setSemanticsFailed txHash
      return false

/-- `handle_incoming_ringct_accumulated_batch`. -/
def verifyArrivals (env : Env) (txFromBlock : Bool) :
    List TxpoolEvent → NodeM (List TxpoolEvent)
  | [] => pure []
  | event :: rest => do
      if event.res ∧ ¬ event.alreadyHave then
        let verified ← verifyArrival env event.blob.tx event.hash txFromBlock
        let others ← verifyArrivals env txFromBlock rest
        return { event with res := verified } :: others
      else
        let others ← verifyArrivals env txFromBlock rest
        return event :: others

/-- `add_new_tx`. -/
def addNewTx (env : Env) (tx : Transaction) (txHash : Hash) (txRelay : RelayMethod)
    (relayed : Bool) : NodeM Bool := do
  let node ← Exec.get
  if node.pool.haveTx txHash .legacy then
    return true
  else if node.chain.txExists txHash then
    return true
  else
    poolAddTx env tx tx txHash txRelay relayed

/-- The last loop of `handle_incoming_ringcts`. -/
def addArrivals (env : Env) (txRelay : RelayMethod) (relayed : Bool) :
    List TxpoolEvent → NodeM Bool
  | [] => pure true
  | event :: rest => do
      if ¬ event.res then
        let _ ← addArrivals env txRelay relayed rest
        return false
      else if event.alreadyHave then
        addArrivals env txRelay relayed rest
      else
        let added ← addNewTx env event.blob.tx event.hash txRelay relayed
        let others ← addArrivals env txRelay relayed rest
        return added && others

/-- `handle_incoming_ringcts`; a blob that does not parse is `none`. -/
def handleIncomingRingcts (env : Env) (blobs : List (Option TxBlob)) (txRelay : RelayMethod)
    (relayed : Bool) : NodeM Bool :=
  Exec.tryCatch
    (do
      let node ← Exec.get
      let events ← verifyArrivals env (decide (txRelay = .block))
        ((blobs.filterMap id).map (node.handleIncomingRingctPre env))
      let added ← addArrivals env txRelay relayed events
      return added && blobs.all Option.isSome)
    fun _ => return false

end Memero
