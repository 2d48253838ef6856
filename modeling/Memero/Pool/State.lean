import Memero.Lib.SetTable
import Memero.Database.Tables

/-!
# The transaction pool

The data of `tx_memory_pool` and the rows of the two pool tables of the database, which
always hold the same keys and are one table here. A set of `m_spent_output_key_images` is a
list without repetition. The counter `m_cookie` is left out.
-/

namespace Memero

/-- `relay_method`. -/
inductive RelayMethod where
  | none
  | «local»
  | block
  | fluff
  deriving DecidableEq, Repr

/-- `relay_category`. -/
inductive RelayCategory where
  | broadcasted
  | relayable
  | legacy
  | all
  deriving DecidableEq, Repr

/-- `matches_category`. -/
def matchesCategory : RelayMethod → RelayCategory → Bool
  | _, .all => true
  | method, .relayable => method ≠ .none
  | .local, _ => false
  | .block, _ => true
  | .fluff, _ => true
  | .none, category => category = .legacy

/-- `txpool_tx_meta_t`. -/
structure TxpoolTxMeta where
  maxUsedBlockId : Hash
  lastFailedId : Hash
  weight : Nat
  fee : Nat
  maxUsedBlockHeight : Nat
  lastFailedHeight : Nat
  receiveTime : Nat
  lastRelayedTime : Nat
  txFromBlock : Bool
  relayed : Bool
  doNotRelay : Bool
  doubleSpendSeen : Bool
  pruned : Bool
  isLocal : Bool
  deriving DecidableEq, Repr

namespace TxpoolTxMeta

/-- `set_relay_method`. -/
def setRelayMethod (details : TxpoolTxMeta) (method : RelayMethod) : TxpoolTxMeta :=
  { details with
    txFromBlock := decide (method = .block)
    doNotRelay := decide (method = .none)
    isLocal := decide (method = .local) }

/-- `get_relay_method`. -/
def getRelayMethod (details : TxpoolTxMeta) : RelayMethod :=
  if details.txFromBlock then .block
  else if details.doNotRelay then .none
  else if details.isLocal then .local
  else .fluff

end TxpoolTxMeta

/-- A row of the pool tables; `blob` is what the stored blob encodes. -/
structure PoolTx where
  details : TxpoolTxMeta
  blob : Transaction
  deriving DecidableEq, Repr

/-- `tx_by_fee_and_receive_time_entry`. -/
structure SortedEntry where
  feePerWeight : Nat
  receiveTime : Nat
  id : Hash
  deriving DecidableEq, Repr

/-- `txCompare`. -/
def txCompare (a b : SortedEntry) : Bool :=
  if b.feePerWeight < a.feePerWeight then true
  else if a.feePerWeight < b.feePerWeight then false
  else if a.receiveTime < b.receiveTime then true
  else if b.receiveTime < a.receiveTime then false
  else a.id ≠ b.id

/-- `emplace` into `m_txs_by_fee_and_receive_time`: the entry goes before the first one it is
less than, unless the one before that place is not less than it. -/
def emplaceSorted (entry : SortedEntry) (entries : List SortedEntry) : List SortedEntry :=
  let passed := entries.takeWhile fun other => !txCompare entry other
  if passed.getLast?.all (txCompare · entry) then
    passed ++ entry :: entries.dropWhile fun other => !txCompare entry other
  else
    entries

/-- The pool: its table and its members. -/
structure Pool where
  txpool : Table Hash PoolTx
  parsedTxCache : Table Hash Transaction
  spentOutputKeyImages : Table KeyImage (List Hash)
  txsByFeeAndReceiveTime : List SortedEntry
  txpoolWeight : Nat
  timedOutTransactions : List Hash
  deriving DecidableEq, Repr

namespace Pool

/-- The pool of a new node. -/
def empty : Pool :=
  { txpool := []
    parsedTxCache := []
    spentOutputKeyImages := []
    txsByFeeAndReceiveTime := []
    txpoolWeight := 0
    timedOutTransactions := [] }

variable (pool : Pool)

/-- `txpool_tx_matches_category`, and `have_tx` of the pool. -/
def haveTx (id : Hash) (category : RelayCategory) : Bool :=
  match pool.txpool.find id with
  | none => false
  | some row => matchesCategory row.details.getRelayMethod category

/-- The set of `m_spent_output_key_images` for a key image, empty if there is none. -/
def spenders (image : KeyImage) : List Hash :=
  pool.spentOutputKeyImages.members image

/-- Store the set of a key image. -/
def setSpenders (image : KeyImage) (ids : List Hash) : Pool :=
  { pool with spentOutputKeyImages := pool.spentOutputKeyImages.set image ids }

/-- `have_tx_keyimg_as_spent`. -/
def haveTxKeyimgAsSpent (image : KeyImage) (txid : Hash) : Bool :=
  match pool.spenders image with
  | [] => false
  | [other] => if other ≠ txid then true else pool.haveTx txid .legacy
  | _ => true

/-- `have_tx_keyimges_as_spent`. -/
def haveTxKeyimgesAsSpent (tx : Transaction) (txid : Hash) : Bool :=
  tx.vin.any fun input =>
    match input with
    | .gen _ => true
    | .fromKey input => pool.haveTxKeyimgAsSpent input.outputKeyImage txid

end Pool

end Memero
