import Memero.Lib.Exec
import Memero.Lib.Table
import Memero.Consensus.Difficulty
import Memero.Crypto.Ringct

/-!
# The chain tables of the database

The tables that `BlockchainDB::add_block` and `BlockchainDB::pop_block` change, and the
functions of `daemon/database` that read and write them. LMDB is taken as a set of ordered
maps. The tables indexed by height are lists from the genesis block up; in every other
table the newest row is first. A stored transaction is split, as the program splits its
blob, into the part before the prunable data and the prunable data.
-/

namespace Memero

/-- The exceptions the modelled code throws. -/
inductive Exn where
  | dbError
  | blockDne
  | blockExists
  | blockParentDne
  | txDne
  | txExists
  | outputDne
  | keyImageExists
  | difficulty (reason : DifficultyError)
  | cannotPopGenesis
  | inconsistentSizes
  | badGet
  deriving DecidableEq, Repr

/-! ## Rows -/

/-- `mdb_block_info`; the two halves of the cumulative difficulty are one number. -/
structure BlockInfo where
  height : Nat
  timestamp : Nat
  coins : Nat
  weight : Nat
  diff : Nat
  hash : Hash
  cumRct : Nat
  longTermBlockWeight : Nat
  deriving DecidableEq, Repr

/-- `txindex`. -/
structure TxIndex where
  txId : Nat
  unlockHeight : Nat
  blockId : Nat
  deriving DecidableEq, Repr

/-- `outtx`. -/
structure OutTx where
  outputId : Nat
  txHash : Hash
  localIndex : Nat
  deriving DecidableEq, Repr

/-- `output_data_t`; a row of a non-zero amount has no commitment. -/
structure OutputData where
  pubkey : EcPoint
  unlockHeight : Nat
  height : Nat
  commitment : Option EcPoint
  deriving DecidableEq, Repr

/-- `outkey`. -/
structure OutKey where
  amountIndex : Nat
  outputId : Nat
  data : OutputData
  deriving DecidableEq, Repr

/-- The part of a transaction before its prunable data. -/
structure TransactionBase where
  version : Nat
  unlockHeight : Nat
  vin : List TxIn
  vout : List TxOut
  extra : List UInt8
  type : RctType
  ecdhEncryptedData : List Nat
  outputCommits : List EcPoint
  fee : Nat
  deriving DecidableEq, Repr

namespace TransactionBase

/-- The stored part of a transaction. -/
def of (tx : Transaction) : TransactionBase :=
  { version := tx.version
    unlockHeight := tx.unlockHeight
    vin := tx.vin
    vout := tx.vout
    extra := tx.extra
    type := tx.ringct.type
    ecdhEncryptedData := tx.ringct.ecdhEncryptedData
    outputCommits := tx.ringct.outputCommits
    fee := tx.ringct.fee }

/-- The transaction with its prunable data appended. -/
def append (base : TransactionBase) (prunable : RctDataPrunable) : Transaction :=
  { version := base.version
    unlockHeight := base.unlockHeight
    vin := base.vin
    vout := base.vout
    extra := base.extra
    ringct :=
      { type := base.type
        ecdhEncryptedData := base.ecdhEncryptedData
        outputCommits := base.outputCommits
        fee := base.fee
        p := prunable } }

@[simp] theorem append_of (tx : Transaction) : (of tx).append tx.ringct.p = tx := rfl

end TransactionBase

/-- The tables of the main chain. -/
structure ChainTables where
  blocks : List Block
  blockInfo : List BlockInfo
  blockHeights : Table Hash Nat
  txIndices : Table Hash TxIndex
  txsPruned : Table Nat TransactionBase
  txsPrunable : Table Nat RctDataPrunable
  txsPrunableHash : Table Nat Hash
  txOutputs : Table Nat (List Nat)
  outputTxs : List OutTx
  outputAmounts : Table Nat OutKey
  spentKeys : List KeyImage
  deriving DecidableEq, Repr

namespace ChainTables

/-- The tables of a new database. -/
def empty : ChainTables :=
  { blocks := []
    blockInfo := []
    blockHeights := []
    txIndices := []
    txsPruned := []
    txsPrunable := []
    txsPrunableHash := []
    txOutputs := []
    outputTxs := []
    outputAmounts := []
    spentKeys := [] }

variable (db : ChainTables)

/-! ## Reading -/

/-- `height`. -/
def height : Nat :=
  db.blocks.length

/-- The `block_info` row of a height. -/
def getBlockInfo (height : Nat) : Except Exn BlockInfo :=
  match db.blockInfo[height]? with
  | some info => .ok info
  | none => .error .blockDne

/-- `get_block_timestamp`. -/
def getBlockTimestamp (height : Nat) : Except Exn Nat :=
  (db.getBlockInfo height).map (·.timestamp)

/-- `get_block_cumulative_difficulty`. -/
def getBlockCumulativeDifficulty (height : Nat) : Except Exn Nat :=
  (db.getBlockInfo height).map (·.diff)

/-- `get_block_already_generated_coins`. -/
def getBlockAlreadyGeneratedCoins (height : Nat) : Except Exn Nat :=
  (db.getBlockInfo height).map (·.coins)

/-- `get_block_hash_from_height`. -/
def getBlockHashFromHeight (height : Nat) : Except Exn Hash :=
  (db.getBlockInfo height).map (·.hash)

/-- `get_block_cumulative_rct_outputs`. -/
def getBlockCumulativeRctOutputs (heights : List Nat) : Except Exn (List Nat) :=
  if heights.any (db.height ≤ ·) then .error .blockDne
  else heights.mapM fun height => (db.getBlockInfo height).map (·.cumRct)

/-- `block_exists`. -/
def blockExists (hash : Hash) : Bool :=
  db.blockHeights.has hash

/-- `get_block_height`. -/
def getBlockHeight (hash : Hash) : Except Exn Nat :=
  match db.blockHeights.find hash with
  | some height => .ok height
  | none => .error .blockDne

/-- `top_block_hash`: the null hash for an empty chain. -/
def topBlockHash : Except Exn Hash :=
  if db.height = 0 then .ok 0 else db.getBlockHashFromHeight (db.height - 1)

/-- `tx_exists`. -/
def txExists (hash : Hash) : Bool :=
  db.txIndices.has hash

/-- `get_tx_blob` followed by parsing. -/
def getTx? (hash : Hash) : Option Transaction := do
  let index ← db.txIndices.find hash
  let base ← db.txsPruned.find index.txId
  let prunable ← db.txsPrunable.find index.txId
  return base.append prunable

/-- `get_tx_count`. -/
def getTxCount : Nat :=
  db.txsPruned.length

/-- `num_outputs`. -/
def numOutputs : Nat :=
  db.outputTxs.length

/-- `get_num_outputs`. -/
def getNumOutputs (amount : Nat) : Nat :=
  (db.outputAmounts.filter (·.1 = amount)).length

/-- `has_output_key_image`. -/
def hasOutputKeyImage (image : KeyImage) : Bool :=
  decide (image ∈ db.spentKeys)

/-- The row of an amount and an amount index. -/
def findOutput (amount index : Nat) : Option OutKey :=
  (db.outputAmounts.find? fun row => row.1 = amount ∧ row.2.amountIndex = index).map Prod.snd

end ChainTables

end Memero
