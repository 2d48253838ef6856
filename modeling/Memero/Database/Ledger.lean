import Memero.Database.Write

/-!
# The ledger

The abstract content of the chain tables is a ledger: the blocks of the main chain from
the genesis block up, each with its transactions and the totals recorded for it.
`ChainTables.ofLedger` gives the tables that hold a ledger, and `addBlock_eq_ok` says that
`add_block` on tables holding a ledger succeeds exactly when the block adds nothing that
is already there, and then the tables hold the ledger with the block appended.
-/

namespace Memero

open List Nat Prod

open Exec

open Exec (bind_eq_ok)

/-- A block of the main chain with its transactions and recorded totals. -/
structure Entry where
  block : Block
  txs : List Transaction
  weight : Nat
  longTermBlockWeight : Nat
  cumulativeDifficulty : Nat
  alreadyGeneratedCoins : Nat
  deriving DecidableEq, Repr

/-- The key images a block spends. -/
def Entry.keyImages (entry : Entry) : List KeyImage :=
  entry.block.minerTx.keyImages ++ entry.txs.flatMap Transaction.keyImages

/-- The main chain from the genesis block up. -/
abbrev Ledger : Type :=
  List Entry

namespace ChainTables

/-- The tables after `add_transaction`'s loop over the outputs. -/
def pushOutputs (env : Env) (tx : Transaction) (txHash : Hash) :
    Nat → List TxOut → ChainTables → ChainTables
  | _, [], db => db
  | index, out :: rest, db =>
    pushOutputs env tx txHash (index + 1) rest
      (db.pushOutput txHash (storedOutput env tx index out).1 index tx.unlockHeight
        (storedOutput env tx index out).2)

/-- The amount indices that loop records. -/
def outputIndices (env : Env) (tx : Transaction) (txHash : Hash) :
    Nat → List TxOut → ChainTables → List Nat
  | _, [], _ => []
  | index, out :: rest, db =>
    db.getNumOutputs (storedOutput env tx index out).1.amount ::
      outputIndices env tx txHash (index + 1) rest
        (db.pushOutput txHash (storedOutput env tx index out).1 index tx.unlockHeight
          (storedOutput env tx index out).2)

/-- The tables after `add_transaction` has spent the key images and indexed the
transaction. -/
def indexTransaction (tx : Transaction) (txHash : Hash) (db : ChainTables) : ChainTables :=
  ({ db with spentKeys := tx.keyImages.reverse ++ db.spentKeys }).pushTransactionData tx tx txHash

/-- The tables after `add_transaction`. -/
def pushTransaction (env : Env) (tx : Transaction) (txHash : Hash) (db : ChainTables) :
    ChainTables :=
  (pushOutputs env tx txHash 0 tx.vout (db.indexTransaction tx txHash)).pushTxOutputs
    db.getTxCount (outputIndices env tx txHash 0 tx.vout (db.indexTransaction tx txHash))

/-- The tables after `add_transaction` for every transaction of a list. -/
def pushTransactions (env : Env) : List (Hash × Transaction) → ChainTables → ChainTables
  | [], db => db
  | (txHash, tx) :: rest, db => pushTransactions env rest (db.pushTransaction env tx txHash)

/-- The confidential output count that a new block continues from. -/
def previousRct (db : ChainTables) (blk : Block) : Nat :=
  if db.height = 0 ∨ blk.majorVersion < 4 then 0
  else (db.blockInfo[db.height - 1]?.map (·.cumRct)).getD 0

/-- The tables after `add_block`. -/
def pushBlock (env : Env) (db : ChainTables) (entry : Entry) : ChainTables :=
  let mined := db.pushTransaction env entry.block.minerTx
    (env.getTransactionHash entry.block.minerTx)
  let filled := mined.pushTransactions env (entry.block.txHashes.zip entry.txs)
  filled.pushBlockInfo entry.block
    (filled.newBlockInfo entry.block entry.weight entry.longTermBlockWeight
      entry.cumulativeDifficulty entry.alreadyGeneratedCoins
      (numRctOuts entry.block entry.txs) (filled.previousRct entry.block)
      (env.getBlockHash entry.block))

/-- The tables that hold a ledger. -/
def ofLedger (env : Env) (ledger : Ledger) : ChainTables :=
  ledger.foldl (pushBlock env) empty

@[simp] theorem ofLedger_nil (env : Env) : ofLedger env [] = empty := rfl

theorem ofLedger_append (env : Env) (ledger : Ledger) (entry : Entry) :
    ofLedger env (ledger ++ [entry]) = (ofLedger env ledger).pushBlock env entry := by
  simp [ofLedger]

/-! ## What the pushes leave alone -/

theorem pushOutputs_frame (env : Env) (tx : Transaction) (txHash : Hash) (index : Nat)
    (outs : List TxOut) (db : ChainTables) :
    pushOutputs env tx txHash index outs db =
      { db with
        outputTxs := (pushOutputs env tx txHash index outs db).outputTxs
        outputAmounts := (pushOutputs env tx txHash index outs db).outputAmounts } := by
  induction outs generalizing index db with
  | nil => rfl
  | cons out rest ih =>
    rw [pushOutputs, ih]
    rfl

/-- The part of the tables that only whole blocks change. -/
def SameBlocks (db after : ChainTables) : Prop :=
  after.blocks = db.blocks ∧ after.blockInfo = db.blockInfo ∧ after.blockHeights = db.blockHeights

variable {db after : ChainTables} {env : Env}

theorem SameBlocks.trans {middle : ChainTables} (first : db.SameBlocks middle)
    (second : middle.SameBlocks after) : db.SameBlocks after :=
  ⟨second.1.trans first.1, second.2.1.trans first.2.1, second.2.2.trans first.2.2⟩

section

variable (env : Env) (tx : Transaction) (txHash : Hash) (db : ChainTables)

theorem pushTransaction_sameBlocks : db.SameBlocks (db.pushTransaction env tx txHash) := by
  unfold pushTransaction
  rw [pushOutputs_frame]
  exact ⟨rfl, rfl, rfl⟩

theorem pushTransaction_spentKeys :
    (db.pushTransaction env tx txHash).spentKeys = tx.keyImages.reverse ++ db.spentKeys := by
  unfold pushTransaction
  rw [pushOutputs_frame]
  rfl

theorem pushTransaction_txIndices :
    (db.pushTransaction env tx txHash).txIndices = db.txIndices.put txHash (db.newTxIndex tx) := by
  unfold pushTransaction
  rw [pushOutputs_frame]
  rfl

end

theorem pushTransactions_sameBlocks (env : Env) (txs : List (Hash × Transaction))
    (db : ChainTables) : db.SameBlocks (db.pushTransactions env txs) := by
  induction txs generalizing db with
  | nil => exact ⟨rfl, rfl, rfl⟩
  | cons item rest ih =>
    exact (pushTransaction_sameBlocks env item.2 item.1 db).trans (ih _)

theorem pushTransactions_spentKeys (env : Env) (txs : List (Hash × Transaction))
    (db : ChainTables) :
    (db.pushTransactions env txs).spentKeys =
      (txs.flatMap fun item => item.2.keyImages).reverse ++ db.spentKeys := by
  induction txs generalizing db with
  | nil => rfl
  | cons item rest ih =>
    rw [pushTransactions, ih, pushTransaction_spentKeys]
    simp

/-- A block has one row in each of the tables indexed by height. -/
def Aligned (db : ChainTables) : Prop :=
  db.blockInfo.length = db.blocks.length

theorem SameBlocks.blockExists (same : db.SameBlocks after) (hash : Hash) :
    after.blockExists hash = db.blockExists hash := by
  simp [ChainTables.blockExists, same.2.2]

theorem SameBlocks.height (same : db.SameBlocks after) : after.height = db.height := by
  simp [ChainTables.height, same.1]

theorem SameBlocks.aligned (same : db.SameBlocks after) (aligned : db.Aligned) : after.Aligned := by
  unfold Aligned
  rw [same.1, same.2.1]
  exact aligned

/-! ## When the pushes happen -/

/-- A transaction that `add_transaction` accepts. -/
structure TxFresh (db : ChainTables) (tx : Transaction) (txHash : Hash) : Prop where
  nodup : tx.keyImages.Nodup
  unspent : ∀ image ∈ tx.keyImages, image ∉ db.spentKeys
  new : db.txExists txHash = false
  storable : tx.hasGenInput → tx.version = 1 → ∀ out ∈ tx.vout, out.amount ≠ 0

/-- Transactions that `add_transaction` accepts one after the other. -/
def TxsFresh (env : Env) : List (Hash × Transaction) → ChainTables → Prop
  | [], _ => True
  | (txHash, tx) :: rest, db =>
    db.TxFresh tx txHash ∧ TxsFresh env rest (db.pushTransaction env tx txHash)

/-- A block that `add_block` accepts. -/
structure BlockFresh (env : Env) (db : ChainTables) (entry : Entry) : Prop where
  sizes : entry.block.txHashes.length = entry.txs.length
  miner : db.TxFresh entry.block.minerTx (env.getTransactionHash entry.block.minerTx)
  txs : TxsFresh env (entry.block.txHashes.zip entry.txs)
    (db.pushTransaction env entry.block.minerTx (env.getTransactionHash entry.block.minerTx))
  new : db.blockExists (env.getBlockHash entry.block) = false
  parent : db.height ≠ 0 → db.blockHeights.find entry.block.prevId = some (db.height - 1)

/-! ## Adding succeeds exactly on fresh blocks -/

theorem addSpentKey_run (image : KeyImage) (db : ChainTables) :
    (addSpentKey image).run db =
      if image ∈ db.spentKeys then (.thrown .keyImageExists, db)
      else (.ok (), { db with spentKeys := image :: db.spentKeys }) := by
  simp [addSpentKey, hasOutputKeyImage]

variable {done : Unit} {tx : Transaction} {txHash : Hash} {entry : Entry}

theorem addSpentKeys_eq_ok {images : List KeyImage} :
    (forEach addSpentKey images).run db = (.ok done, after) ↔
      images.Nodup ∧ (∀ image ∈ images, image ∉ db.spentKeys) ∧
        after = { db with spentKeys := images.reverse ++ db.spentKeys } := by
  induction images generalizing db with
  | nil => simp [forEach, eq_comm]
  | cons image rest ih =>
    rw [forEach, bind_run, addSpentKey_run]
    by_cases spent : image ∈ db.spentKeys
    · simp [spent]
    · simp only [spent, if_false, ih, nodup_cons, mem_cons, forall_eq_or_imp, not_or,
        not_false_eq_true, true_and, reverse_cons, append_assoc]
      constructor
      · rintro ⟨nodup, unspent, rfl⟩
        exact ⟨⟨fun member => (unspent image member).1 rfl, nodup⟩,
          fun other member => (unspent other member).2, rfl⟩
      · rintro ⟨⟨new, nodup⟩, unspent, rfl⟩
        refine ⟨nodup, fun other member => ⟨?_, unspent other member⟩, rfl⟩
        rintro rfl
        exact new member

theorem storedOutput_unstorable {index : Nat} {out : TxOut} :
    ((storedOutput env tx index out).1.amount = 0 ∧
        (storedOutput env tx index out).2 = none) ↔
      tx.hasGenInput ∧ tx.version = 1 ∧ out.amount = 0 := by
  unfold storedOutput
  split
  · simp only [reduceCtorEq, and_false, false_iff]
    omega
  · split
    · simp_all
    · simp only [and_false]
      tauto

theorem addOutput_stored_run (env : Env) (tx : Transaction) (txHash : Hash) (index : Nat)
    (out : TxOut) (db : ChainTables) :
    (addOutput txHash (storedOutput env tx index out).1 index tx.unlockHeight
        (storedOutput env tx index out).2).run db =
      if tx.hasGenInput ∧ tx.version = 1 ∧ out.amount = 0 then (.thrown .dbError, db)
      else (.ok (db.getNumOutputs (storedOutput env tx index out).1.amount),
        db.pushOutput txHash (storedOutput env tx index out).1 index tx.unlockHeight
          (storedOutput env tx index out).2) := by
  simp only [addOutput, storedOutput_unstorable, get_bind_run, ite_run,
    throw_run, modify_bind_run, pure_run]

theorem addOutputs_eq_ok {index : Nat} {outs : List TxOut} {indices : List Nat} :
    (addOutputs env tx txHash index outs).run db = (.ok indices, after) ↔
      (tx.hasGenInput → tx.version = 1 → ∀ out ∈ outs, out.amount ≠ 0) ∧
        indices = outputIndices env tx txHash index outs db ∧
        after = pushOutputs env tx txHash index outs db := by
  induction outs generalizing index db indices after with
  | nil => simp [addOutputs, outputIndices, pushOutputs, eq_comm (a := db)]
  | cons out rest ih =>
    rw [addOutputs, bind_run, addOutput_stored_run]
    by_cases unstorable : tx.hasGenInput ∧ tx.version = 1 ∧ out.amount = 0
    · simp [unstorable]
    · simp only [unstorable, if_false, bind_eq_ok, ih, pure_run, Prod.mk.injEq,
        Outcome.ok.injEq, List.mem_cons, forall_eq_or_imp]
      constructor
      · rintro ⟨others, final, ⟨storable, rfl, rfl⟩, rfl, rfl⟩
        refine ⟨fun gen version => ⟨fun zero => unstorable ⟨gen, version, zero⟩,
          storable gen version⟩, rfl, rfl⟩
      · rintro ⟨storable, rfl, rfl⟩
        exact ⟨_, _, ⟨fun gen version => (storable gen version).2, rfl, rfl⟩, rfl, rfl⟩

theorem addTransactionData_eq_ok {blob : Transaction} {txId : Nat} :
    (addTransactionData tx blob txHash).run db = (.ok txId, after) ↔
      db.txExists txHash = false ∧ txId = db.getTxCount ∧
        after = db.pushTransactionData tx blob txHash := by
  by_cases exist : db.txExists txHash <;>
    simp [addTransactionData, exist, eq_comm (a := txId), eq_comm (a := after)]

theorem addTransaction_eq_ok :
    (addTransaction env tx tx txHash).run db = (.ok done, after) ↔
      db.TxFresh tx txHash ∧ after = db.pushTransaction env tx txHash := by
  simp only [addTransaction, bind_eq_ok, addSpentKeys_eq_ok, addTransactionData_eq_ok,
    addOutputs_eq_ok, modify_run, Prod.mk.injEq]
  constructor
  · rintro ⟨_, _, ⟨nodup, unspent, rfl⟩, _, _, ⟨new, rfl, rfl⟩, _, _,
      ⟨storable, rfl, rfl⟩, -, rfl⟩
    exact ⟨⟨nodup, unspent, new, storable⟩, rfl⟩
  · rintro ⟨fresh, rfl⟩
    exact ⟨(), _, ⟨fresh.nodup, fresh.unspent, rfl⟩, _, _, ⟨fresh.new, rfl, rfl⟩, _, _,
      ⟨fresh.storable, rfl, rfl⟩, trivial, rfl⟩

theorem addTransactions_eq_ok {hashes : List Hash} {txs : List Transaction} :
    (forEach (fun item : Hash × Transaction × Transaction =>
        addTransaction env item.2.1 item.2.2 item.1)
        (hashes.zip (txs.map fun tx => (tx, tx)))).run db = (.ok done, after) ↔
      TxsFresh env (hashes.zip txs) db ∧ after = db.pushTransactions env (hashes.zip txs) := by
  induction hashes generalizing txs db with
  | nil => simp [forEach, TxsFresh, pushTransactions, eq_comm (a := after)]
  | cons txHash rest ih =>
    cases txs with
    | nil => simp [forEach, TxsFresh, pushTransactions, eq_comm (a := after)]
    | cons tx others =>
      simp only [map_cons, zip_cons_cons, forEach, bind_eq_ok, addTransaction_eq_ok, ih]
      constructor
      · rintro ⟨_, _, ⟨fresh, rfl⟩, others, rfl⟩
        exact ⟨⟨fresh, others⟩, rfl⟩
      · rintro ⟨⟨fresh, others⟩, rfl⟩
        exact ⟨(), _, ⟨fresh, rfl⟩, others, rfl⟩

theorem addBlockInfo_eq_ok {blk : Block} {weight longTerm difficulty coins rctOuts : Nat}
    {blkHash : Hash} (aligned : db.Aligned) :
    (addBlockInfo blk weight longTerm difficulty coins rctOuts blkHash).run db =
        (.ok done, after) ↔
      db.blockExists blkHash = false ∧
        (db.height ≠ 0 → db.blockHeights.find blk.prevId = some (db.height - 1)) ∧
        after = db.pushBlockInfo blk (db.newBlockInfo blk weight longTerm difficulty coins
          rctOuts (db.previousRct blk) blkHash) := by
  unfold addBlockInfo previousRct
  rw [get_bind_run]
  by_cases exist : db.blockExists blkHash
  · simp [exist]
  · by_cases first : db.height = 0
    · simp [exist, first, eq_comm (a := after)]
    · have known : db.height - 1 < db.blockInfo.length := by
        rw [aligned]
        exact sub_lt (pos_of_ne_zero first) one_pos
      cases parent : db.blockHeights.find blk.prevId with
      | none => simp [exist, first]
      | some height =>
        by_cases top : height = db.height - 1
        · by_cases old : blk.majorVersion < 4 <;>
            simp [exist, first, top, old, getBlockInfo, known, eq_comm (a := after)]
        · simp [exist, first, top]

/-- `add_block` succeeds exactly on a fresh block, and then extends the tables by it. -/
theorem addBlock_eq_ok (aligned : db.Aligned) :
    (addBlock env entry.block entry.weight entry.longTermBlockWeight
        entry.cumulativeDifficulty entry.alreadyGeneratedCoins
        (entry.txs.map fun tx => (tx, tx))).run db = (.ok done, after) ↔
      db.BlockFresh env entry ∧ after = db.pushBlock env entry := by
  have mined := pushTransaction_sameBlocks env entry.block.minerTx
    (env.getTransactionHash entry.block.minerTx) db
  have filled := mined.trans (pushTransactions_sameBlocks env
    (entry.block.txHashes.zip entry.txs) _)
  have firsts : (entry.txs.map fun tx => (tx, tx)).map fst = entry.txs := by
    simp [Function.comp_def]
  unfold addBlock
  rw [length_map, firsts]
  by_cases sizes : entry.block.txHashes.length = entry.txs.length
  · simp only [sizes, ne_eq, not_true_eq_false, if_false, bind_eq_ok,
      addTransaction_eq_ok, addTransactions_eq_ok]
    constructor
    · rintro ⟨_, _, ⟨miner, rfl⟩, _, _, ⟨txs, rfl⟩, added⟩
      rw [addBlockInfo_eq_ok (filled.aligned aligned)] at added
      obtain ⟨new, parent, rfl⟩ := added
      refine ⟨⟨sizes, miner, txs, ?_, ?_⟩, rfl⟩
      · rwa [filled.blockExists] at new
      · rwa [filled.height, filled.2.2] at parent
    · rintro ⟨fresh, rfl⟩
      refine ⟨(), _, ⟨fresh.miner, rfl⟩, (), _, ⟨fresh.txs, rfl⟩, ?_⟩
      rw [addBlockInfo_eq_ok (filled.aligned aligned)]
      refine ⟨?_, ?_, rfl⟩
      · rw [filled.blockExists]
        exact fresh.new
      · rw [filled.height, filled.2.2]
        exact fresh.parent
  · simp only [sizes, ne_eq, not_false_eq_true, if_true, throw_run, Prod.mk.injEq,
      reduceCtorEq, false_and, false_iff, not_and]
    exact fun fresh => absurd fresh.sizes sizes

theorem blockFresh_of_addBlock (aligned : db.Aligned)
    (added : ((addBlock env entry.block entry.weight entry.longTermBlockWeight entry.cumulativeDifficulty entry.alreadyGeneratedCoins (entry.txs.map fun tx => (tx, tx))).run db).1 = .ok ()) :
    db.BlockFresh env entry :=
  ((addBlock_eq_ok aligned).mp (Prod.ext added rfl)).1

/-! ## Tables of a ledger -/

/-- The tables a block's own row is added to. -/
def fillBlock (env : Env) (db : ChainTables) (entry : Entry) : ChainTables :=
  (db.pushTransaction env entry.block.minerTx
    (env.getTransactionHash entry.block.minerTx)).pushTransactions env
      (entry.block.txHashes.zip entry.txs)

/-- The `block_info` row of a block added to the tables. -/
def infoOf (env : Env) (db : ChainTables) (entry : Entry) : BlockInfo :=
  (db.fillBlock env entry).newBlockInfo entry.block entry.weight entry.longTermBlockWeight
    entry.cumulativeDifficulty entry.alreadyGeneratedCoins
    (numRctOuts entry.block entry.txs) ((db.fillBlock env entry).previousRct entry.block)
    (env.getBlockHash entry.block)

theorem pushBlock_eq (env : Env) (db : ChainTables) (entry : Entry) :
    db.pushBlock env entry =
      (db.fillBlock env entry).pushBlockInfo entry.block (db.infoOf env entry) := rfl

/-! A property of the output rows that adding one output keeps is kept by a whole block, up to
the block's own row. -/

section Outputs

variable {P : ChainTables → Prop}
  (same : ∀ db after : ChainTables, after.outputAmounts = db.outputAmounts →
    after.blocks = db.blocks → P db → P after)
  (push : ∀ (db : ChainTables) (txHash : Hash) (out : TxOut) (localIndex unlockHeight : Nat)
    (commitment : Option EcPoint), P db →
      P (db.pushOutput txHash out localIndex unlockHeight commitment))

variable {db : ChainTables}

include push in
theorem pushOutputs_induction (env : Env) (tx : Transaction) (txHash : Hash) (index : Nat)
    (outs : List TxOut) (holds : P db) : P (pushOutputs env tx txHash index outs db) := by
  induction outs generalizing index db with
  | nil => exact holds
  | cons out rest ih => exact ih (index + 1) (push _ _ _ _ _ _ holds)

include same push

theorem pushTransaction_induction (env : Env) (tx : Transaction) (txHash : Hash) (holds : P db) :
    P (db.pushTransaction env tx txHash) := by
  have indexed : P (db.indexTransaction tx txHash) := same db _ rfl rfl holds
  have pushed := pushOutputs_induction push env tx txHash 0 tx.vout indexed
  exact same (pushOutputs env tx txHash 0 tx.vout (db.indexTransaction tx txHash)) _ rfl rfl pushed

theorem pushTransactions_induction (env : Env) (txs : List (Hash × Transaction)) (holds : P db) :
    P (db.pushTransactions env txs) := by
  induction txs generalizing db with
  | nil => exact holds
  | cons item rest ih =>
    exact ih (pushTransaction_induction same push env item.2 item.1 holds)

theorem fillBlock_induction (env : Env) (entry : Entry) (holds : P db) :
    P (db.fillBlock env entry) :=
  pushTransactions_induction same push env _ (pushTransaction_induction same push env _ _ holds)

end Outputs

section

variable (env : Env) (db : ChainTables) (entry : Entry)

theorem fillBlock_sameBlocks : db.SameBlocks (db.fillBlock env entry) :=
  (pushTransaction_sameBlocks _ _ _ _).trans (pushTransactions_sameBlocks _ _ _)

@[simp] theorem pushBlock_blocks :
    (db.pushBlock env entry).blocks = db.blocks ++ [entry.block] := by
  rw [pushBlock_eq, pushBlockInfo, (fillBlock_sameBlocks env db entry).1]

@[simp] theorem pushBlock_blockInfo :
    (db.pushBlock env entry).blockInfo = db.blockInfo ++ [db.infoOf env entry] := by
  rw [pushBlock_eq, pushBlockInfo, (fillBlock_sameBlocks env db entry).2.1]

@[simp] theorem pushBlock_blockHeights :
    (db.pushBlock env entry).blockHeights =
      db.blockHeights.put (env.getBlockHash entry.block) db.height := by
  have same := fillBlock_sameBlocks env db entry
  rw [pushBlock_eq, pushBlockInfo, same.2.2, same.height]
  rfl

end

theorem pushBlock_aligned (env : Env) (entry : Entry) (aligned : db.Aligned) :
    (db.pushBlock env entry).Aligned := by
  simp only [Aligned, pushBlock_blockInfo, pushBlock_blocks, length_append]
  exact congrArg (· + 1) aligned

section

variable (env : Env) (ledger : Ledger)

theorem ofLedger_aligned : (ofLedger env ledger).Aligned := by
  induction ledger using reverseRecOn with
  | nil => rfl
  | append_singleton rest entry ih =>
    rw [ofLedger_append]
    exact pushBlock_aligned env entry ih

theorem ofLedger_blocks : (ofLedger env ledger).blocks = ledger.map (·.block) := by
  induction ledger using reverseRecOn with
  | nil => rfl
  | append_singleton rest entry ih => simp [ofLedger_append, ih]

@[simp] theorem ofLedger_height : (ofLedger env ledger).height = ledger.length := by
  simp [height, ofLedger_blocks]

/-- A recorded value that depends only on the block's own entry is read back as it was
written, for every height. -/
theorem ofLedger_blockInfo_map {α : Type} (read : BlockInfo → α) (value : Entry → α)
    (recorded : ∀ db entry, read (infoOf env db entry) = value entry) :
    (ofLedger env ledger).blockInfo.map read = ledger.map value := by
  induction ledger using reverseRecOn with
  | nil => rfl
  | append_singleton rest entry ih => simp [ofLedger_append, ih, recorded]

end

/-- The `block_info` row of a block is the one it was added with. -/
theorem ofLedger_blockInfo_getElem? (env : Env) {ledger : Ledger} {height : Nat}
    (found : ledger[height]? = some entry) :
    (ofLedger env ledger).blockInfo[height]? =
      some (infoOf env (ofLedger env (ledger.take height)) entry) := by
  induction ledger using reverseRecOn with
  | nil => simp at found
  | append_singleton rest top ih =>
    have length : (ofLedger env rest).blockInfo.length = rest.length := by
      rw [ofLedger_aligned env rest, ofLedger_blocks, length_map]
    rw [ofLedger_append, pushBlock_blockInfo]
    rcases lt_trichotomy height rest.length with lower | same | higher
    · rw [getElem?_append_left lower] at found
      rw [getElem?_append_left (length ▸ lower), take_append_of_le_length (le_of_lt lower)]
      exact ih found
    · subst same
      rw [List.getElem?_append_right (Nat.le_refl _), Nat.sub_self,
        getElem?_cons_zero, Option.some.injEq] at found
      rw [List.getElem?_append_right (Nat.le_of_eq length), length, Nat.sub_self,
        getElem?_cons_zero, take_left, found]
    · rw [getElem?_eq_none (by simpa using succ_le_of_lt higher)] at found
      cases found

theorem pushBlock_spentKeys (env : Env) (db : ChainTables) (entry : Entry)
    (sizes : entry.block.txHashes.length = entry.txs.length) :
    (db.pushBlock env entry).spentKeys = entry.keyImages.reverse ++ db.spentKeys := by
  have second : (entry.block.txHashes.zip entry.txs).map snd = entry.txs :=
    map_snd_zip (le_of_eq sizes.symm)
  have images : ((entry.block.txHashes.zip entry.txs).flatMap fun item =>
      item.2.keyImages) = entry.txs.flatMap Transaction.keyImages := by
    rw [← flatMap_map snd Transaction.keyImages, second]
  change (db.fillBlock env entry).spentKeys = _
  rw [fillBlock, pushTransactions_spentKeys, pushTransaction_spentKeys, images]
  simp [Entry.keyImages]

/-- The key images spent along a ledger, in the order they were added. -/
def ledgerKeyImages (ledger : Ledger) : List KeyImage :=
  ledger.flatMap Entry.keyImages

theorem ofLedger_spentKeys (env : Env) (ledger : Ledger)
    (sizes : ∀ entry ∈ ledger, entry.block.txHashes.length = entry.txs.length) :
    (ofLedger env ledger).spentKeys = (ledgerKeyImages ledger).reverse := by
  induction ledger using reverseRecOn with
  | nil => rfl
  | append_singleton rest entry ih =>
    rw [ofLedger_append, pushBlock_spentKeys env _ entry (sizes entry (by simp)),
      ih fun other member => sizes other (by simp [member])]
    simp [ledgerKeyImages]

end ChainTables

end Memero
