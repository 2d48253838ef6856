import Memero.Database.Ledger

/-!
# Popping undoes adding

`pop_block` on tables that `add_block` has just extended returns the block and its
transactions, last one first, and restores every table. Each removal meets the row written
last, so the argument runs backwards through the pushes.
-/

namespace Memero

open List

open Exec

namespace ChainTables

variable {env : Env}

/-- `remove_tx_outputs` and `add_transaction` agree on which outputs are stored under
amount zero. -/
def Regular (tx : Transaction) : Prop :=
  (decide (2 ≤ tx.version) && tx.isCoinbase) = (tx.hasGenInput && decide (tx.version = 2))

variable {tx : Transaction} {db : ChainTables}

theorem Regular.storedAmount (regular : Regular tx) (env : Env) (index : Nat) (out : TxOut) :
    (storedOutput env tx index out).1.amount =
      if decide (2 ≤ tx.version) && tx.isCoinbase then 0 else out.amount := by
  rw [regular]
  unfold storedOutput
  by_cases miner : tx.hasGenInput = true ∧ tx.version = 2
  · simp [miner]
  · rw [if_neg miner]
    by_cases old : tx.hasGenInput = true ∧ tx.version = 1
    · simp [old]
    · simp [old, miner]

/-! ## Outputs -/

theorem removeOutput_run_of_head {amount : Nat} (row : OutKey) {outTx : OutTx} {txs : List OutTx}
    {amounts : Table Nat OutKey} (headTx : db.outputTxs = outTx :: txs)
    (same : outTx.outputId = row.outputId)
    (headAmount : db.outputAmounts = (amount, row) :: amounts) :
    (removeOutput amount row.amountIndex).run db =
      (.ok (), { db with outputTxs := txs, outputAmounts := amounts }) := by
  have found : db.findOutput amount row.amountIndex = some row := by
    simp [findOutput, headAmount]
  simp [removeOutput, found, headTx, headAmount, same]

theorem removeOutputs_pushOutputs (regular : Regular tx) (txHash : Hash) (index : Nat)
    (outs : List TxOut) (base db : ChainTables)
    (sameTxs : db.outputTxs = (pushOutputs env tx txHash index outs base).outputTxs)
    (sameAmounts : db.outputAmounts = (pushOutputs env tx txHash index outs base).outputAmounts) :
    (forEach (fun item : TxOut × Nat =>
        removeOutput (if decide (2 ≤ tx.version) && tx.isCoinbase then 0
          else item.1.amount) item.2)
        (outs.zip (outputIndices env tx txHash index outs base)).reverse).run db =
      (.ok (), { db with
        outputTxs := base.outputTxs, outputAmounts := base.outputAmounts }) := by
  induction outs generalizing index base with
  | nil =>
    simp only [pushOutputs] at sameTxs sameAmounts
    simp [forEach, ← sameTxs, ← sameAmounts]
  | cons out rest ih =>
    simp only [outputIndices, zip_cons_cons, reverse_cons]
    rw [forEach_append, bind_ok (ih _ _ sameTxs sameAmounts)]
    simp only [forEach]
    rw [← regular.storedAmount env index out]
    exact bind_ok (removeOutput_run_of_head
      (base.newOutKey (storedOutput env tx index out).1 tx.unlockHeight
        (storedOutput env tx index out).2) rfl rfl rfl)

/-! ## Key images -/

theorem removeSpentKeys_run (images : List KeyImage) (db : ChainTables) :
    (forEach removeSpentKey images).run db =
      (.ok (), { db with spentKeys := images.foldl List.erase db.spentKeys }) := by
  induction images generalizing db with
  | nil => rfl
  | cons image rest ih => exact ih _

theorem foldl_erase_append {images front : List KeyImage} (perm : front.Perm images)
    (spent : List KeyImage) : images.foldl List.erase (front ++ spent) = spent := by
  induction images generalizing front with
  | nil => simp [perm_nil.mp perm]
  | cons image rest ih =>
    have member : image ∈ front := perm.mem_iff.mpr (by simp)
    rw [foldl_cons, erase_append_left _ member]
    exact ih (by simpa using perm.erase image)

/-! ## Transactions -/

theorem getTx?_pushTransaction (tx : Transaction) (txHash : Hash) (db : ChainTables) :
    (db.pushTransaction env tx txHash).getTx? txHash = some tx := by
  unfold pushTransaction getTx?
  rw [pushOutputs_frame]
  simp [indexTransaction, pushTransactionData, pushTxOutputs, newTxIndex]

theorem removeTxOutputs_run (regular : Regular tx) (env : Env) (txHash : Hash) {txId : Nat}
    (base : ChainTables)
    (recorded : db.txOutputs.find txId = some (outputIndices env tx txHash 0 tx.vout base))
    (sameTxs : db.outputTxs = (pushOutputs env tx txHash 0 tx.vout base).outputTxs)
    (sameAmounts : db.outputAmounts = (pushOutputs env tx txHash 0 tx.vout base).outputAmounts) :
    (removeTxOutputs txId tx).run db =
      (.ok (), { db with
        outputTxs := base.outputTxs, outputAmounts := base.outputAmounts }) := by
  have complete : ¬ ((outputIndices env tx txHash 0 tx.vout base).isEmpty ∧ ¬ tx.vout.isEmpty) := by
    cases tx.vout <;> simp [outputIndices]
  unfold removeTxOutputs
  rw [get_bind_run]
  simp only [recorded, complete]
  exact removeOutputs_pushOutputs regular txHash 0 tx.vout base db sameTxs sameAmounts

theorem pushTransaction_eq (tx : Transaction) (txHash : Hash) (db : ChainTables) :
    db.pushTransaction env tx txHash =
      { db.indexTransaction tx txHash with
        txOutputs := db.txOutputs.put db.getTxCount
          (outputIndices env tx txHash 0 tx.vout (db.indexTransaction tx txHash))
        outputTxs :=
          (pushOutputs env tx txHash 0 tx.vout (db.indexTransaction tx txHash)).outputTxs
        outputAmounts :=
          (pushOutputs env tx txHash 0 tx.vout
            (db.indexTransaction tx txHash)).outputAmounts } := by
  unfold pushTransaction
  rw [pushOutputs_frame]
  rfl

theorem removeTransactionData_run (regular : Regular tx) {txHash : Hash} {index : TxIndex}
    {stored : TransactionBase} {prunableData : RctDataPrunable} {indices : Table Hash TxIndex}
    {pruned : Table Nat TransactionBase} {prunable : Table Nat RctDataPrunable}
    {hashes : Table Nat Hash} {outputs : Table Nat (List Nat)} (base : ChainTables)
    (indexRow : db.txIndices = indices.put txHash index)
    (prunedRow : db.txsPruned = pruned.put index.txId stored)
    (prunableRow : db.txsPrunable = prunable.put index.txId prunableData)
    (hashRow : db.txsPrunableHash = if 1 < tx.version then hashes.put index.txId 0 else hashes)
    (outputsRow : db.txOutputs =
      outputs.put index.txId (outputIndices env tx txHash 0 tx.vout base))
    (sameTxs : db.outputTxs = (pushOutputs env tx txHash 0 tx.vout base).outputTxs)
    (sameAmounts : db.outputAmounts = (pushOutputs env tx txHash 0 tx.vout base).outputAmounts) :
    (removeTransactionData txHash tx).run db =
      (.ok (), { db with
        txIndices := indices
        txsPruned := pruned
        txsPrunable := prunable
        txsPrunableHash := hashes
        txOutputs := outputs
        outputTxs := base.outputTxs
        outputAmounts := base.outputAmounts }) := by
  have located : db.txIndices.find txHash = some index := by simp [indexRow]
  have stored : db.txsPruned.has index.txId = true := by simp [Table.has, prunedRow]
  have hashed : ¬ (1 < tx.version ∧ ¬ db.txsPrunableHash.has index.txId) := by
    rintro ⟨modern, missing⟩
    simp [Table.has, hashRow, modern] at missing
  unfold removeTransactionData
  rw [get_bind_run]
  simp only [located, stored, not_true_eq_false, if_false, modify_bind_run, hashed]
  rw [bind_ok (removeTxOutputs_run regular env txHash base (by simp [outputsRow])
    (by exact sameTxs) (by exact sameAmounts))]
  have restored : (if 1 < tx.version then db.txsPrunableHash.erase index.txId
      else db.txsPrunableHash) = hashes := by
    rw [hashRow]
    split <;> simp
  simp [restored, indexRow, prunedRow, prunableRow, outputsRow]

/-- `remove_transaction` undoes `add_transaction`. -/
theorem removeTransaction_pushTransaction (regular : Regular tx) (txHash : Hash)
    (db : ChainTables) :
    (removeTransaction txHash).run (db.pushTransaction env tx txHash) = (.ok (), db) := by
  unfold removeTransaction
  rw [get_bind_run, getTx?_pushTransaction]
  rw [bind_ok (removeSpentKeys_run _ _), pushTransaction_spentKeys,
    foldl_erase_append (reverse_perm _), pushTransaction_eq]
  exact removeTransactionData_run regular (db.indexTransaction tx txHash)
    rfl rfl rfl rfl rfl rfl rfl

theorem pushTransactions_append (items : List (Hash × Transaction))
    (item : Hash × Transaction) (db : ChainTables) :
    db.pushTransactions env (items ++ [item]) =
      (db.pushTransactions env items).pushTransaction env item.2 item.1 := by
  induction items generalizing db with
  | nil => rfl
  | cons first rest ih => exact ih _

theorem popTransactions_pushTransactions (env : Env) (items : List (Hash × Transaction))
    (regular : ∀ item ∈ items, Regular item.2) (db : ChainTables) :
    (popTransactions (items.map Prod.fst).reverse).run (db.pushTransactions env items) =
      (.ok (items.map Prod.snd).reverse, db) := by
  induction items using reverseRecOn with
  | nil => rfl
  | append_singleton rest item ih =>
    have others := ih fun other member => regular other (by simp [member])
    simp only [map_append, map_cons, map_nil, reverse_append, reverse_cons, reverse_nil, nil_append,
      singleton_append, pushTransactions_append, popTransactions]
    rw [get_bind_run, getTx?_pushTransaction]
    rw [bind_ok (removeTransaction_pushTransaction (regular item (by simp)) _ _),
      bind_ok others, pure_run]

/-! ## Blocks -/

theorem removeBlock_pushBlockInfo (aligned : db.Aligned) (blk : Block) (info : BlockInfo) :
    removeBlock.run (db.pushBlockInfo blk info) = (.ok (), db) := by
  have top : (db.blockInfo ++ [info])[db.blocks.length]? = some info := by
    rw [← show db.blockInfo.length = db.blocks.length from aligned]
    simp
  have known : (db.pushBlockInfo blk info).blockExists info.hash = true := by
    simp [blockExists, pushBlockInfo, Table.has]
  have read : (reads fun db : ChainTables => db.getBlockInfo (db.height - 1)).run
      (db.pushBlockInfo blk info) = (.ok info, db.pushBlockInfo blk info) := by
    simp [reads_run, getBlockInfo, pushBlockInfo, height, top]
  unfold removeBlock
  rw [get_bind_run, if_neg (by simp [height, pushBlockInfo]),
    bind_ok read, if_pos known]
  simp [pushBlockInfo]

/-- `pop_block` undoes `add_block`. -/
theorem popBlock_pushBlock (aligned : db.Aligned) {entry : Entry}
    (sizes : entry.block.txHashes.length = entry.txs.length) (miner : Regular entry.block.minerTx)
    (regular : ∀ tx ∈ entry.txs, Regular tx) :
    (popBlock env).run (db.pushBlock env entry) = (.ok (entry.block, entry.txs.reverse), db) := by
  have hashes : (entry.block.txHashes.zip entry.txs).map Prod.fst = entry.block.txHashes :=
    map_fst_zip (Nat.le_of_eq sizes)
  have txs : (entry.block.txHashes.zip entry.txs).map Prod.snd = entry.txs :=
    map_snd_zip (Nat.le_of_eq sizes.symm)
  have popped := popTransactions_pushTransactions env
    (entry.block.txHashes.zip entry.txs)
    (fun item member => regular item.2 (of_mem_zip member).2)
    (db.pushTransaction env entry.block.minerTx (env.getTransactionHash entry.block.minerTx))
  rw [hashes, txs] at popped
  have filled := (fillBlock_sameBlocks env db entry).aligned aligned
  unfold popBlock
  rw [get_bind_run, pushBlock_blocks, getLast?_concat]
  rw [pushBlock_eq, bind_ok (removeBlock_pushBlockInfo filled _ _)]
  unfold fillBlock
  rw [bind_ok popped, bind_ok (removeTransaction_pushTransaction miner _ _), pure_run]

end ChainTables

end Memero
