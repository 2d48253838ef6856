import Memero.Database.Ledger

/-!
# What the transaction tables hold

Whatever happens while blocks are added and popped, also where an exception leaves a block
half written, the two tables that hold the parts of a transaction have the same keys in the
same order, and every block has its row of `block_info`. A transaction read back is therefore one that was stored, and any property of
the transactions given to `add_block` is a property of those `pop_block` returns.
-/

namespace Memero

open Table

open Exec

namespace ChainTables

/-- The rows of the transaction tables are the parts of good transactions. -/
def Stored (good : Transaction → Prop) (db : ChainTables) : Prop :=
  ∃ rows : Table Nat Transaction,
    db.txsPruned = rows.mapValues TransactionBase.of ∧
      db.txsPrunable = rows.mapValues (·.ringct.p) ∧ ∀ row ∈ rows, good row.2

/-- The invariant of the tables below: good transactions and at least `low` blocks, each with
its row of `block_info`. -/
structure Keeping (good : Transaction → Prop) (low : Nat) (db : ChainTables) : Prop where
  stored : db.Stored good
  height : low ≤ db.height
  aligned : db.Aligned

variable {good : Transaction → Prop} {low : Nat} {db : ChainTables}

/-- Only the two tables and the blocks matter. -/
theorem Keeping.of_eq {after : ChainTables} (kept : db.Keeping good low)
    (pruned : after.txsPruned = db.txsPruned) (prunable : after.txsPrunable = db.txsPrunable)
    (blocks : after.blocks = db.blocks) (blockInfo : after.blockInfo = db.blockInfo) :
    after.Keeping good low := by
  obtain ⟨⟨rows, first, second, all⟩, height, aligned⟩ := kept
  refine ⟨⟨rows, pruned.trans first, prunable.trans second, all⟩, ?_, ?_⟩
  · unfold ChainTables.height
    rw [blocks]
    exact height
  · unfold Aligned
    rw [blocks, blockInfo]
    exact aligned

/-! ## Reading -/

variable {tx : Transaction}

theorem Stored.getTx? (stored : db.Stored good) {hash : Hash} (found : db.getTx? hash = some tx) :
    good tx := by
  obtain ⟨rows, pruned, prunable, all⟩ := stored
  unfold ChainTables.getTx? at found
  rw [pruned, prunable] at found
  cases index : db.txIndices.find hash with
  | none => simp [index] at found
  | some row =>
    cases present : rows.find row.txId with
    | none => simp [index, find_mapValues, present] at found
    | some stored =>
      simp only [index, find_mapValues, present, Option.bind_eq_bind,
        Option.bind_some] at found
      cases found
      exact all _ (mem_of_find present)

/-! ## Adding -/

theorem Keeping.pushTransactionData (kept : db.Keeping good low) {blob : Transaction}
    (accepted : good blob) (txHash : Hash) :
    (db.pushTransactionData tx blob txHash).Keeping good low := by
  obtain ⟨⟨rows, pruned, prunable, all⟩, height, aligned⟩ := kept
  refine ⟨⟨rows.put db.getTxCount blob, ?_, ?_, ?_⟩, height, aligned⟩
  · rw [put_mapValues, ← pruned]
    rfl
  · rw [put_mapValues, ← prunable]
    rfl
  · intro row member
    rcases mem_put.mp member with rfl | old
    · exact accepted
    · exact all row old

theorem addSpentKey_keeps (image : KeyImage) : Keeps (Keeping good low) (addSpentKey image) := by
  intro db kept
  simp only [addSpentKey, ensures_bind, ensures_ite]
  exact ⟨fun _ => kept, fun _ => kept.of_eq rfl rfl rfl rfl⟩

variable (txHash : Hash) (env : Env)

theorem addOutputs_keeps (tx : Transaction) (txHash : Hash) (index : Nat) (outs : List TxOut) :
    Keeps (Keeping good low) (addOutputs env tx txHash index outs) := by
  induction outs generalizing index with
  | nil => exact fun _ => id
  | cons out rest ih =>
    intro db kept
    simp only [addOutputs, addOutput, ensures_bind,
      ensures_ite]
    refine ⟨fun _ => kept, fun _ => ?_⟩
    exact ih (index + 1) _ (kept.of_eq rfl rfl rfl rfl)

theorem addTransaction_keeps {blob : Transaction} (accepted : good blob) (txHash : Hash) :
    Keeps (Keeping good low) (addTransaction env tx blob txHash) := by
  refine (Keeps.forEach fun image _ => addSpentKey_keeps image).bind fun _ => ?_
  refine Keeps.bind ?_ fun txId => (addOutputs_keeps env tx txHash 0 tx.vout).bind
    fun indices => ?_
  · intro db kept
    simp only [addTransactionData, ensures_bind, ensures_ite]
    exact ⟨fun _ => kept, fun _ => kept.pushTransactionData accepted txHash⟩
  · intro db kept
    exact kept.of_eq rfl rfl rfl rfl

theorem addBlockInfo_keeps (blk : Block) (weight longTerm difficulty coins rctOuts : Nat)
    (blkHash : Hash) : Keeps (Keeping good low)
      (addBlockInfo blk weight longTerm difficulty coins rctOuts blkHash) := by
  intro db kept
  have written : ∀ info, (db.pushBlockInfo blk info).Keeping good low := by
    intro info
    refine ⟨kept.stored, Nat.le_trans kept.height ?_, ?_⟩
    · simp [ChainTables.height, pushBlockInfo]
    · simpa [Aligned, pushBlockInfo] using kept.aligned
  simp only [addBlockInfo, ensures_bind, ensures_ite]
  refine ⟨fun _ => kept, fun _ => ⟨fun _ => written _, fun _ => ?_⟩⟩
  cases db.blockHeights.find blk.prevId with
  | none => exact kept
  | some parent =>
    simp only [ensures_ite]
    refine ⟨fun _ => kept, fun _ => ⟨fun _ => written _, fun _ => ?_⟩⟩
    cases db.getBlockInfo (db.height - 1) with
    | error exception => exact kept
    | ok previous => exact written _

theorem addBlock_keeps {blk : Block} {weight longTerm difficulty coins : Nat}
    {txs : List (Transaction × Transaction)} (miner : good blk.minerTx)
    (accepted : ∀ item ∈ txs, good item.2) :
    Keeps (Keeping good low) (addBlock env blk weight longTerm difficulty coins txs) := by
  intro db kept
  unfold addBlock
  rw [ensures_ite]
  refine ⟨fun _ => kept, fun _ => ?_⟩
  refine ((addTransaction_keeps env miner _).bind fun _ =>
    (Keeps.forEach fun item member => ?_).bind fun _ =>
      addBlockInfo_keeps _ _ _ _ _ _ _) db kept
  exact addTransaction_keeps env (accepted item.2 (List.of_mem_zip member).2) item.1

/-! ## Removing -/

theorem Keeping.eraseTransaction (kept : db.Keeping good low) (txId : Nat) :
    ({ db with
      txsPruned := db.txsPruned.erase txId
      txsPrunable := db.txsPrunable.erase txId } : ChainTables).Keeping good low := by
  obtain ⟨⟨rows, pruned, prunable, all⟩, height, aligned⟩ := kept
  refine ⟨⟨rows.erase txId, ?_, ?_, ?_⟩, height, aligned⟩
  · rw [← erase_mapValues, ← pruned]
  · rw [← erase_mapValues, ← prunable]
  · intro row member
    exact all row (mem_of_mem_erase member)

theorem removeOutput_keeps (amount index : Nat) :
    Keeps (Keeping good low) (removeOutput amount index) := by
  intro db kept
  simp only [removeOutput, ensures_bind, ensures_get]
  cases db.findOutput amount index with
  | none => exact kept
  | some row =>
    simp only [ensures_ite]
    exact ⟨fun _ => kept.of_eq rfl rfl rfl rfl, fun _ => kept⟩

theorem removeTxOutputs_keeps (txId : Nat) (tx : Transaction) :
    Keeps (Keeping good low) (removeTxOutputs txId tx) := by
  intro db kept
  simp only [removeTxOutputs, ensures_bind, ensures_get]
  cases db.txOutputs.find txId with
  | none => exact kept
  | some indices =>
    simp only [ensures_ite]
    exact ⟨fun _ => kept,
      fun _ => Keeps.forEach (fun item _ => removeOutput_keeps _ item.2) db kept⟩

theorem removeTransactionData_keeps (tx : Transaction) :
    Keeps (Keeping good low) (removeTransactionData txHash tx) := by
  intro db kept
  simp only [removeTransactionData, ensures_bind, ensures_get]
  cases db.txIndices.find txHash with
  | none => exact kept
  | some index =>
    have erased := kept.eraseTransaction index.txId
    simp only [ensures_ite, ensures_bind]
    refine ⟨fun _ => kept, fun _ => ⟨fun _ => erased, fun _ => ?_⟩⟩
    refine (removeTxOutputs_keeps index.txId tx _ ?_).mono ?_ fun _ => id
    · exact erased.of_eq rfl rfl rfl rfl
    · intro done after kept
      exact kept.of_eq rfl rfl rfl rfl

theorem removeTransaction_keeps : Keeps (Keeping good low) (removeTransaction txHash) := by
  intro db kept
  simp only [removeTransaction, ensures_bind, ensures_get]
  cases db.getTx? txHash with
  | none => exact kept
  | some tx =>
    refine ((Keeps.forEach fun image _ => ?_).bind fun _ =>
      removeTransactionData_keeps txHash tx) db kept
    exact fun inner kept => kept.of_eq rfl rfl rfl rfl

theorem popTransactions_ensures (hashes : List Hash) (kept : db.Keeping good low) :
    (popTransactions hashes).Ensures db
      (fun txs after => after.Keeping good low ∧ ∀ tx ∈ txs, good tx) (Keeping good low) := by
  induction hashes generalizing db with
  | nil => exact ⟨kept, by simp⟩
  | cons txHash rest ih =>
    simp only [popTransactions, ensures_bind, ensures_get]
    cases found : db.getTx? txHash with
    | none => exact kept
    | some tx =>
      rw [ensures_bind]
      refine (removeTransaction_keeps txHash db kept).mono ?_ fun _ => id
      intro done middle kept'
      rw [ensures_bind]
      refine (ih kept').mono ?_ fun _ => id
      intro others after reached
      refine ⟨reached.1, ?_⟩
      intro other member
      rcases List.mem_cons.mp member with rfl | member
      · exact kept.stored.getTx? found
      · exact reached.2 other member

/-- `pop_block` removes at most one block and returns stored transactions. -/
theorem popBlock_ensures (kept : db.Keeping good (low + 1)) :
    (popBlock env).Ensures db
      (fun popped after => after.Keeping good low ∧ ∀ tx ∈ popped.2, good tx)
      (Keeping good low) := by
  have lower : db.Keeping good low :=
    ⟨kept.stored, Nat.le_of_succ_le kept.height, kept.aligned⟩
  simp only [popBlock, ensures_bind, ensures_get]
  cases db.blocks.getLast? with
  | none => exact lower
  | some blk =>
    simp only [removeBlock, ensures_bind, ensures_ite, ensures_reads]
    refine ⟨fun _ => lower, fun _ => ⟨fun info _ => ⟨fun _ => ?_, fun _ => lower⟩,
      fun _ _ => lower⟩⟩
    have removed : ({ db with
        blocks := db.blocks.dropLast
        blockInfo := db.blockInfo.dropLast
        blockHeights := db.blockHeights.erase info.hash } : ChainTables).Keeping good low := by
      refine ⟨kept.stored, ?_, ?_⟩
      · have height := kept.height
        simp only [ChainTables.height, List.length_dropLast] at height ⊢
        exact Nat.le_sub_one_of_lt height
      · simpa [Aligned] using congrArg (· - 1) kept.aligned
    refine (popTransactions_ensures _ removed).mono ?_ fun _ => id
    intro txs middle reached
    exact (removeTransaction_keeps _ middle reached.1).mono
      (fun _ _ kept => ⟨kept, reached.2⟩) fun _ => id

end ChainTables

end Memero
