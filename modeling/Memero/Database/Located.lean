import Memero.Database.Undo

/-!
# Reading the ledger back

The transactions of the main chain as the tables give them: the miner transaction of each
block and, for each transaction hash of the block, the stored transaction. On tables that
hold a ledger these are the transactions of the ledger, and the spent key images are theirs.
-/

namespace Memero

open List

namespace ChainTables

variable {env : Env}

/-- The transactions of the main chain. -/
def transactions (db : ChainTables) : List Transaction :=
  db.blocks.flatMap fun blk => blk.minerTx :: blk.txHashes.filterMap db.getTx?

/-! ## Stored transactions stay -/

/-- The ids in the index are below the number of transactions. -/
def Indexed (db : ChainTables) : Prop :=
  ∀ hash index, db.txIndices.find hash = some index → index.txId < db.getTxCount

/-- Every transaction of the first tables is found in the second. -/
def Located (before after : ChainTables) : Prop :=
  ∀ hash tx, before.getTx? hash = some tx → after.getTx? hash = some tx

variable (tx : Transaction) (txHash : Hash)

theorem pushTransaction_txsPruned (db : ChainTables) :
    (db.pushTransaction env tx txHash).txsPruned =
      db.txsPruned.put db.getTxCount (TransactionBase.of tx) := by
  rw [pushTransaction_eq]
  rfl

theorem pushTransaction_txsPrunable (db : ChainTables) :
    (db.pushTransaction env tx txHash).txsPrunable =
      db.txsPrunable.put db.getTxCount tx.ringct.p := by
  rw [pushTransaction_eq]
  rfl

variable {db : ChainTables} {ledger : Ledger}

theorem Indexed.pushTransaction (indexed : db.Indexed) (env : Env) (tx : Transaction)
    (txHash : Hash) : (db.pushTransaction env tx txHash).Indexed := by
  intro hash index found
  have count : (db.pushTransaction env tx txHash).getTxCount = db.getTxCount + 1 := by
    simp [getTxCount, pushTransaction_txsPruned, Table.put]
  rw [pushTransaction_txIndices] at found
  rw [count]
  by_cases same : txHash = hash
  · rw [same, Table.find_put_self] at found
    cases found
    exact Nat.lt_succ_self _
  · rw [Table.find_put_of_ne _ _ same] at found
    exact Nat.lt_succ_of_lt (indexed hash index found)

theorem Indexed.located_pushTransaction (indexed : db.Indexed) (env : Env) {tx : Transaction}
    {txHash : Hash} (new : db.txExists txHash = false) :
    db.Located (db.pushTransaction env tx txHash) := by
  intro hash other found
  unfold getTx? at found ⊢
  cases position : db.txIndices.find hash with
  | none => simp [position] at found
  | some index =>
    have different : txHash ≠ hash := by
      rintro rfl
      rw [txExists, Table.has, position] at new
      cases new
    have older : db.getTxCount ≠ index.txId :=
      Nat.ne_of_gt (indexed hash index position)
    rw [position] at found
    rw [pushTransaction_txIndices, pushTransaction_txsPruned, pushTransaction_txsPrunable,
      Table.find_put_of_ne _ _ different, position]
    simpa [Table.find_put_of_ne _ _ older] using found

variable {items : List (Hash × Transaction)}

/-- Fresh transactions are found once they are added, and so are the older ones. -/
theorem pushTransactions_located (indexed : db.Indexed) (fresh : TxsFresh env items db) :
    (db.pushTransactions env items).Indexed ∧ db.Located (db.pushTransactions env items) ∧
      ∀ item ∈ items, (db.pushTransactions env items).getTx? item.1 = some item.2 := by
  induction items generalizing db with
  | nil => exact ⟨indexed, fun _ _ => id, by simp⟩
  | cons item rest ih =>
    obtain ⟨first, others⟩ := fresh
    obtain ⟨indexedAfter, located, found⟩ :=
      ih (indexed.pushTransaction env item.2 item.1) others
    refine ⟨indexedAfter, ?_, ?_⟩
    · intro hash tx present
      exact located hash tx (indexed.located_pushTransaction env first.new hash tx present)
    · intro other member
      rcases mem_cons.mp member with rfl | member
      · exact located _ _ (getTx?_pushTransaction _ _ _)
      · exact found other member

theorem pushTransactions_nodup (nodup : db.spentKeys.Nodup) (fresh : TxsFresh env items db) :
    (db.pushTransactions env items).spentKeys.Nodup := by
  induction items generalizing db with
  | nil => exact nodup
  | cons item rest ih =>
    obtain ⟨first, others⟩ := fresh
    refine ih ?_ others
    rw [pushTransaction_spentKeys]
    refine nodup_append.mpr ⟨(reverse_perm _).nodup_iff.mpr first.nodup, nodup, ?_⟩
    rintro image spends other spent rfl
    exact first.unspent image (mem_reverse.mp spends) spent

/-! ## Blocks -/

/-- The transactions of a block with their hashes, in the order they are added. -/
def contents (env : Env) (entry : Entry) : List (Hash × Transaction) :=
  (env.getTransactionHash entry.block.minerTx, entry.block.minerTx) ::
    entry.block.txHashes.zip entry.txs

theorem BlockFresh.contents {entry : Entry} (fresh : db.BlockFresh env entry) :
    TxsFresh env (ChainTables.contents env entry) db :=
  ⟨fresh.miner, fresh.txs⟩

/-- A ledger whose blocks were all fresh when they were added. -/
inductive Grown (env : Env) : Ledger → Prop where
  | nil : Grown env []
  | snoc {below : Ledger} {entry : Entry} (grown : Grown env below)
      (fresh : (ofLedger env below).BlockFresh env entry) : Grown env (below ++ [entry])

variable (grown : Grown env ledger)
include grown

theorem Grown.indexed : (ofLedger env ledger).Indexed := by
  induction grown with
  | nil => exact fun _ _ found => by cases found
  | snoc grown fresh ih =>
    rw [ofLedger_append]
    exact (pushTransactions_located ih fresh.contents).1

/-- Every transaction of the ledger is found under its hash. -/
theorem Grown.getTx? :
    ∀ entry ∈ ledger, ∀ item ∈ contents env entry,
      (ofLedger env ledger).getTx? item.1 = some item.2 := by
  induction grown with
  | nil => simp
  | snoc grown fresh ih =>
    obtain ⟨-, located, found⟩ := pushTransactions_located grown.indexed fresh.contents
    intro other member item present
    rw [ofLedger_append]
    rcases mem_append.mp member with old | new
    · exact located _ _ (ih other old item present)
    · rw [mem_singleton.mp new] at present
      exact found item present

theorem Grown.sizes : ∀ entry ∈ ledger, entry.block.txHashes.length = entry.txs.length := by
  induction grown with
  | nil => simp
  | snoc grown fresh ih =>
    intro other member
    rcases mem_append.mp member with old | new
    · exact ih other old
    · rw [mem_singleton.mp new]
      exact fresh.sizes

theorem Grown.spentKeys_nodup : (ofLedger env ledger).spentKeys.Nodup := by
  induction grown with
  | nil => exact nodup_nil
  | snoc grown fresh ih =>
    have nodup := pushTransactions_nodup ih fresh.contents
    rw [ofLedger_append]
    exact nodup

/-- The hashes of a block read back its transactions. -/
theorem Grown.filterMap_getTx? {entry : Entry} (member : entry ∈ ledger) :
    entry.block.txHashes.filterMap (ofLedger env ledger).getTx? = entry.txs := by
  have sizes := grown.sizes entry member
  have hashes : (entry.block.txHashes.zip entry.txs).map Prod.fst = entry.block.txHashes :=
    map_fst_zip (Nat.le_of_eq sizes)
  have txs : (entry.block.txHashes.zip entry.txs).map Prod.snd = entry.txs :=
    map_snd_zip (Nat.le_of_eq sizes.symm)
  have read : ∀ item ∈ entry.block.txHashes.zip entry.txs,
      (ofLedger env ledger).getTx? item.1 = some item.2 :=
    fun item present => grown.getTx? entry member item (mem_cons_of_mem _ present)
  calc entry.block.txHashes.filterMap (ofLedger env ledger).getTx?
      = (entry.block.txHashes.zip entry.txs).filterMap
          fun item => (ofLedger env ledger).getTx? item.1 := by
        rw [← hashes, filterMap_map, hashes]
        rfl
    _ = (entry.block.txHashes.zip entry.txs).filterMap fun item => some item.2 :=
        filterMap_congr read
    _ = entry.txs := by
        simp [txs]

theorem Grown.transactions :
    (ofLedger env ledger).transactions =
      ledger.flatMap fun entry => entry.block.minerTx :: entry.txs := by
  unfold ChainTables.transactions
  rw [ofLedger_blocks, flatMap_map]
  refine flatMap_congr fun entry member => ?_
  rw [grown.filterMap_getTx? member]

/-- The spent key images are those of the transactions of the main chain. -/
theorem Grown.spentKeys :
    (ofLedger env ledger).spentKeys =
      ((ofLedger env ledger).transactions.flatMap Transaction.keyImages).reverse := by
  rw [ofLedger_spentKeys env ledger grown.sizes, grown.transactions, flatMap_assoc]
  rfl

end ChainTables

end Memero
