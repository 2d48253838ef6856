import Memero.Blockchain.Scan
import Memero.Database.Located

/-!
# Where the tables place a transaction

For a transaction of the main chain the tables give the height of its block and, for each of its
outputs, the index under which the output is found. Adding more blocks leaves both as they are.
-/

namespace Memero

open List Table

namespace ChainTables

variable {env : Env}

/-- The indices under which the outputs of a transaction are found, one for each output. -/
structure Lists (env : Env) (db : ChainTables) (hash : Hash) (tx : Transaction) (first : Nat)
    (outs : List TxOut) (indices : List Nat) : Prop where
  length : indices.length = outs.length
  found : ∀ (position : Nat) (out : TxOut) (index : Nat), outs[position]? = some out →
    indices[position]? = some index →
      ∃ row, db.findOutput (storedOutput env tx (first + position) out).1.amount index = some row ∧
        row.data.pubkey = out.outputPublicKey ∧
        { outputId := row.outputId, txHash := hash, localIndex := first + position } ∈ db.outputTxs

/-- What the tables hold of a transaction in the block at a height. -/
structure Places (env : Env) (db : ChainTables) (height : Nat) (hash : Hash) (tx : Transaction) :
    Prop where
  index : ∃ index indices, db.txIndices.find hash = some index ∧ index.blockId = height ∧
    index.txId < db.getTxCount ∧ db.txOutputs.find index.txId = some indices ∧
      db.Lists env hash tx 0 tx.vout indices

/-! ## Outputs -/

variable {db : ChainTables}

theorem pushOutputs_keeps (env : Env) (tx : Transaction) (txHash : Hash) (index : Nat)
    (outs : List TxOut) (numbered : db.Numbered) :
    (pushOutputs env tx txHash index outs db).Numbered ∧
      db.Retains (pushOutputs env tx txHash index outs db) ∧
      ∀ row ∈ db.outputTxs, row ∈ (pushOutputs env tx txHash index outs db).outputTxs := by
  refine pushOutputs_induction (P := fun after => after.Numbered ∧ db.Retains after ∧
    ∀ row ∈ db.outputTxs, row ∈ after.outputTxs) ?_ env tx txHash index outs
    ⟨numbered, Retains.refl db, fun _ => id⟩
  intro middle txHash out localIndex unlockHeight commitment kept
  exact ⟨kept.1.pushOutput txHash out localIndex unlockHeight commitment,
    kept.2.1.trans (kept.1.retains_pushOutput txHash out localIndex unlockHeight commitment),
    fun row member => mem_cons_of_mem _ (kept.2.2 row member)⟩

variable {hash : Hash} {tx : Transaction} {height : Nat}

theorem Lists.retained {after : ChainTables} {first : Nat} {outs : List TxOut} {indices : List Nat}
    (lists : db.Lists env hash tx first outs indices) (retains : db.Retains after)
    (kept : ∀ row ∈ db.outputTxs, row ∈ after.outputTxs) :
    after.Lists env hash tx first outs indices where
  length := lists.length
  found := by
    intro position out index isOut isIndex
    obtain ⟨row, found, key, owner⟩ := lists.found position out index isOut isIndex
    exact ⟨row, retains _ _ _ found, key, kept _ owner⟩

theorem storedOutput_key (env : Env) (tx : Transaction) (index : Nat) (out : TxOut) :
    (storedOutput env tx index out).1.outputPublicKey = out.outputPublicKey := by
  unfold storedOutput
  split
  · rfl
  · split <;> rfl

/-- The indices that adding the outputs records. -/
theorem lists_outputIndices (env : Env) (tx : Transaction) (txHash : Hash) (first : Nat)
    (outs : List TxOut) (numbered : db.Numbered) :
    (pushOutputs env tx txHash first outs db).Lists env txHash tx first outs
      (outputIndices env tx txHash first outs db) := by
  induction outs generalizing first db with
  | nil => exact ⟨rfl, fun _ _ _ isOut => by simp at isOut⟩
  | cons out rest ih =>
    have pushed := numbered.pushOutput txHash (storedOutput env tx first out).1 first
      tx.unlockHeight (storedOutput env tx first out).2
    have others := ih (first + 1) pushed
    refine ⟨congrArg (· + 1) others.length, ?_⟩
    intro position other index isOut isIndex
    cases position with
    | zero =>
      cases isOut
      cases isIndex
      -- the row is the newest one when it is written and stays
      obtain ⟨-, retains, kept⟩ := pushOutputs_keeps env tx txHash (first + 1) rest pushed
      refine ⟨_, retains _ _ (db.newOutKey (storedOutput env tx first out).1 tx.unlockHeight
        (storedOutput env tx first out).2) ?_, ?_, kept _ mem_cons_self⟩
      · simp [findOutput, pushOutput, put, newOutKey]
      · exact storedOutput_key env tx first out
    | succ position =>
      obtain ⟨row, found, key, owner⟩ := others.found position other index isOut isIndex
      rw [Nat.add_right_comm] at found owner
      exact ⟨row, found, key, owner⟩

/-! ## Transactions -/

theorem pushTransaction_txOutputs (tx : Transaction) (txHash : Hash) (db : ChainTables) :
    (db.pushTransaction env tx txHash).txOutputs = db.txOutputs.put db.getTxCount
      (outputIndices env tx txHash 0 tx.vout (db.indexTransaction tx txHash)) := by
  rw [pushTransaction_eq]

theorem pushTransaction_getTxCount (tx : Transaction) (txHash : Hash) (db : ChainTables) :
    (db.pushTransaction env tx txHash).getTxCount = db.getTxCount + 1 := by
  simp [getTxCount, pushTransaction_txsPruned, put]

theorem pushTransaction_outputs (env : Env) (tx : Transaction) (txHash : Hash)
    (numbered : db.Numbered) :
    (db.pushTransaction env tx txHash).Numbered ∧
      db.Retains (db.pushTransaction env tx txHash) ∧
      ∀ row ∈ db.outputTxs, row ∈ (db.pushTransaction env tx txHash).outputTxs := by
  have indexed : (db.indexTransaction tx txHash).Numbered := numbered.of_eq rfl
  obtain ⟨after, retains, kept⟩ := pushOutputs_keeps env tx txHash 0 tx.vout indexed
  exact ⟨after.of_eq rfl, (Retains.of_eq rfl).trans (retains.trans (Retains.of_eq rfl)), kept⟩

/-- A new transaction is placed in the block that comes next. -/
theorem places_pushTransaction (tx : Transaction) (txHash : Hash) (numbered : db.Numbered) :
    (db.pushTransaction env tx txHash).Places env db.height txHash tx where
  index := by
    have indexed : (db.indexTransaction tx txHash).Numbered := numbered.of_eq rfl
    have lists := lists_outputIndices env tx txHash 0 tx.vout indexed
    refine ⟨db.newTxIndex tx, outputIndices env tx txHash 0 tx.vout (db.indexTransaction tx txHash),
      ?_, rfl, ?_, ?_, lists.retained (Retains.of_eq rfl) fun _ => id⟩
    · rw [pushTransaction_txIndices, find_put_self]
    · rw [pushTransaction_getTxCount]
      exact Nat.lt_succ_self _
    · rw [pushTransaction_txOutputs]
      exact find_put_self _ _ _

/-- A transaction stays where it is when another one is added. -/
theorem Places.pushTransaction (places : db.Places env height hash tx) (numbered : db.Numbered)
    {other : Transaction} {otherHash : Hash} (new : db.txExists otherHash = false) :
    (db.pushTransaction env other otherHash).Places env height hash tx where
  index := by
    obtain ⟨index, indices, found, block, older, outputs, lists⟩ := places.index
    have different : otherHash ≠ hash := by
      rintro rfl
      rw [txExists, has, found] at new
      cases new
    obtain ⟨-, retains, kept⟩ := pushTransaction_outputs env other otherHash numbered
    refine ⟨index, indices, ?_, block, ?_, ?_, lists.retained retains kept⟩
    · rw [pushTransaction_txIndices, find_put_of_ne _ _ different, found]
    · rw [pushTransaction_getTxCount]
      exact Nat.lt_succ_of_lt older
    · rw [pushTransaction_txOutputs, find_put_of_ne _ _ (Nat.ne_of_gt older), outputs]

theorem pushTransactions_places {items : List (Hash × Transaction)} (numbered : db.Numbered)
    (fresh : TxsFresh env items db) :
    (∀ height hash tx, db.Places env height hash tx →
        (db.pushTransactions env items).Places env height hash tx) ∧
      ∀ item ∈ items, (db.pushTransactions env items).Places env db.height item.1 item.2 := by
  induction items generalizing db with
  | nil => exact ⟨fun _ _ _ => id, by simp⟩
  | cons item rest ih =>
    obtain ⟨first, others⟩ := fresh
    obtain ⟨pushed, -, -⟩ := pushTransaction_outputs env item.2 item.1 numbered
    obtain ⟨kept, placed⟩ := ih pushed others
    have height : (db.pushTransaction env item.2 item.1).height = db.height :=
      (pushTransaction_sameBlocks env item.2 item.1 db).height
    refine ⟨fun height hash tx places => kept _ _ _ (places.pushTransaction numbered first.new), ?_⟩
    intro other member
    rcases mem_cons.mp member with rfl | member
    · exact kept _ _ _ (places_pushTransaction _ _ numbered)
    · rw [← height]
      exact placed other member

variable {entry : Entry} {ledger : Ledger}

/-- The row of the block itself changes no place. -/
theorem Places.pushBlock
    (places : (db.pushTransactions env (contents env entry)).Places env height hash tx) :
    (db.pushBlock env entry).Places env height hash tx where
  index := by
    obtain ⟨index, indices, found, block, older, outputs, lists⟩ := places.index
    exact ⟨index, indices, found, block, older, outputs, lists.retained (Retains.of_eq rfl) fun _ => id⟩

/-- Every transaction of the ledger is placed in its block. -/
theorem Grown.places (grown : Grown env ledger) (block : ledger[height]? = some entry)
    {item : Hash × Transaction} (member : item ∈ contents env entry) :
    (ofLedger env ledger).Places env height item.1 item.2 := by
  induction grown with
  | nil => simp at block
  | @snoc below top grown fresh ih =>
    obtain ⟨kept, placed⟩ := pushTransactions_places (ofLedger_numbered env below) fresh.contents
    rw [ofLedger_append]
    apply Places.pushBlock
    rcases Nat.lt_trichotomy height below.length with lower | same | higher
    · rw [getElem?_append_left lower] at block
      exact kept _ _ _ (ih block)
    · subst same
      rw [getElem?_concat_length, Option.some.injEq] at block
      rw [← block] at member
      simpa using placed item member
    · rw [getElem?_eq_none (by simpa using Nat.succ_le_of_lt higher)] at block
      cases block

/-! ## Only the transactions of the ledger are indexed -/

theorem pushTransactions_txIndices_keys (items : List (Hash × Transaction)) (db : ChainTables) :
    (db.pushTransactions env items).txIndices.map Prod.fst =
      (items.map Prod.fst).reverse ++ db.txIndices.map Prod.fst := by
  induction items generalizing db with
  | nil => rfl
  | cons item rest ih =>
    rw [pushTransactions, ih, pushTransaction_txIndices]
    simp [put]

theorem exists_of_txExists (present : (ofLedger env ledger).txExists hash = true) :
    ∃ (height : Nat) (entry : Entry), ledger[height]? = some entry ∧ ∃ tx, (hash, tx) ∈ contents env entry := by
  induction ledger using reverseRecOn with
  | nil => cases present
  | append_singleton below entry ih =>
    have keys : ((ofLedger env (below ++ [entry])).txIndices.map Prod.fst) =
        ((contents env entry).map Prod.fst).reverse ++ (ofLedger env below).txIndices.map Prod.fst := by
      rw [ofLedger_append]
      exact pushTransactions_txIndices_keys (contents env entry) _
    have exists_key (db : ChainTables) : db.txExists hash = true ↔ hash ∈ db.txIndices.map Prod.fst := by
      rw [txExists, ← not_iff_not, Bool.not_eq_true, has_eq_false, find_eq_none_iff]
    rw [exists_key, keys, mem_append, mem_reverse, ← exists_key] at present
    rcases present with new | old
    · obtain ⟨item, member, rfl⟩ := mem_map.mp new
      exact ⟨below.length, entry, by simp, item.2, member⟩
    · obtain ⟨height, other, block, tx, member⟩ := ih old
      have lower := (List.getElem?_eq_some_iff.mp block).1
      exact ⟨height, other, by rw [getElem?_append_left lower, block], tx, member⟩

end ChainTables

end Memero
