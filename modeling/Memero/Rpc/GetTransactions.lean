import Memero.Database.Places
import Memero.Lib.Hex
import Memero.Node.Safety

/-!
# Looking transactions up

`core_rpc_server::on_get_transactions`. The chain answers for some of the requested hashes and the
pool for others; the answers are merged in the order of the request, and then walked together with
the request from its start. A hash that is nowhere shifts the walk, and a shifted walk meets such a
hash and throws: an answer without error is therefore one in which the hashes that are nowhere come
last.
-/

namespace Memero

open List

/-- Hexadecimal text. -/
abbrev HexText : Type :=
  List UInt8

/-- The statuses of the answer. -/
inductive LookupStatus where
  | ok
  | parseHex
  | sizeMismatch
  | txsIsEmpty
  | hashMismatch
  | failed
  deriving DecidableEq

/-- `res.status`. -/
def LookupStatus.text : LookupStatus → String
  | ok => "OK"
  | parseHex => "Failed to parse hex representation of transaction hash"
  | sizeMismatch => "Failed, size of data mismatch"
  | txsIsEmpty => "Failed: internal error - txs is empty"
  | hashMismatch => "Failed: tx hash mismatch"
  | failed => "Failed"

/-- `sizeof(crypto::hash)`. -/
def hashSize : Nat :=
  32

/-- `pod_to_hex` of a hash. -/
def podToHex (hash : Hash) : HexText :=
  Hex.encode (littleEndian hashSize hash)

/-- A requested hash. -/
def parseHash (text : HexText) : Except LookupStatus Hash :=
  match Hex.decode text with
  | none => .error .parseHex
  | some bytes =>
    if bytes.length = hashSize then .ok (ofBigEndian bytes.reverse) else .error .sizeMismatch

/-- `COMMAND_RPC_GET_TRANSACTIONS::entry`; `asHex` is what the blob encodes. -/
structure TxEntry where
  txHash : HexText
  asHex : Transaction
  inPool : Bool
  doubleSpendSeen : Bool
  blockHeight : Nat
  blockTimestamp : Nat
  receivedTimestamp : Nat
  outputIndices : List Nat
  relayed : Bool
  deriving DecidableEq

/-- `COMMAND_RPC_GET_TRANSACTIONS::response`. -/
structure LookupResponse where
  txs : List TxEntry
  missedTx : List HexText
  status : LookupStatus
  deriving DecidableEq

/-- An answer with an error. -/
def LookupResponse.fail (status : LookupStatus) : LookupResponse where
  txs := []
  missedTx := []
  status := status

namespace ChainTables

variable (db : ChainTables)

/-- `get_tx_block_height`. -/
def getTxBlockHeight (hash : Hash) : Except Exn Nat :=
  match db.txIndices.find hash with
  | some index => .ok index.blockId
  | none => .error .txDne

/-- `get_tx_outputs_gindexs`. -/
def getTxOutputsGindexs (hash : Hash) : Option (List Nat) := do
  let index ← db.txIndices.find hash
  db.txOutputs.find index.txId

/-- A transaction with the hash it was asked for by. -/
def named (hash : Hash) : Option (Hash × Transaction) :=
  (db.getTx? hash).map fun tx => (hash, tx)

/-- `get_split_transactions_blobs`: what is found, and what is missed. -/
def getSplitTransactionsBlobs (hashes : List Hash) : List (Hash × Transaction) × List Hash :=
  (hashes.filterMap db.named, hashes.filter fun hash => (db.getTx? hash).isNone)

end ChainTables

/-- What the loop over the pool has made so far. -/
structure PoolMerge where
  sortedTxs : List (Hash × Transaction)
  missedTxs : List Hash
  txsProcessed : Nat
  /-- `per_tx_pool_tx_info`, whose keys are those of `pool_tx_hashes`. -/
  perTxPoolTxInfo : Table Hash PoolTx

/-- The row of the pool that is printed like a hash. -/
def Pool.printedAs (pool : Pool) (hash : Hash) : Option (Hash × PoolTx) :=
  pool.txpool.find? fun row => podToHex hash = podToHex row.1

/-- The loop of `on_get_transactions` that sorts to match the original request. -/
def mergePool (pool : Pool) (txs : List (Hash × Transaction)) :
    List Hash → PoolMerge → Except LookupStatus PoolMerge
  | [], merge => .ok merge
  | hash :: rest, merge =>
    if hash ∉ merge.missedTxs then
      match txs[merge.txsProcessed]? with
      | none => .error .txsIsEmpty
      | some tx =>
        if tx.1 ≠ hash then .error .hashMismatch
        else mergePool pool txs rest { merge with
          sortedTxs := merge.sortedTxs ++ [tx]
          txsProcessed := merge.txsProcessed + 1 }
    else
      match pool.printedAs hash with
      | some row =>
        mergePool pool txs rest { merge with
          sortedTxs := merge.sortedTxs ++ [(hash, row.2.blob)]
          missedTxs := merge.missedTxs.erase hash
          perTxPoolTxInfo := merge.perTxPoolTxInfo.set hash row.2 }
      | none => mergePool pool txs rest merge

/-- `std::numeric_limits<uint64_t>::max()`. -/
def uint64Max : Nat :=
  2 ^ 64 - 1

/-- The entry for a hash; no entry when its output indices are not found. -/
def fillEntry (db : ChainTables) (info : Table Hash PoolTx) (text : HexText) (hash : Hash)
    (tx : Transaction) : Except Exn (Option TxEntry) :=
  match info.find hash with
  | some row =>
    .ok (some
      { txHash := text
        asHex := tx
        inPool := true
        doubleSpendSeen := row.details.doubleSpendSeen
        blockHeight := uint64Max
        blockTimestamp := uint64Max
        receivedTimestamp := row.details.receiveTime
        outputIndices := []
        relayed := row.details.relayed })
  | none => do
      let height ← db.getTxBlockHeight hash
      let timestamp ← db.getBlockTimestamp height
      return (db.getTxOutputsGindexs hash).map fun indices =>
        { txHash := text
          asHex := tx
          inPool := false
          doubleSpendSeen := false
          blockHeight := height
          blockTimestamp := timestamp
          receivedTimestamp := 0
          outputIndices := indices
          relayed := false }

/-- The walk over the transactions, with the request and its hashes from their start; no entries
when one of them fails. There are no more transactions than hashes. -/
def fillEntries (db : ChainTables) (info : Table Hash PoolTx) :
    List (HexText × Hash) → List (Hash × Transaction) → Except Exn (Option (List TxEntry))
  | (text, hash) :: requests, (_, tx) :: txs => do
      match ← fillEntry db info text hash tx with
      | none => return none
      | some entry => do
          let entries ← fillEntries db info requests txs
          return entries.map (entry :: ·)
  | _, _ => .ok (some [])

/-- The transactions, what is missed and the pool's rows, before the entries are made. -/
def gatherTransactions (db : ChainTables) (pool : Pool) (hashes : List Hash) :
    Except LookupStatus PoolMerge :=
  let (txs, missed) := db.getSplitTransactionsBlobs hashes
  if missed.isEmpty then
    .ok { sortedTxs := txs, missedTxs := missed, txsProcessed := 0, perTxPoolTxInfo := [] }
  else
    mergePool pool txs hashes
      { sortedTxs := [], missedTxs := missed, txsProcessed := 0, perTxPoolTxInfo := [] }

/-- `on_get_transactions`. -/
def onGetTransactions (db : ChainTables) (pool : Pool) (txsHashes : List HexText) :
    Except Exn LookupResponse :=
  match txsHashes.mapM parseHash with
  | .error status => .ok (.fail status)
  | .ok hashes =>
    match gatherTransactions db pool hashes with
    | .error status => .ok (.fail status)
    | .ok merge => do
        match ← fillEntries db merge.perTxPoolTxInfo (txsHashes.zip hashes) merge.sortedTxs with
        | none => return .fail .failed
        | some entries =>
          return { txs := entries, missedTx := merge.missedTxs.map podToHex, status := .ok }

/-! ## Where a hash is found -/

/-- What the chain or else the pool gives for a hash. -/
def resolve (db : ChainTables) (pool : Pool) (hash : Hash) : Option (Hash × Transaction) :=
  db.named hash <|> (pool.printedAs hash).map fun row => (hash, row.2.blob)

/-- Rows of the pool, for hashes that the chain does not have. -/
def InfoSound (db : ChainTables) (pool : Pool) (info : Table Hash PoolTx) : Prop :=
  ∀ hash row, info.find hash = some row →
    db.getTx? hash = none ∧ (pool.printedAs hash).map Prod.snd = some row

section Merge

variable {db : ChainTables} {pool : Pool}
variable {hash : Hash}

theorem resolve_of_getTx {tx : Transaction} (found : db.getTx? hash = some tx) :
    resolve db pool hash = some (hash, tx) := by
  simp [resolve, ChainTables.named, found]

theorem resolve_of_missing (missing : db.getTx? hash = none) :
    resolve db pool hash = (pool.printedAs hash).map fun row => (hash, row.2.blob) := by
  simp [resolve, ChainTables.named, missing]

theorem InfoSound.set {info : Table Hash PoolTx} (sound : InfoSound db pool info)
    {row : Hash × PoolTx} (missing : db.getTx? hash = none)
    (found : pool.printedAs hash = some row) : InfoSound db pool (info.set hash row.2) := by
  intro other stored located
  by_cases same : other = hash
  · rw [same, Table.find_set_self] at located
    cases located
    rw [same]
    exact ⟨missing, by rw [found, Option.map_some]⟩
  · rw [Table.find_set_of_ne _ _ same] at located
    exact sound other stored located

/-- The merge keeps the order of the request. -/
theorem mergePool_eq {txs : List (Hash × Transaction)} {hashes lost : List Hash} {merge : PoolMerge}
    (distinct : hashes.Nodup) (other : ∀ hash ∈ hashes, hash ∉ lost)
    (missed : merge.missedTxs = lost ++ hashes.filter fun hash => (db.getTx? hash).isNone)
    (pending : txs.drop merge.txsProcessed = hashes.filterMap db.named)
    (sound : InfoSound db pool merge.perTxPoolTxInfo) :
    ∃ after, mergePool pool txs hashes merge = .ok after ∧
      after.sortedTxs = merge.sortedTxs ++ hashes.filterMap (resolve db pool) ∧
      after.missedTxs = lost ++ hashes.filter (fun hash => (resolve db pool hash).isNone) ∧
      InfoSound db pool after.perTxPoolTxInfo := by
  induction hashes generalizing lost merge with
  | nil => exact ⟨merge, rfl, by simp, by simpa using missed, sound⟩
  | cons hash rest ih =>
    obtain ⟨fresh, distinctRest⟩ := nodup_cons.mp distinct
    have otherRest : ∀ next ∈ rest, next ∉ lost :=
      fun next member => other next (mem_cons_of_mem _ member)
    have notLost := other hash mem_cons_self
    cases found : db.getTx? hash with
    | some tx =>
      have kept : hash ∉ merge.missedTxs := by
        rw [missed]
        simp [notLost, found]
      have ahead : txs.drop merge.txsProcessed = (hash, tx) :: rest.filterMap db.named := by
        have named : db.named hash = some (hash, tx) := by simp [ChainTables.named, found]
        rw [pending, filterMap_cons_some named]
      have next : txs[merge.txsProcessed]? = some (hash, tx) := by
        rw [← head?_drop, ahead, head?_cons]
      have pendingRest : txs.drop (merge.txsProcessed + 1) = rest.filterMap db.named := by
        rw [← tail_drop, ahead, tail_cons]
      obtain ⟨after, ran, sorted, missedAfter, soundAfter⟩ := @ih lost
        { merge with
          sortedTxs := merge.sortedTxs ++ [(hash, tx)]
          txsProcessed := merge.txsProcessed + 1 } distinctRest otherRest
        (by rw [missed, filter_cons_of_neg (by simp [found])]) pendingRest sound
      have resolved := @resolve_of_getTx db pool hash tx found
      exact ⟨after, by simp [mergePool, kept, next, ran], by simp [sorted, resolved],
        by simp [missedAfter, resolved], soundAfter⟩
    | none =>
      have listed : merge.missedTxs = lost ++ hash :: rest.filter fun hash =>
          (db.getTx? hash).isNone := by
        rw [missed, filter_cons_of_pos (by simp [found])]
      have gone : hash ∈ merge.missedTxs := by
        rw [listed]
        simp
      have pendingRest : txs.drop merge.txsProcessed = rest.filterMap db.named := by
        rw [pending, filterMap_cons_none (by simp [ChainTables.named, found])]
      cases inPool : pool.printedAs hash with
      | some row =>
        have resolved : resolve db pool hash = some (hash, row.2.blob) := by
          rw [resolve_of_missing found, inPool, Option.map_some]
        obtain ⟨after, ran, sorted, missedAfter, soundAfter⟩ := @ih lost
          { merge with
            sortedTxs := merge.sortedTxs ++ [(hash, row.2.blob)]
            missedTxs := merge.missedTxs.erase hash
            perTxPoolTxInfo := merge.perTxPoolTxInfo.set hash row.2 } distinctRest otherRest
          (by rw [listed, erase_append_right _ notLost, erase_cons_head])
          pendingRest (sound.set found inPool)
        exact ⟨after, by simp [mergePool, gone, inPool, ran], by simp [sorted, resolved],
          by simp [missedAfter, resolved], soundAfter⟩
      | none =>
        have unresolved : resolve db pool hash = none := by
          rw [resolve_of_missing found, inPool, Option.map_none]
        have otherNext : ∀ next ∈ rest, next ∉ lost ++ [hash] := by
          intro next member
          rw [mem_append, mem_singleton, not_or]
          refine ⟨otherRest next member, ?_⟩
          rintro rfl
          exact fresh member
        obtain ⟨after, ran, sorted, missedAfter, soundAfter⟩ := @ih (lost ++ [hash]) merge
          distinctRest otherNext (by rw [listed, append_assoc]; rfl) pendingRest sound
        exact ⟨after, by simp [mergePool, gone, inPool, ran], by simp [sorted, unresolved],
          by simp [missedAfter, unresolved], soundAfter⟩

/-- Before the entries are made, the transactions and what is missed are in the order of the
request. -/
theorem gatherTransactions_eq {hashes : List Hash} (distinct : hashes.Nodup) :
    ∃ merge, gatherTransactions db pool hashes = .ok merge ∧
      merge.sortedTxs = hashes.filterMap (resolve db pool) ∧
      merge.missedTxs = hashes.filter (fun hash => (resolve db pool hash).isNone) ∧
      InfoSound db pool merge.perTxPoolTxInfo := by
  have none_sound : InfoSound db pool [] := fun _ _ found => by cases found
  unfold gatherTransactions ChainTables.getSplitTransactionsBlobs
  dsimp only
  split
  · rename_i complete
    have found : ∀ hash ∈ hashes, ∃ tx, db.getTx? hash = some tx := by
      simpa [Option.ne_none_iff_exists'] using complete
    refine ⟨_, rfl, ?_, ?_, none_sound⟩
    · refine filterMap_congr fun hash member => ?_
      obtain ⟨tx, here⟩ := found hash member
      rw [resolve_of_getTx here, ChainTables.named, here, Option.map_some]
    · refine filter_congr fun hash member => ?_
      obtain ⟨tx, here⟩ := found hash member
      rw [resolve_of_getTx here, here]
      rfl
  · obtain ⟨after, ran, sorted, missed, sound⟩ := @mergePool_eq db pool (hashes.filterMap db.named)
      hashes []
      { sortedTxs := []
        missedTxs := hashes.filter fun hash => (db.getTx? hash).isNone
        txsProcessed := 0
        perTxPoolTxInfo := [] } distinct (by simp) rfl rfl none_sound
    exact ⟨after, ran, sorted, missed, sound⟩

end Merge

/-! ## The walk -/

/-- A list and what a partial function makes of it, walked together from their starts: if the walk
meets no item without a value, it is in step, and the items it does not reach have none. -/
theorem filterMap_in_step {α β : Type} {f : α → Option β} {items : List α}
    (valued : ∀ pair ∈ items.zip (items.filterMap f), (f pair.1).isSome = true) :
    (∀ pair ∈ items.zip (items.filterMap f), f pair.1 = some pair.2) ∧
      ∀ item ∈ items.drop (items.filterMap f).length, f item = none := by
  induction items with
  | nil => simp
  | cons item rest ih =>
    cases value : f item with
    | some result =>
      rw [filterMap_cons_some value] at valued ⊢
      obtain ⟨step, past⟩ := ih fun pair member => valued pair (mem_cons_of_mem _ member)
      exact ⟨forall_mem_cons.mpr ⟨value, step⟩, past⟩
    | none =>
      rw [filterMap_cons_none value] at valued ⊢
      cases later : rest.filterMap f with
      | nil =>
        refine ⟨by simp, ?_⟩
        have empty := filterMap_eq_nil_iff.mp later
        exact forall_mem_cons.mpr ⟨value, empty⟩
      | cons first others =>
        rw [later] at valued
        have here := valued (item, first) mem_cons_self
        rw [value] at here
        cases here

variable {db : ChainTables} {pool : Pool}

/-- The entries of a walk that ends, each made from its place. -/
theorem fillEntries_eq {info : Table Hash PoolTx} {requests : List (HexText × Hash)}
    {txs : List (Hash × Transaction)} {entries : List TxEntry}
    (filled : fillEntries db info requests txs = .ok (some entries)) :
    (requests.zip txs).map (fun place => fillEntry db info place.1.1 place.1.2 place.2.2) =
      entries.map fun entry => .ok (some entry) := by
  induction requests generalizing txs entries with
  | nil =>
    cases filled
    rfl
  | cons request rest ih =>
    cases txs with
    | nil =>
      cases filled
      rfl
    | cons tx txs =>
      obtain ⟨first, made, filled⟩ := except_bind_eq_ok.mp filled
      cases first with
      | none => cases filled
      | some entry =>
        obtain ⟨others, walked, same⟩ := except_bind_eq_ok.mp filled
        cases others with
        | none => cases same
        | some others =>
          cases same
          rw [zip_cons_cons, map_cons, map_cons, made, ih walked]

/-! ## What an answer says -/

/-- An entry that describes the transaction with a hash. -/
def TxEntry.Describes (env : Env) (ledger : Ledger) (pool : Pool) (entry : TxEntry) (hash : Hash) :
    Prop :=
  if entry.inPool then
    (∃ row, (hash, row) ∈ pool.txpool ∧ row.blob = entry.asHex) ∧ entry.blockHeight = uint64Max ∧
      entry.outputIndices = []
  else
    ∃ block, ledger[entry.blockHeight]? = some block ∧
      (hash, entry.asHex) ∈ ChainTables.contents env block ∧
      (ChainTables.ofLedger env ledger).Lists env hash entry.asHex 0 entry.asHex.vout
        entry.outputIndices

/-- The number of entries of an answer for a hash. -/
def LookupResponse.entriesFor (response : LookupResponse) (hash : Hash) : Nat :=
  response.txs.countP fun entry => parseHash entry.txHash = .ok hash

/-- Every row of the pool is filed under the hash of its transaction. -/
def Pool.Filed (env : Env) (pool : Pool) : Prop :=
  ∀ row ∈ pool.txpool, row.1 < 256 ^ hashSize ∧ env.getTransactionHash row.2.blob = row.1

variable {hash : Hash}

theorem parseHash_lt {text : HexText} (parsed : parseHash text = .ok hash) :
    hash < 256 ^ hashSize := by
  unfold parseHash at parsed
  split at parsed
  · cases parsed
  · rename_i bytes _
    split at parsed
    · rename_i length
      cases parsed
      have bound := ofBigEndian_lt bytes.reverse
      rwa [length_reverse, length] at bound
    · cases parsed

theorem podToHex_inj {other : Hash} (fits : hash < 256 ^ hashSize)
    (otherFits : other < 256 ^ hashSize) (same : podToHex hash = podToHex other) :
    hash = other := by
  have bytes := Hex.encode_injective same
  rw [← ofBigEndian_littleEndian fits, bytes, ofBigEndian_littleEndian otherFits]

theorem parseHashes_eq {texts : List HexText} {hashes : List Hash}
    (parsed : texts.mapM parseHash = .ok hashes) :
    (∀ request ∈ texts.zip hashes, parseHash request.1 = .ok request.2) ∧
      (texts.zip hashes).map Prod.snd = hashes ∧ ∀ hash ∈ hashes, hash < 256 ^ hashSize := by
  induction texts generalizing hashes with
  | nil =>
    cases parsed
    exact ⟨by simp, rfl, by simp⟩
  | cons text rest ih =>
    rw [mapM_cons] at parsed
    obtain ⟨hash, first, parsed⟩ := except_bind_eq_ok.mp parsed
    obtain ⟨others, later, same⟩ := except_bind_eq_ok.mp parsed
    cases same
    obtain ⟨each, hashes, fit⟩ := ih later
    exact ⟨forall_mem_cons.mpr ⟨first, each⟩, congrArg (hash :: ·) hashes,
      forall_mem_cons.mpr ⟨parseHash_lt first, fit⟩⟩

theorem Pool.Filed.printedAs {env : Env} (filed : pool.Filed env) (fits : hash < 256 ^ hashSize)
    {row : Hash × PoolTx} (found : pool.printedAs hash = some row) :
    (hash, row.2) ∈ pool.txpool ∧ env.getTransactionHash row.2.blob = hash := by
  have member := mem_of_find?_eq_some found
  have printed : podToHex hash = podToHex row.1 := by simpa using find?_some found
  obtain ⟨rowFits, named⟩ := filed row member
  have same := podToHex_inj fits rowFits printed
  rw [same]
  exact ⟨member, named⟩

/-- A requested hash is printed among those that are nowhere exactly when it is nowhere. -/
theorem mem_missed_iff {hashes : List Hash} (fit : ∀ hash ∈ hashes, hash < 256 ^ hashSize)
    (member : hash ∈ hashes) :
    podToHex hash ∈ (hashes.filter fun hash => (resolve db pool hash).isNone).map podToHex ↔
      resolve db pool hash = none := by
  constructor
  · intro listed
    obtain ⟨other, kept, same⟩ := mem_map.mp listed
    obtain ⟨requested, unresolved⟩ := mem_filter.mp kept
    rw [← podToHex_inj (fit other requested) (fit hash member) same]
    exact Option.isNone_iff_eq_none.mp unresolved
  · intro unresolved
    exact mem_map_of_mem (mem_filter.mpr ⟨member, Option.isNone_iff_eq_none.mpr unresolved⟩)

section Answers

open ChainTables

variable {env : Env} {extra : Transaction → Prop} {network : Network} {ledger : Ledger} {pool : Pool}
  {info : Table Hash PoolTx} {text : HexText} {hash : Hash} {tx : Transaction} {entry : TxEntry}
variable {height : Nat} {entries : List TxEntry}

section

variable (valid : Valid env extra network ledger)
include valid

theorem Valid.contents_hash {block : Entry} (found : ledger[height]? = some block)
    (member : (hash, tx) ∈ contents env block) : env.getTransactionHash tx = hash := by
  have hashes : block.block.txHashes = block.txs.map env.getTransactionHash := by
    rcases Nat.eq_zero_or_pos height with rfl | positive
    · have first : block = genesisEntry env network := by
        have bottom := valid.first
        rw [found] at bottom
        exact Option.some.inj bottom
      rw [first]
      rfl
    · exact (valid.accepted positive found).hashes
  rcases mem_cons.mp member with same | member
  · cases same
    rfl
  · have zipped : (block.txs.map env.getTransactionHash).zip (block.txs.map id) =
        block.txs.map fun tx => (env.getTransactionHash tx, tx) := zip_map'
    rw [map_id] at zipped
    rw [hashes, zipped] at member
    obtain ⟨other, -, same⟩ := mem_map.mp member
    cases same
    rfl

/-- A hash with a height is that of a transaction of the chain. -/
theorem placed_of_getTxBlockHeight
    (placed : (ofLedger env ledger).getTxBlockHeight hash = .ok height) :
    ∃ block tx indices, ledger[height]? = some block ∧ (hash, tx) ∈ contents env block ∧
      (ofLedger env ledger).getTx? hash = some tx ∧
      (ofLedger env ledger).getTxOutputsGindexs hash = some indices ∧
      (ofLedger env ledger).Lists env hash tx 0 tx.vout indices := by
  unfold getTxBlockHeight at placed
  cases located : (ofLedger env ledger).txIndices.find hash with
  | none =>
    rw [located] at placed
    cases placed
  | some index =>
    have present : (ofLedger env ledger).txExists hash = true := by
      rw [txExists, Table.has, located]
      rfl
    obtain ⟨level, block, found, tx, member⟩ := exists_of_txExists present
    obtain ⟨_, indices, same, level_eq, -, outputs, lists⟩ :=
      (valid.grown.places found member).index
    rw [located, Option.some.injEq] at same
    subst same
    rw [located] at placed
    cases placed
    refine ⟨block, tx, indices, ?_, member,
      valid.grown.getTx? block (mem_of_getElem? found) _ member, ?_, lists⟩
    · rw [level_eq]
      exact found
    · simp only [getTxOutputsGindexs, located, Option.bind_eq_bind, Option.bind_some, outputs]

/-- An entry is only made for a hash that is somewhere. -/
theorem resolve_of_fillEntry (sound : InfoSound (ofLedger env ledger) pool info)
    (made : fillEntry (ofLedger env ledger) info text hash tx = .ok (some entry)) :
    (resolve (ofLedger env ledger) pool hash).isSome = true := by
  unfold fillEntry at made
  cases known : info.find hash with
  | some row =>
    obtain ⟨missing, printed⟩ := sound hash row known
    obtain ⟨found, here, -⟩ := Option.map_eq_some_iff.mp printed
    rw [resolve_of_missing missing, here]
    rfl
  | none =>
    rw [known] at made
    obtain ⟨height, placed, -⟩ := except_bind_eq_ok.mp made
    obtain ⟨block, tx, indices, -, -, read, -⟩ := placed_of_getTxBlockHeight valid placed
    rw [resolve_of_getTx read]
    rfl

/-- An entry made for a hash in its place describes the transaction with that hash. -/
theorem describes_of_fillEntry (filed : pool.Filed env)
    (sound : InfoSound (ofLedger env ledger) pool info) (fits : hash < 256 ^ hashSize)
    {name : Hash} (resolved : resolve (ofLedger env ledger) pool hash = some (name, tx))
    (made : fillEntry (ofLedger env ledger) info text hash tx = .ok (some entry)) :
    entry.txHash = text ∧ env.getTransactionHash entry.asHex = hash ∧
      entry.Describes env ledger pool hash := by
  unfold fillEntry at made
  cases known : info.find hash with
  | some row =>
    rw [known] at made
    cases made
    obtain ⟨missing, printed⟩ := sound hash row known
    obtain ⟨found, here, rfl⟩ := Option.map_eq_some_iff.mp printed
    obtain ⟨member, named⟩ := filed.printedAs fits here
    rw [resolve_of_missing missing, here, Option.map_some, Option.some.injEq] at resolved
    cases resolved
    exact ⟨rfl, named, ⟨found.2, member, rfl⟩, rfl, rfl⟩
  | none =>
    rw [known] at made
    obtain ⟨height, placed, made⟩ := except_bind_eq_ok.mp made
    obtain ⟨timestamp, timed, made⟩ := except_bind_eq_ok.mp made
    obtain ⟨block, other, indices, found, member, read, gindexs, lists⟩ :=
      placed_of_getTxBlockHeight valid placed
    rw [resolve_of_getTx read, Option.some.injEq] at resolved
    cases resolved
    rw [gindexs] at made
    cases made
    exact ⟨rfl, valid.contents_hash found member, block, found, member, lists⟩

end

variable {requests : List (HexText × Hash)}

/-- A walk that ends meets only hashes that are somewhere. -/
theorem valued_of_fillEntries (valid : Valid env extra network ledger)
    (sound : InfoSound (ofLedger env ledger) pool info) {txs : List (Hash × Transaction)}
    (filled : fillEntries (ofLedger env ledger) info requests txs = .ok (some entries)) :
    ∀ place ∈ requests.zip txs,
      ((resolve (ofLedger env ledger) pool ∘ Prod.snd) place.1).isSome = true := by
  intro place member
  have made := mem_map_of_mem
    (f := fun place => fillEntry (ofLedger env ledger) info place.1.1 place.1.2 place.2.2) member
  rw [fillEntries_eq filled] at made
  obtain ⟨entry, -, same⟩ := mem_map.mp made
  exact resolve_of_fillEntry valid sound same.symm

/-- The hash that a made entry names. -/
def parsedName : Except Exn (Option TxEntry) → Except LookupStatus Hash
  | .ok (some entry) => parseHash entry.txHash
  | _ => .error .failed

variable {txs : List (Hash × Transaction)}

/-- The entries of a walk in step, in the order of the request. -/
theorem entries_of_fillEntries (valid : Valid env extra network ledger) (filed : pool.Filed env)
    (sound : InfoSound (ofLedger env ledger) pool info)
    (each : ∀ request ∈ requests, parseHash request.1 = .ok request.2)
    (step : ∀ place ∈ requests.zip txs, resolve (ofLedger env ledger) pool place.1.2 = some place.2)
    (filled : fillEntries (ofLedger env ledger) info requests txs = .ok (some entries)) :
    entries.map (fun entry => parseHash entry.txHash) =
        (requests.zip txs).map (fun place => .ok place.1.2) ∧
      ∀ entry ∈ entries, ∃ place ∈ requests.zip txs, parseHash entry.txHash = .ok place.1.2 ∧
        env.getTransactionHash entry.asHex = place.1.2 ∧
        entry.Describes env ledger pool place.1.2 := by
  have made := fillEntries_eq filled
  have describes (place) (member : place ∈ requests.zip txs) (entry : TxEntry)
      (here : fillEntry (ofLedger env ledger) info place.1.1 place.1.2 place.2.2 =
        .ok (some entry)) : parseHash entry.txHash = .ok place.1.2 ∧
          env.getTransactionHash entry.asHex = place.1.2 ∧
          entry.Describes env ledger pool place.1.2 := by
    have request := each place.1 (of_mem_zip member).1
    obtain ⟨text, hashed, described⟩ := describes_of_fillEntry valid filed sound
      (parseHash_lt request) (step place member) here
    exact ⟨text ▸ request, hashed, described⟩
  constructor
  · have read := congrArg (List.map parsedName) made
    rw [map_map, map_map] at read
    refine Eq.trans read.symm (map_congr_left fun place member => ?_)
    have listed := mem_map_of_mem
      (f := fun place => fillEntry (ofLedger env ledger) info place.1.1 place.1.2 place.2.2) member
    rw [made] at listed
    obtain ⟨entry, -, here⟩ := mem_map.mp listed
    simp only [Function.comp_apply, ← here]
    exact (describes place member entry here.symm).1
  · intro entry member
    have listed := mem_map_of_mem
      (f := fun entry => (.ok (some entry) : Except Exn (Option TxEntry))) member
    rw [← made] at listed
    obtain ⟨place, inPlace, here⟩ := mem_map.mp listed
    exact ⟨place, inPlace, describes place inPlace entry here⟩

/-- The part of the request that the walk passes. -/
theorem zip_passed (requests : List (HexText × Hash)) (txs : List (Hash × Transaction)) :
    ((requests.zip txs).map fun place => place.1.2) = (requests.take txs.length).map Prod.snd := by
  induction requests generalizing txs with
  | nil => simp
  | cons request rest ih => cases txs <;> simp [ih]

/-- The entries for a hash are counted in the part of the request that the walk has passed. -/
theorem entriesFor_eq {response : LookupResponse}
    (names : response.txs.map (fun entry => parseHash entry.txHash) =
      (requests.zip txs).map (fun place => .ok place.1.2))
    (hash : Hash) :
    response.entriesFor hash = ((requests.take txs.length).map Prod.snd).count hash := by
  rw [← zip_passed]
  calc response.entriesFor hash
      = (response.txs.map fun entry => parseHash entry.txHash).countP (· = .ok hash) := by
        rw [countP_map]
        rfl
    _ = ((requests.zip txs).map fun place => (.ok place.1.2 : Except LookupStatus Hash)).countP
          (· = .ok hash) := by rw [names]
    _ = (((requests.zip txs).map fun place => place.1.2).countP (· = hash)) := by
        simp [Function.comp_def]
    _ = ((requests.zip txs).map fun place => place.1.2).count hash := by
        rfl

/-- An answer without error names every requested hash once, among the missed ones or by an entry,
and every entry describes the transaction whose hash it names. -/
theorem onGetTransactions_faithful (valid : Valid env extra network ledger) (filed : pool.Filed env)
    {txsHashes : List HexText} {hashes : List Hash} {response : LookupResponse}
    (parsed : txsHashes.mapM parseHash = .ok hashes) (distinct : hashes.Nodup)
    (answered : onGetTransactions (ofLedger env ledger) pool txsHashes = .ok response)
    (ok : response.status = .ok) :
    (∀ hash ∈ hashes,
      (podToHex hash ∈ response.missedTx ∧ response.entriesFor hash = 0) ∨
        (podToHex hash ∉ response.missedTx ∧ response.entriesFor hash = 1)) ∧
    ∀ entry ∈ response.txs, ∃ hash ∈ hashes, parseHash entry.txHash = .ok hash ∧
      env.getTransactionHash entry.asHex = hash ∧ entry.Describes env ledger pool hash := by
  obtain ⟨merge, gathered, sorted, missed, sound⟩ :=
    @gatherTransactions_eq (ofLedger env ledger) pool hashes distinct
  obtain ⟨each, seconds, fit⟩ := parseHashes_eq parsed
  unfold onGetTransactions at answered
  rw [parsed] at answered
  dsimp only at answered
  rw [gathered] at answered
  obtain ⟨result, filled, answered⟩ := except_bind_eq_ok.mp answered
  cases result with
  | none =>
    cases answered
    cases ok
  | some entries =>
    cases answered
    have inOrder : merge.sortedTxs = (txsHashes.zip hashes).filterMap
        (resolve (ofLedger env ledger) pool ∘ Prod.snd) := by
      rw [sorted, ← filterMap_map, seconds]
    rw [inOrder] at filled
    obtain ⟨step, past⟩ := filterMap_in_step (valued_of_fillEntries valid sound filled)
    simp only [Function.comp_apply] at step past
    obtain ⟨names, described⟩ := entries_of_fillEntries valid filed sound each step filled
    constructor
    · intro hash member
      rw [missed, mem_missed_iff fit member, entriesFor_eq names hash]
      -- the walk has passed the hashes that are found, and no others
      rw [← seconds, ← take_append_drop (List.length _) (txsHashes.zip hashes), map_append,
        mem_append, ← zip_passed] at member
      rcases member with passed | ahead
      · right
        obtain ⟨place, inPlace, rfl⟩ := mem_map.mp passed
        rw [step place inPlace]
        refine ⟨Option.some_ne_none _, count_eq_one_of_mem ?_ (zip_passed _ _ ▸ passed)⟩
        rw [map_take, seconds]
        exact distinct.sublist (take_sublist _ _)
      · left
        obtain ⟨request, listed, rfl⟩ := mem_map.mp ahead
        refine ⟨past request listed, count_eq_zero.mpr fun passed => ?_⟩
        rw [← zip_passed] at passed
        obtain ⟨place, inPlace, same⟩ := mem_map.mp passed
        have found := step place inPlace
        rw [same, past request listed] at found
        cases found
    · intro entry member
      obtain ⟨place, inPlace, facts⟩ := described entry member
      have listed := (of_mem_zip (of_mem_zip inPlace).1).2
      exact ⟨place.1.2, listed, facts⟩

end Answers

/-- A pool with one transaction, whose hash is seven. -/
def lookupPool : Pool :=
  { Pool.empty with
    txpool := [(7,
      { details :=
          { maxUsedBlockId := 0, lastFailedId := 0, weight := 100, fee := 0, maxUsedBlockHeight := 0,
            lastFailedHeight := 0, receiveTime := 5, lastRelayedTime := 0, txFromBlock := false,
            relayed := true, doNotRelay := false, doubleSpendSeen := false, pruned := false,
            isLocal := false }
        blob := { mainnet.genesisTx with unlockHeight := 7 } })] }

/-- The hash of the genesis transaction, that of the transaction in the pool and an unknown one. -/
def lookupHashes : List Hash :=
  [plainEnv.getTransactionHash mainnet.genesisTx, 7, 9]

theorem onGetTransactions_genesis :
    ∃ response, onGetTransactions
        (ChainTables.ofLedger plainEnv [genesisEntry plainEnv mainnet]) lookupPool
        (lookupHashes.map podToHex) = .ok response ∧ response.status = .ok ∧
      (∀ hash ∈ lookupHashes,
        (podToHex hash ∈ response.missedTx ∧ response.entriesFor hash = 0) ∨
          (podToHex hash ∉ response.missedTx ∧ response.entriesFor hash = 1)) ∧
      ∀ entry ∈ response.txs, ∃ hash ∈ lookupHashes, parseHash entry.txHash = .ok hash ∧
        plainEnv.getTransactionHash entry.asHex = hash ∧
        entry.Describes plainEnv [genesisEntry plainEnv mainnet] lookupPool hash := by
  have valid : Valid plainEnv (fun _ => True) mainnet [genesisEntry plainEnv mainnet] := .genesis
  have filed : lookupPool.Filed plainEnv := by
    intro row member
    cases mem_singleton.mp member
    exact ⟨by decide, rfl⟩
  have answers : (onGetTransactions (ChainTables.ofLedger plainEnv [genesisEntry plainEnv mainnet])
      lookupPool (lookupHashes.map podToHex)).map LookupResponse.status = .ok .ok := by
    decide +kernel
  cases answered : onGetTransactions
      (ChainTables.ofLedger plainEnv [genesisEntry plainEnv mainnet]) lookupPool
      (lookupHashes.map podToHex) with
  | error exception =>
    rw [answered] at answers
    cases answers
  | ok response =>
    rw [answered] at answers
    have ok : response.status = .ok := Except.ok.inj answers
    exact ⟨response, rfl, ok,
      onGetTransactions_faithful valid filed (by decide +kernel) (by decide +kernel) answered ok⟩

end Memero
