import Memero.Node.Arrival
import Mathlib.Logic.Equiv.List
import Mathlib.Tactic.DeriveEncodable

/-!
# Runs of the node

A run starts with `Blockchain::init` on a new database and goes on with calls of the node's
functions in any order: transactions arrive, brackets of `prepare_handle_incoming_blocks` and
`cleanup_handle_incoming_blocks` open and close, blocks are added inside them, blocks are
popped. A call may end with an exception. `Run.between` says what holds between two calls.
-/

namespace Memero

open List ChainTables

open Exec

open ChainTables (ofLedger)
open Node (Beside)

/-! ## Looking outputs up in advance -/

section Scan

variable {env : Env} {db : ChainTables}

/-- Rows that come from transactions with the prefix hashes they are filed under. -/
def Scanned (env : Env) (scanned : List (Hash × List TxinFromKey)) : Prop :=
  ∀ item ∈ scanned, ∃ tx, env.getTransactionPrefixHash tx = item.1 ∧
    tx.vin.mapM TxIn.fromKey? = some item.2

theorem scanTransactions_scanned {txs : List (Option Transaction)}
    {start result : List (Hash × List TxinFromKey)} (known : Scanned env start)
    (ran : scanTransactions env txs start = .ok (some result)) : Scanned env result := by
  induction txs generalizing start with
  | nil =>
    cases ran
    exact known
  | cons tx rest ih =>
    cases tx with
    | none => cases ran
    | some tx =>
      unfold scanTransactions at ran
      split at ran
      · cases ran
      · cases typed : tx.vin.mapM TxIn.fromKey? with
        | none => simp [typed] at ran
        | some inputs =>
          rw [typed] at ran
          refine ih ?_ ran
          intro item member
          rcases mem_append.mp member with old | new
          · exact known item old
          · rw [mem_singleton.mp new]
            exact ⟨tx, rfl, typed⟩

variable {amount : Nat} {offsets : List Nat} {output : OutputData}

theorem getOutputKeys_getElem? {position : Nat}
    (found : (db.getOutputKeys env amount offsets)[position]? = some output) :
    ∃ offset, offsets[position]? = some offset ∧
      db.getOutputKey env amount offset = some output := by
  induction offsets generalizing position with
  | nil => simp [getOutputKeys] at found
  | cons offset rest ih =>
    unfold getOutputKeys at found
    cases located : db.getOutputKey env amount offset with
    | none => simp [located] at found
    | some first =>
      rw [located] at found
      cases position with
      | zero =>
        cases found
        exact ⟨offset, rfl, located⟩
      | succ position => exact ih found

theorem scannedOutput_eq {offset : Nat}
    (found : db.scannedOutput env offsets amount offset = some output) :
    db.getOutputKey env amount offset = some output := by
  obtain ⟨other, position, located⟩ := getOutputKeys_getElem? found
  obtain ⟨bound, same⟩ := List.getElem?_eq_some_iff.mp position
  rw [getElem_idxOf bound] at same
  rw [same]
  exact located

theorem scannedOutputs_known (amount : Nat) (sorted offsets : List Nat) :
    db.Known env amount (db.scannedOutputs env sorted amount offsets) offsets := by
  induction offsets with
  | nil => trivial
  | cons offset rest ih =>
    unfold scannedOutputs
    cases found : db.scannedOutput env sorted amount offset with
    | none => trivial
    | some output => exact ⟨scannedOutput_eq found, ih⟩

variable {scanned : List (Hash × List TxinFromKey)}

theorem scanRow_find {inputs : List TxinFromKey} {image : KeyImage} {outputs : List OutputData}
    (found : (db.scanRow env scanned inputs).find image = some outputs) :
    ∃ input ∈ inputs, input.outputKeyImage = image ∧
      db.Known env input.amount outputs
        (relativeOutputOffsetsToAbsolute input.outputRelativeOffsets) := by
  have member := Table.mem_of_find found
  induction inputs with
  | nil => cases member
  | cons input rest ih =>
    unfold scanRow at found member
    by_cases same : input.outputKeyImage = image
    · have first : (db.scannedOutputs env (scanOffsets scanned input.amount) input.amount
          (relativeOutputOffsetsToAbsolute input.outputRelativeOffsets)) = outputs := by
        simpa [Table.find, same] using found
      refine ⟨input, by simp, same, ?_⟩
      rw [← first]
      exact scannedOutputs_known _ _ _
    · have later : (db.scanRow env scanned rest).find image = some outputs := by
        simpa [Table.find, same] using found
      obtain ⟨other, present, known⟩ := ih later (Table.mem_of_find later)
      exact ⟨other, mem_cons_of_mem _ present, known⟩

/-- The table that `prepare_handle_incoming_blocks` fills agrees with the database. -/
theorem scanRows_agrees (known : Scanned env scanned) :
    db.Agrees env (db.scanRows env scanned) := by
  intro txPrefixHash image outputs found
  obtain ⟨row, filed, located⟩ := Option.bind_eq_some_iff.mp found
  obtain ⟨item, member, same⟩ := mem_map.mp (Table.mem_of_find filed)
  simp only [Prod.mk.injEq] at same
  obtain ⟨tx, hash, typed⟩ := known item member
  rw [← same.2] at located
  obtain ⟨input, present, owner⟩ := scanRow_find located
  exact ⟨tx, item.2, hash.trans same.1, typed, input, present, owner⟩

end Scan

/-! ## Calls -/

/-- A call of one of the node's functions. -/
inductive Command where
  | incoming (blobs : List (Option TxBlob)) (txRelay : RelayMethod) (relayed : Bool)
  | prepare (entries : List BlockCompleteEntry)
  | newBlock (fuel : Nat) (bl : Block)
  | cleanup
  | pop (nblocks : Nat)
  | removeStuck
  | setRelayed (hashes : List Hash) (method : RelayMethod)

namespace Command

/-- What a call does. -/
def perform (env : Env) : Command → NodeM Unit
  | incoming blobs txRelay relayed => do
      let _ ← handleIncomingRingcts env blobs txRelay relayed
      return ()
  | prepare entries => do
      let _ ← prepareHandleIncomingBlocks env entries
      return ()
  | newBlock fuel bl => do
      let _ ← addNewBlock env fuel bl
      return ()
  | cleanup => do
      let _ ← cleanupHandleIncomingBlocks
      return ()
  | pop nblocks => popBlocks env nblocks
  | removeStuck => do
      let now ← tick env
      onPool (removeStuckTransactions now)
  | setRelayed hashes method => do
      let now ← tick env
      onPool (Memero.setRelayed hashes method now)

/-- Blocks are added inside a bracket. -/
def Enabled (node : Node) : Command → Prop
  | newBlock _ _ => node.batch.isSome = true
  | _ => True

end Command

/-- The states between the calls of a run whose calls are all `allowed`. A call that does not
come back, because a recursion bound was too small, is not part of a run. -/
inductive Run (env : Env) (network : Network) (allowed : Node → Command → Prop) :
    Node → Prop where
  | init {node : Node} (ran : (initBlockchain env network).run .empty = (.ok true, node)) :
      Run env network allowed node
  | call {node after : Node} {command : Command} {outcome : Outcome Exn Unit}
      (run : Run env network allowed node) (enabled : command.Enabled node)
      (isAllowed : allowed node command)
      (ran : (command.perform env).run node = (outcome, after))
      (finished : outcome ≠ .exhausted) : Run env network allowed after

/-! ## Between two calls -/

section Between

variable {env : Env} {extra : Transaction → Prop} {network : Network}

/-- What holds of committed tables. -/
structure Committed (env : Env) (extra : Transaction → Prop) (network : Network)
    (tables : Database) : Prop where
  txpool : ∀ row ∈ tables.txpool, Admitted env extra row.1 row.2.blob ∧ row.2.Faithful env
  chain : tables.chain.Keeping (Recorded env extra) 1
  held : Held env extra network tables.chain

/-- What holds between two calls, outside a bracket and inside one. -/
structure Node.Between (env : Env) (extra : Transaction → Prop) (network : Network)
    (node : Node) : Prop where
  idle : node.batch = none → node.Inv env extra network (fun _ => True) none ∧ node.scanTable = []
  busy : ∀ tables, node.batch = some tables →
    node.Inv env extra network (· = true) (some tables) ∧ Committed env extra network tables

namespace Node.Between

variable {node : Node}

theorem of_idle (inv : node.Inv env extra network (fun _ => True) none)
    (empty : node.scanTable = []) : node.Between env extra network where
  idle := fun _ => ⟨inv, empty⟩
  busy := fun _ active => by
    rw [inv.batch] at active
    cases active

theorem of_busy {tables : Database} (inv : node.Inv env extra network (· = true) (some tables))
    (committed : Committed env extra network tables) : node.Between env extra network where
  idle := fun inactive => by
    rw [inv.batch] at inactive
    cases inactive
  busy := fun other active => by
    rw [inv.batch] at active
    cases active
    exact ⟨inv, committed⟩

variable (between : node.Between env extra network)
include between

/-- A call that changes nothing of the chain. -/
theorem of_beside {after : Node} (kept : Beside env extra node after) :
    after.Between env extra network := by
  cases active : node.batch with
  | none =>
    obtain ⟨inv, empty⟩ := between.idle active
    exact of_idle (inv.of_beside kept) (kept.scanTable.trans empty)
  | some tables =>
    obtain ⟨inv, committed⟩ := between.busy tables active
    exact of_busy (inv.of_beside kept) committed

/-- Inside a bracket and outside, the tables are sound unless the batch has failed. -/
theorem inv : node.Inv env extra network (· = true) node.batch := by
  cases active : node.batch with
  | none =>
    obtain ⟨inv, -⟩ := between.idle active
    exact ⟨inv.pool, inv.chain, inv.longhash, fun _ => inv.sound trivial, inv.batch⟩
  | some tables => exact (between.busy tables active).1

theorem beside : Beside env extra node node :=
  between.inv.beside

end Node.Between

variable {node : Node}
variable {live : Bool → Prop} {batch : Option Database}

/-- The tables of a sound node may be committed. -/
theorem Node.Inv.committed (inv : node.Inv env extra network live batch)
    (alive : live node.batchSuccess) :
    Committed env extra network node.database where
  txpool := inv.pool.rows
  chain := inv.chain
  held := by
    obtain ⟨ledger, valid, holds, -⟩ := inv.sound alive
    exact ⟨ledger, valid, holds⟩

/-- An abort puts the committed tables back. -/
theorem Committed.restore {tables : Database} (committed : Committed env extra network tables)
    (pool : node.pool.Holds env (Admitted env extra)) :
    ({ node.restore tables with
      batch := none, blocksLonghashTable := [], scanTable := [] } : Node).Inv env extra network
        (fun _ => True) none where
  pool := { rows := committed.txpool, cached := pool.cached }
  chain := committed.chain
  longhash := by simp
  sound := fun _ => by
    obtain ⟨ledger, valid, holds⟩ := committed.held
    exact ⟨ledger, valid, holds, Agrees.nil⟩
  batch := rfl

/-! ## Brackets -/

/-- Closing a bracket commits a sound chain or puts the old one back. -/
theorem cleanupHandleIncomingBlocks_keeps :
    Keeps (Node.Between env extra network) cleanupHandleIncomingBlocks := by
  intro node between
  unfold cleanupHandleIncomingBlocks
  cases active : node.batch with
  | none =>
    obtain ⟨inv, -⟩ := between.idle active
    have tried : (do
        let node ← get
        if node.batchSuccess then batchStop else batchAbort
        return true : NodeM Bool).Ensures node (fun _ _ => False) (· = node) := by
      rw [ensures_get_bind]
      rw [ensures_ite]
      refine ⟨fun _ => ?_, fun _ => ?_⟩
      · simp [batchStop, active]
      · simp [batchAbort, active]
    rw [ensures_bind]
    refine Ensures.tryCatch (tried.mono (fun _ _ => False.elim) fun _ => id) ?_
    rintro exception after rfl
    refine .of_idle ⟨inv.pool, inv.chain, by simp, fun alive => ?_, inv.batch⟩ rfl
    obtain ⟨ledger, valid, holds, -⟩ := inv.sound alive
    exact ⟨ledger, valid, holds, Agrees.nil⟩
  | some tables =>
    obtain ⟨inv, committed⟩ := between.busy tables active
    have tried : (do
        let node ← get
        if node.batchSuccess then batchStop else batchAbort
        return true : NodeM Bool).Ensures node
        (fun _ after => (node.batchSuccess = true ∧ after = { node with batch := none }) ∨
          after = { node.restore tables with batch := none }) fun _ => False := by
      rw [ensures_get_bind]
      rw [ensures_ite]
      refine ⟨fun success => ?_, fun _ => ?_⟩
      · simp [batchStop, active, success]
      · simp [batchAbort, active]
    rw [ensures_bind]
    refine Ensures.tryCatch (tried.mono ?_ fun _ => id) fun _ _ => False.elim
    intro success after ended
    rcases ended with ⟨success, rfl⟩ | rfl
    · refine .of_idle ⟨inv.pool, inv.chain, by simp, fun _ => ?_, rfl⟩ rfl
      obtain ⟨ledger, valid, holds, -⟩ := inv.sound success
      exact ⟨ledger, valid, holds, Agrees.nil⟩
    · exact .of_idle (committed.restore inv.pool) rfl

/-- Opening a bracket. -/
theorem prepareHandleIncomingBlocks_keeps (entries : List BlockCompleteEntry) :
    Keeps (Node.Between env extra network) (prepareHandleIncomingBlocks env entries) := by
  intro node between
  cases entries with
  | nil => exact between
  | cons first rest =>
    cases active : node.batch with
    | some tables =>
      simp [prepareHandleIncomingBlocks, batchStart, active]
    | none =>
      obtain ⟨inv, empty⟩ := between.idle active
      have committed := inv.committed trivial
      have opened : ({ node with batch := some node.database, batchSuccess := true } :
          Node).Inv env extra network (· = true) (some node.database) :=
        { inv with sound := fun _ => inv.sound trivial, batch := rfl }
      have busy := Node.Between.of_busy opened committed
      simp only [prepareHandleIncomingBlocks, batchStart, active, ensures_bind,
        ensures_get, ensures_ite, ensures_modify, ensures_pure, Option.isSome_none, Bool.false_eq_true, not_true_eq_false,
        not_false_eq_true, false_implies, true_implies, true_and]
      rw [ensures_reads]
      refine ⟨fun topHash _ => ⟨fun _ => busy, fun _ => ?_⟩, fun _ _ => busy⟩
      cases parsedBlocks (first :: rest) with
      | none => exact busy
      | some blocks =>
        simp only [ensures_bind, ensures_ite, ensures_modify]
        refine ⟨fun _ => busy, fun _ => ?_⟩
        have hashed : ∀ row ∈ blocks.map fun bl =>
            (env.getBlockHash bl, env.getMiningHash bl), ∃ bl,
              row = (env.getBlockHash bl, env.getMiningHash bl) := by
          intro row member
          obtain ⟨bl, -, rfl⟩ := mem_map.mp member
          exact ⟨bl, rfl⟩
        obtain ⟨ledger, valid, holds, -⟩ := inv.sound trivial
        rw [ensures_reads]
        refine ⟨fun scanned ran => ?_, fun _ _ => .of_busy ⟨inv.pool, inv.chain, hashed,
          fun _ => ⟨ledger, valid, holds, Agrees.nil⟩, rfl⟩ committed⟩
        cases scanned with
        | none =>
          exact .of_busy ⟨inv.pool, inv.chain, hashed,
            fun _ => ⟨ledger, valid, holds, Agrees.nil⟩, rfl⟩ committed
        | some scanned =>
          have known := scanTransactions_scanned (fun _ member => by cases member) ran
          exact .of_busy ⟨inv.pool, inv.chain, hashed,
            fun _ => ⟨ledger, valid, holds, scanRows_agrees known⟩, rfl⟩ committed

/-! ## Popping -/

theorem popTimes_ensures (count : Nat) (inv : node.Inv env extra network live batch) :
    (popTimes env count).Ensures node
      (fun _ after => after.Inv env extra network live batch ∧
        (node.scanTable = [] → after.scanTable = []))
      fun after => after.Inv env extra network live batch ∧
        (node.scanTable = [] → after.scanTable = []) := by
  induction count generalizing node with
  | zero => exact ⟨inv, id⟩
  | succ count ih =>
    unfold popTimes
    rw [ensures_bind]
    refine (popBlockFromBlockchain_ensures inv).mono ?_ ?_
    · rintro popped middle ⟨inv, cleared⟩
      exact (ih inv).mono (fun _ _ reached => ⟨reached.1, fun _ => reached.2 cleared⟩)
        fun _ reached => ⟨reached.1, fun _ => reached.2 cleared⟩
    · rintro after ⟨inv, same⟩
      exact ⟨inv, same.trans⟩

/-- The pops of `pop_blocks` and whether all of them were made. -/
theorem tryPops_ensures (count : Nat) (inv : node.Inv env extra network live batch) :
    (tryCatch (do popTimes env count; return true) fun _ => return false :
      NodeM Bool).Ensures node
      (fun _ after => after.Inv env extra network live batch ∧
        (node.scanTable = [] → after.scanTable = [])) fun _ => False := by
  have tried : (do popTimes env count; return true : NodeM Bool).Ensures node
      (fun _ after => after.Inv env extra network live batch ∧
        (node.scanTable = [] → after.scanTable = []))
      fun after => after.Inv env extra network live batch ∧
        (node.scanTable = [] → after.scanTable = []) := by
    rw [ensures_bind]
    exact popTimes_ensures count inv
  exact tried.tryCatch fun _ _ reached => reached

theorem popBlocks_keeps (nblocks : Nat) :
    Keeps (Node.Between env extra network) (popBlocks env nblocks) := by
  intro node between
  unfold popBlocks
  cases active : node.batch with
  | some tables =>
    obtain ⟨inv, committed⟩ := between.busy tables active
    simp only [batchStart, active, ensures_bind, ensures_get]
    refine (tryPops_ensures _ inv).mono ?_ fun _ => False.elim
    intro popped after reached
    exact .of_busy reached.1 committed
  | none =>
    obtain ⟨inv, empty⟩ := between.idle active
    have committed := inv.committed trivial
    have opened : ({ node with batch := some node.database } : Node).Inv env extra network
        (fun _ => True) (some node.database) :=
      ⟨inv.pool, inv.chain, inv.longhash, inv.sound, rfl⟩
    simp only [batchStart, active, ensures_bind, ensures_get]
    refine (tryPops_ensures _ opened).mono ?_ fun _ => False.elim
    rintro popped after ⟨inv, cleared⟩
    have empty := cleared empty
    simp only [if_true, ensures_ite]
    refine ⟨fun _ => ?_, fun _ => ?_⟩
    · simp only [batchStop, inv.batch, ensures_bind, ensures_get]
      exact .of_idle { inv with sound := fun _ => inv.sound trivial, batch := rfl } empty
    · simp only [batchAbort, inv.batch, ensures_bind, ensures_get]
      obtain ⟨ledger, valid, holds⟩ := committed.held
      refine .of_idle ⟨⟨committed.txpool, inv.pool.cached⟩, committed.chain, inv.longhash,
        fun _ => ⟨ledger, valid, holds, ?_⟩, rfl⟩ empty
      change Agrees env _ after.scanTable
      rw [empty]
      exact Agrees.nil

/-! ## Whole runs -/

/-- An incoming transaction that the pool may take satisfies `extra`. -/
def Command.Supplied (env : Env) (extra : Transaction → Prop) (node : Node) : Command → Prop
  | incoming blobs txRelay _ =>
    ∀ blob, some blob ∈ blobs → Supplies env extra node txRelay blob.tx
  | _ => True

theorem Command.perform_keeps (binding : env.Binding) (command : Command)
    (between : node.Between env extra network) (enabled : command.Enabled node)
    (supplied : command.Supplied env extra node) :
    (command.perform env).Ensures node (fun _ => Node.Between env extra network)
      (Node.Between env extra network) := by
  cases command with
  | incoming blobs txRelay relayed =>
    have pooled : ∀ {live batch}, node.Inv env extra network live batch →
        (Command.perform env (.incoming blobs txRelay relayed)).Ensures node
          (fun _ => Node.Between env extra network) (Node.Between env extra network) := by
      intro live batch inv
      unfold perform
      rw [ensures_bind]
      exact (handleIncomingRingcts_ensures inv supplied).mono
        (fun _ _ kept => between.of_beside kept) fun _ => False.elim
    cases active : node.batch with
    | none => exact pooled (between.idle active).1
    | some tables => exact pooled (between.busy tables active).1
  | prepare entries =>
    exact ((prepareHandleIncomingBlocks_keeps entries).bind fun _ => .pure _) node between
  | newBlock fuel bl =>
    obtain ⟨tables, active⟩ := Option.isSome_iff_exists.mp enabled
    obtain ⟨inv, committed⟩ := between.busy tables active
    unfold perform
    rw [ensures_bind]
    exact (addNewBlock_keeps binding (by simp) fuel bl node inv).mono
      (fun _ _ inv => .of_busy inv committed) fun _ inv => .of_busy inv committed
  | cleanup => exact (cleanupHandleIncomingBlocks_keeps.bind fun _ => .pure _) node between
  | pop nblocks => exact popBlocks_keeps nblocks node between
  | removeStuck =>
    exact ((tick_maintains.bind fun now =>
      onPool_maintains (removeStuckTransactions_maintains now)) node between.beside).mono
        (fun _ _ kept => between.of_beside kept) fun _ => False.elim
  | setRelayed hashes method =>
    exact ((tick_maintains.bind fun now =>
      onPool_maintains (setRelayed_maintains hashes method now)) node between.beside).mono
        (fun _ _ kept => between.of_beside kept) fun _ => False.elim

/-! ## The start of a run -/

theorem genesis_fresh : empty.BlockFresh env (genesisEntry env network) where
  sizes := rfl
  miner :=
    { nodup := nodup_nil
      unspent := by simp [genesisEntry, generateGenesisBlock, Network.genesisTx,
        Transaction.keyImages, TxIn.keyImage?]
      new := rfl
      storable := by
        intro _ _ out member
        simp only [genesisEntry, generateGenesisBlock, Network.genesisTx, mem_singleton] at member
        rw [member]
        decide }
  txs := trivial
  new := rfl
  parent := fun height => absurd rfl height

theorem empty_difficulty (fixedDifficulty : Nat) :
    empty.getDifficultyForNextBlock fixedDifficulty = .ok 1 := by
  unfold getDifficultyForNextBlock
  split
  · rfl
  · rfl

/-- The call of `add_block` for the genesis block. -/
def addGenesis (env : Env) (network : Network) : ChainM Unit :=
  addBlock env (generateGenesisBlock network) (env.getTransactionWeight network.genesisTx)
    (getBlockSizeBound 0) 1 (Word.add 64 0 (getBlockReward 0)) []

theorem addGenesis_run (env : Env) (network : Network) :
    (addGenesis env network).run .empty = (.ok (), ofLedger env [genesisEntry env network]) := by
  have aligned : empty.Aligned := rfl
  exact (@addBlock_eq_ok empty _ env () (genesisEntry env network) aligned).mpr ⟨genesis_fresh, rfl⟩

/-- The node once the genesis block is added. -/
theorem Valid.between_genesis (chain : node.chain = ofLedger env [genesisEntry env network])
    (pool : node.pool.Holds env (Admitted env extra)) (scanTable : node.scanTable = [])
    (longhash : node.blocksLonghashTable = []) (batch : node.batch = none)
    (stored : node.chain.Keeping (Recorded env extra) 1) : node.Between env extra network := by
  refine .of_idle ⟨pool, stored, by simp [longhash], fun _ => ?_, batch⟩ scanTable
  refine ⟨_, .genesis, chain, ?_⟩
  rw [scanTable]
  exact Agrees.nil

theorem genesis_keeping :
    (ofLedger env [genesisEntry env network]).Keeping (Recorded env extra) 1 := by
  have start : empty.Keeping (Recorded env extra) 0 :=
    ⟨⟨[], rfl, rfl, by simp⟩, Nat.zero_le _, rfl⟩
  have kept : (addGenesis env network).Ensures .empty
      (fun _ => Keeping (Recorded env extra) 0)
      (Keeping (Recorded env extra) 0) :=
    addBlock_keeps env (.inl rfl) (by simp) _ start
  exact ⟨(kept.of_ok (addGenesis_run env network)).stored, by simp, ofLedger_aligned env _⟩

/-- `handle_block_to_main_chain` adds the genesis block to a new database, or marks it as
failed. -/
theorem handleGenesis_ensures {blockId : Hash} :
    (handleBlockToMainChain env (generateGenesisBlock network) blockId).Ensures .empty
      (fun _ node => node.bvc.verifivationFailed = false → node.Between env extra network)
      fun _ => True := by
  unfold handleBlockToMainChain
  rw [ensures_get_bind, ensures_bind, ensures_reads]
  refine ⟨fun topHash top => ?_, fun _ _ => trivial⟩
  cases top
  rw [ensures_ite]
  refine ⟨fun other => absurd rfl other, fun _ => ?_⟩
  simp only [tick, ensures_bind, ensures_get, ensures_modify, ensures_pure]
  rw [ensures_reads]
  refine ⟨fun timely _ => ?_, fun _ _ => trivial⟩
  rw [ensures_ite]
  refine ⟨fun _ => ?_, fun _ => ?_⟩
  · intro failed
    cases failed
  rw [ensures_bind, ensures_reads]
  refine ⟨fun difficulty next => ?_, fun _ _ => trivial⟩
  rw [show Node.empty.chain = empty from rfl, empty_difficulty] at next
  cases next
  rw [ensures_ite]
  refine ⟨fun zero => absurd zero Nat.one_ne_zero, fun _ => ?_⟩
  rw [ensures_ite]
  refine ⟨fun _ => ?_, fun _ => ?_⟩
  · intro failed
    cases failed
  rw [ensures_ite]
  refine ⟨fun tall => absurd rfl tall.1, fun _ => ?_⟩
  rw [ensures_bind]
  change Ensures (if 0 < 0 then pure false else _) _ _ _
  rw [ensures_ite]
  refine ⟨fun pruned => absurd pruned (Nat.lt_irrefl 0), fun _ => ?_⟩
  unfold connectBlock
  rw [ensures_bind, ensures_reads]
  refine ⟨fun coinsBefore coins => ?_, fun _ _ => trivial⟩
  cases coins
  rw [ensures_bind, ensures_reads]
  refine ⟨fun accepted balanced => ?_, fun _ _ => trivial⟩
  cases balanced
  rw [ensures_ite]
  refine ⟨fun refused => absurd rfl refused, fun _ => ?_⟩
  rw [ensures_bind, ensures_reads]
  refine ⟨fun cumulative total => ?_, fun _ _ => trivial⟩
  cases total
  rw [ensures_bind]
  have added : (do onChain (addGenesis env network); return true : NodeM Bool).Ensures
      ({ Node.empty with ticks := Node.empty.ticks + 1 } : Node)
      (fun _ node => node.Between env extra network) fun _ => False := by
    exact Valid.between_genesis rfl Pool.Holds.empty rfl rfl rfl genesis_keeping
  refine Ensures.tryCatch (added.mono ?_ fun _ => id) fun _ _ => False.elim
  intro isAdded node between
  rw [ensures_ite]
  refine ⟨fun _ => ?_, fun _ _ => between⟩
  rw [ensures_bind]
  refine (updateBvc_maintains _ node between.beside).mono ?_ fun _ => False.elim
  intro marked next kept
  rw [ensures_bind]
  refine (onPool_maintains onBlockchainChange_maintains next kept).mono ?_ fun _ => False.elim
  intro changed next kept
  rw [ensures_bind, ensures_reads]
  exact ⟨fun _ _ _ => between.of_beside kept, fun _ _ => trivial⟩

theorem initBlockchain_ensures :
    (initBlockchain env network).Ensures .empty
      (fun done node => done = true → node.Between env extra network) fun _ => True := by
  unfold initBlockchain
  rw [ensures_get_bind, ensures_ite]
  refine ⟨fun _ => ?_, fun tall => absurd rfl tall⟩
  have added : (addNewBlock env 1 (generateGenesisBlock network)).Ensures .empty
      (fun _ node => node.bvc.verifivationFailed = false → node.Between env extra network)
      fun _ => True := by
    unfold addNewBlock
    have tried : (do
        let node ← get
        if node.haveBlock (env.getBlockHash (generateGenesisBlock network)) then
          updateBvc fun bvc => { bvc with alreadyExists := true }
          return false
        else
          let tail ← reads fun node => node.chain.topBlockHash
          if (generateGenesisBlock network).prevId ≠ tail then
            handleAlternativeBlock env 1 (generateGenesisBlock network)
              (env.getBlockHash (generateGenesisBlock network))
          else
            handleBlockToMainChain env (generateGenesisBlock network)
              (env.getBlockHash (generateGenesisBlock network)) : NodeM Bool).Ensures .empty
        (fun _ node => node.bvc.verifivationFailed = false → node.Between env extra network)
        fun _ => True := by
      rw [ensures_get_bind, ensures_ite]
      refine ⟨fun known => absurd known (by simp [Node.haveBlock, Node.empty, blockExists,
        empty, Table.has]), fun _ => ?_⟩
      rw [ensures_bind, ensures_reads]
      refine ⟨fun tail top => ?_, fun _ _ => trivial⟩
      cases top
      rw [ensures_ite]
      exact ⟨fun other => absurd rfl other, fun _ => handleGenesis_ensures⟩
    refine tried.tryCatch ?_
    intro exception after reached failed
    cases failed
  rw [ensures_bind]
  refine added.mono ?_ fun _ => id
  intro result node between
  intro succeeded
  exact between (by simpa using succeeded)

/-- What holds between two calls, in every run that supplies `extra`. -/
theorem Run.between (binding : env.Binding) {allowed : Node → Command → Prop}
    (supplied : ∀ node command, allowed node command → command.Supplied env extra node)
    (run : Run env network allowed node) : node.Between env extra network := by
  induction run with
  | init ran => exact initBlockchain_ensures.of_ok ran rfl
  | @call node after command outcome run enabled isAllowed ran finished ih =>
    have kept := command.perform_keeps binding ih enabled (supplied node command isAllowed)
    cases outcome with
    | ok value => exact kept.of_ok ran
    | thrown exception => exact kept.of_thrown ran
    | exhausted => exact absurd rfl finished

end Between

/-! ## An environment with binding hashes

The assumptions on the hash functions can be met: serialised objects can be numbered. The
other operations of this environment accept everything. -/

instance encodableByte : Encodable UInt8 :=
  Encodable.ofLeftInjection UInt8.toNat (fun value => some (UInt8.ofNat value)) fun byte => by simp

deriving instance Encodable for TxinFromKey
deriving instance Encodable for TxIn
deriving instance Encodable for TxOut
deriving instance Encodable for RctType
deriving instance Encodable for ClsagUnsafe
deriving instance Encodable for BulletproofUnsafe
deriving instance Encodable for RctDataPrunable
deriving instance Encodable for RctData
deriving instance Encodable for Transaction

/-- An environment that numbers confidential transactions, tells miner transactions apart by
their unlock height and blocks by their time. -/
def plainEnv : Env where
  order := 2 ^ 252 + 27742317777372353535851937790883648493
  add := fun _ _ => some identity
  sub := fun _ _ => some identity
  scalarmultNoclamp := fun _ _ => some identity
  scalarmultBaseNoclamp := fun _ => identity
  isValidPoint := fun _ => true
  mult8Fast := fun point => point
  hashToPointViaField := fun _ => identity
  H := identity
  invEight := 1
  hashDataV := fun _ => 1
  getTransactionHash := fun tx =>
    if tx.ringct.type = .null then tx.unlockHeight else Encodable.encode tx
  getTransactionPrefixHash := fun tx => Encodable.encode tx.vin
  getBlockHash := fun bl => bl.timestamp
  getMiningHash := fun _ => 0
  getTransactionWeight := fun _ => 100
  getRctsigBaseHash := fun _ _ _ => 0
  bulletproofVerify := fun _ _ _ => true
  feePerWeight := fun fee _ => fee
  fixedDifficulty := 0
  txpoolMaxWeight := 1000000
  clock := fun reading => 1000 + reading
  memory := fun _ _ => 0

theorem plainEnv_binding : plainEnv.Binding where
  transaction := by
    intro a b _ _ first second same
    simp only [plainEnv, first, second] at same
    exact Encodable.encode_injective same
  inputs := fun _ _ same => Encodable.encode_injective same
  mining := fun _ _ _ => rfl

/-- The node after `Blockchain::init` on a new database. -/
def Node.started (env : Env) (network : Network) : Node :=
  ((initBlockchain env network).run .empty).2

variable {allowed : Node → Command → Prop}
variable {env : Env} {network : Network}

/-- An initialisation that succeeds starts a run. -/
theorem Run.start (succeeded : ((initBlockchain env network).run .empty).1 = .ok true) :
    Run env network allowed (Node.started env network) :=
  .init (Prod.ext succeeded rfl)

/-- The state a call leaves. -/
def Command.after (env : Env) (command : Command) (node : Node) : Node :=
  ((command.perform env).run node).2

/-- A call that returns continues a run. -/
theorem Run.next {node : Node} (run : Run env network allowed node) (command : Command)
    (enabled : command.Enabled node) (isAllowed : allowed node command)
    (returned : ((command.perform env).run node).1 = .ok ()) :
    Run env network allowed (command.after env node) :=
  .call run enabled isAllowed (Prod.ext returned rfl) (by simp)

/-- A block on the genesis block of `plainEnv`, without transactions. -/
def firstBlock : Block :=
  { majorVersion := constantHfVersion
    minorVersion := constantHfVersion
    timestamp := 300
    prevId := 0
    nonce := 0
    minerTx :=
      { version := txVersion
        unlockHeight := 61
        vin := [.gen 1]
        vout := [{ amount := getBlockReward (getBlockReward 0), outputPublicKey := 0 }]
        extra := []
        ringct :=
          { type := .null
            ecdhEncryptedData := []
            outputCommits := []
            fee := 0
            p := { bulletproofs := [], clsags := [], pseudoInputCommits := [] } } }
    txHashes := [] }

/-- The node after a bracket that adds `firstBlock`. -/
def firstNode : Node :=
  Command.cleanup.after plainEnv ((Command.newBlock 1 firstBlock).after plainEnv
    ((Command.prepare [{ block := some firstBlock, txs := [] }]).after plainEnv
      (Node.started plainEnv mainnet)))

theorem firstNode_run (all : ∀ node command, allowed node command) :
    Run plainEnv mainnet allowed firstNode := by
  have start : Run plainEnv mainnet allowed (Node.started plainEnv mainnet) :=
    Run.start (by decide)
  have opened := start.next (.prepare [{ block := some firstBlock, txs := [] }]) trivial
    (all _ _) (by decide)
  have added := opened.next (.newBlock 1 firstBlock) rfl (all _ _) (by decide)
  exact added.next .cleanup trivial (all _ _) (by decide)

end Memero
