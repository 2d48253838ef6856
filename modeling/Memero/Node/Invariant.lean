import Memero.Node.Accepted

/-!
# What the node keeps

The invariant of the node while blocks and transactions are handled. Its first part holds
always, also in a batch that has failed: the pool and the transaction tables hold admitted
transactions only. Its second part, that the chain tables hold a valid ledger, holds as long
as the batch has not failed; `live` says from `m_batch_success` when that is. Most functions
change only what lies beside the chain, so what they do to the chain is said once.
-/

namespace Memero

open List ChainTables

open Exec

open ChainTables (ofLedger)

/-- The chain tables hold a valid ledger, and the outputs looked up in advance are in them. -/
def Sound (env : Env) (extra : Transaction → Prop) (network : Network) (chain : ChainTables)
    (scanTable : ScanTable) : Prop :=
  ∃ ledger, Valid env extra network ledger ∧ chain = ofLedger env ledger ∧
    chain.Agrees env scanTable

/-- The invariant of the node, in a batch that started with the tables `batch`. -/
structure Node.Inv (env : Env) (extra : Transaction → Prop) (network : Network)
    (live : Bool → Prop) (batch : Option Database) (node : Node) : Prop where
  pool : node.pool.Holds env (Admitted env extra)
  chain : node.chain.Keeping (Recorded env extra) 1
  longhash : ∀ row ∈ node.blocksLonghashTable,
    ∃ bl, row = (env.getBlockHash bl, env.getMiningHash bl)
  sound : live node.batchSuccess → Sound env extra network node.chain node.scanTable
  batch : node.batch = batch

/-- Two nodes that differ only beside the chain, the second with a good pool. -/
structure Node.Beside (env : Env) (extra : Transaction → Prop) (before after : Node) :
    Prop where
  pool : after.pool.Holds env (Admitted env extra)
  chain : after.chain = before.chain
  altBlocks : after.altBlocks = before.altBlocks
  scanTable : after.scanTable = before.scanTable
  longhash : after.blocksLonghashTable = before.blocksLonghashTable
  batch : after.batch = before.batch
  batchSuccess : after.batchSuccess = before.batchSuccess

section Keeping

variable {env : Env} {extra : Transaction → Prop} {network : Network} {live : Bool → Prop}
  {batch : Option Database} {before : Node}

namespace Node

variable {node : Node}
variable (inv : node.Inv env extra network live batch)
include inv

theorem Inv.beside : Beside env extra node node :=
  ⟨inv.pool, rfl, rfl, rfl, rfl, rfl, rfl⟩

theorem Inv.of_beside {after : Node} (beside : Beside env extra node after) :
    after.Inv env extra network live batch where
  pool := beside.pool
  chain := by
    rw [beside.chain]
    exact inv.chain
  longhash := by
    rw [beside.longhash]
    exact inv.longhash
  sound := by
    rw [beside.chain, beside.scanTable, beside.batchSuccess]
    exact inv.sound
  batch := beside.batch.trans inv.batch

/-- A hash computed in advance is the one the block has. -/
theorem Inv.longhash_work (binding : env.Binding) {bl : Block} {difficulty : Nat}
    (worked : checkHash ((node.blocksLonghashTable.find (env.getBlockHash bl)).getD (env.getMiningHash bl)) difficulty = true) :
    checkHash (env.getMiningHash bl) difficulty = true := by
  cases found : node.blocksLonghashTable.find (env.getBlockHash bl) with
  | none => simpa [found] using worked
  | some hash =>
    obtain ⟨other, row⟩ := inv.longhash _ (Table.mem_of_find found)
    simp only [Prod.mk.injEq] at row
    rw [found, row.2, ← binding.mining bl other row.1] at worked
    exact worked

end Node

open Node (Beside)

/-! ## Beside the chain -/

theorem tick_maintains : Maintains (Beside env extra before) (tick env) :=
  fun _ kept => { kept with }

theorem nextMemory_maintains : Maintains (Beside env extra before) (nextMemory env) :=
  fun _ kept => { kept with }

theorem updateBvc_maintains (change : BlockVerificationContext → BlockVerificationContext) :
    Maintains (Beside env extra before) (updateBvc change) :=
  fun _ kept => { kept with }

theorem addBlockAsInvalid_maintains (bei : BlockExtendedInfo) (id : Hash) :
    Maintains (Beside env extra before) (addBlockAsInvalid bei id) := by
  intro node kept
  simp only [addBlockAsInvalid, ensures_modify]
  split
  · exact kept
  · exact { kept with }

variable {node : Node} {scanTable : ScanTable} {tx : Transaction} {inputs : List TxinFromKey}
  {bl : Block} {txs : List Transaction} {collected : BlockTxs} {coinbase : CoinbaseTx}

theorem Node.Beside.withPool (kept : Beside env extra before node) {pool : Pool}
    (holds : pool.Holds env (Admitted env extra)) :
    Beside env extra before { node with pool := pool } :=
  { kept with pool := holds }

theorem onPool_maintains {α : Type} {body : PoolM α}
    (maintained : Maintains (Pool.Holds env (Admitted env extra)) body) :
    Maintains (Beside env extra before) (onPool body) := by
  intro node kept
  rw [onPool, ensures_zoom]
  exact (maintained _ kept.pool).mono (fun _ _ holds => kept.withPool holds) fun _ => id

variable {db : ChainTables} {uninit : Uninit} {difficulty coinsBefore total : Nat}

section

variable (typed : tx.vin.mapM TxIn.fromKey? = some inputs)
include typed

/-- The check of the inputs of an admitted transaction throws nothing. -/
theorem ChainTables.collectRingct_ne_error (exception : Exn) :
    db.collectRingct env scanTable tx ≠ .error exception := by
  unfold collectRingct
  rw [typed]
  dsimp only
  repeat' split
  all_goals simp

theorem ChainTables.checkRingctInputs_ne_error (exception : Exn) :
    db.checkRingctInputs env scanTable uninit tx ≠ .error exception := by
  unfold checkRingctInputs
  cases collected : db.collectRingct env scanTable tx with
  | error other => exact absurd collected (collectRingct_ne_error typed other)
  | ok data => simp [Except.map]

theorem ChainTables.checkRingctInputsWithId_error {exception : Exn}
    (failed : db.checkRingctInputsWithId env scanTable uninit tx = .error exception) :
    ¬ db.Aligned := by
  intro aligned
  unfold checkRingctInputsWithId at failed
  cases checked : db.checkRingctInputs env scanTable uninit tx with
  | error other => exact checkRingctInputs_ne_error typed other checked
  | ok used =>
    rw [checked] at failed
    cases used with
    | none => cases failed
    | some height =>
      dsimp only at failed
      split at failed
      · rename_i below
        have known : height < db.blockInfo.length := by
          rw [show db.blockInfo.length = db.blocks.length from aligned]
          exact below
        simp [getBlockHashFromHeight, getBlockInfo, known, Except.map] at failed
      · cases failed

end

theorem ChainTables.checkRingctInputs_of_withId {used : Nat × Hash}
    (checked : db.checkRingctInputsWithId env scanTable uninit tx = .ok (some used)) :
    ∃ height, db.checkRingctInputs env scanTable uninit tx = .ok (some height) := by
  unfold checkRingctInputsWithId at checked
  cases result : db.checkRingctInputs env scanTable uninit tx with
  | error exception => simp [result] at checked
  | ok found =>
    cases found with
    | none => simp [result] at checked
    | some height => exact ⟨height, rfl⟩

/-! ## Transactions back to the pool -/

/-- A call of `add_tx` with an admitted transaction does not throw. -/
theorem poolAddTx_ensures {blob : Transaction} {id : Hash} {txRelay : RelayMethod} {relayed : Bool}
    (kept : Beside env extra before node) (aligned : before.chain.Aligned)
    (given : env.checkRingctOutputs tx = true →
      txRelay = .block ∨
      (∃ uninit used, before.chain.checkRingctInputs env before.scanTable uninit tx =
      .ok (some used)) → blob = tx ∧ Admitted env extra id tx)
    (typed : ∃ inputs, tx.vin.mapM TxIn.fromKey? = some inputs) :
    (poolAddTx env tx blob id txRelay relayed).Ensures node
      (fun _ => Beside env extra before) fun _ => False := by
  obtain ⟨inputs, typed⟩ := typed
  simp only [poolAddTx, onPool, ensures_bind, ensures_zoom]
  refine (addTx_ensures ?_ kept.pool).mono ?_ ?_
  · intro outputs passed
    have passed : txRelay = .block ∨ (∃ uninit used,
        before.chain.checkRingctInputs env before.scanTable uninit tx = .ok (some used)) := by
      refine passed.imp_right ?_
      rintro ⟨used, checked⟩
      rw [← kept.chain, ← kept.scanTable]
      exact ⟨_, checkRingctInputs_of_withId checked⟩
    obtain ⟨rfl, admitted⟩ := given outputs passed
    refine { same := rfl, modern := ?_, weight := rfl, accepted := admitted }
    rw [admitted.version]
    decide
  · intro added pool holds
    exact { kept with pool := holds }
  · rintro pool ⟨-, exception, failed⟩
    rw [kept.chain] at failed
    exact checkRingctInputsWithId_error typed failed aligned

/-- Transactions taken from the pool, each with what its blob encodes. -/
def Returnable (env : Env) (extra : Transaction → Prop)
    (txs : List (Transaction × Transaction)) : Prop :=
  ∀ item ∈ txs, item.2 = item.1 ∧ Admitted env extra (env.getTransactionHash item.1) item.1

section

variable {txs : List (Transaction × Transaction)} (kept : Beside env extra before node)
  (aligned : before.chain.Aligned) (returnable : Returnable env extra txs)
include kept aligned returnable

theorem returnTxToPool_ensures :
    (returnTxToPool env txs).Ensures node (fun _ => Beside env extra before) fun _ => False := by
  induction txs generalizing node with
  | nil => exact kept
  | cons item rest ih =>
    obtain ⟨same, admitted⟩ := returnable item (by simp)
    have others : Returnable env extra rest :=
      fun other member => returnable other (mem_cons_of_mem _ member)
    simp only [returnTxToPool, forEach, ensures_bind]
    exact (poolAddTx_ensures kept aligned (fun _ _ => ⟨same, admitted⟩) admitted.typed).mono
      (fun _ _ next => ih next others) fun _ => id

theorem failWithTxs_ensures {α : Type} :
    (failWithTxs env txs : NodeM (Option α)).Ensures node
      (fun result after => Beside env extra before after ∧ result = none) fun _ => False := by
  unfold failWithTxs
  rw [ensures_bind]
  refine (updateBvc_maintains _ node kept).mono ?_ fun _ => False.elim
  intro done marked kept
  rw [ensures_bind]
  exact (returnTxToPool_ensures kept aligned returnable).mono (fun _ _ kept => ⟨kept, rfl⟩)
    fun _ => id

end

/-! ## The transactions of a block -/

/-- What the loop of `handle_block_to_main_chain` has collected: the transactions `txs`, each
checked against the chain of `before`. -/
structure Collected (env : Env) (extra : Transaction → Prop) (before : Node) (bl : Block)
    (txs : List Transaction) (collected : BlockTxs) : Prop where
  pairs : collected.txs = txs.map fun tx => (tx, tx)
  feeSummary : collected.feeSummary = sum64 (txs.map getTxFee)
  weight : collected.cumulativeBlockWeight =
    (txs.map env.getTransactionWeight).foldl (Word.add 64) (env.getTransactionWeight bl.minerTx)
  complete : collected.nPruned = 0
  admitted : ∀ tx ∈ txs, Admitted env extra (env.getTransactionHash tx) tx
  checked : ∀ tx ∈ txs, env.checkRingctOutputs tx = true ∧ ∃ uninit used,
    before.chain.checkRingctInputs env before.scanTable uninit tx = .ok (some used)

theorem Collected.returnable (done : Collected env extra before bl txs collected) :
    Returnable env extra collected.txs := by
  intro item member
  rw [done.pairs] at member
  obtain ⟨tx, present, rfl⟩ := mem_map.mp member
  exact ⟨rfl, done.admitted tx present⟩

theorem Collected.snoc (done : Collected env extra before bl txs collected) {id : Hash}
    {taken : TakenTx} (same : taken.blob = taken.tx)
    (faithful : taken.Faithful env (Admitted env extra) id)
    (outputs : env.checkRingctOutputs taken.tx = true) {used : Nat}
    (inputs : before.chain.checkRingctInputs env before.scanTable uninit taken.tx = .ok (some used)) :
    Collected env extra before bl (txs ++ [taken.tx])
      { txs := collected.txs ++ [(taken.tx, taken.blob)]
        feeSummary := Word.add 64 collected.feeSummary taken.fee
        cumulativeBlockWeight := Word.add 64 collected.cumulativeBlockWeight taken.txWeight
        nPruned := if taken.pruned then collected.nPruned + 1 else collected.nPruned } where
  pairs := by simp [done.pairs, same]
  feeSummary := by simp [done.feeSummary, sum64, faithful.fee, same, getTxFee]
  weight := by simp [done.weight, faithful.weight, same]
  complete := by simp [faithful.complete, done.complete]
  admitted := by
    intro tx member
    rcases mem_append.mp member with old | new
    · exact done.admitted tx old
    · rw [mem_singleton.mp new, faithful.tx.hash]
      exact faithful.tx
  checked := by
    intro tx member
    rcases mem_append.mp member with old | new
    · exact done.checked tx old
    · rw [mem_singleton.mp new]
      exact ⟨outputs, uninit, used, inputs⟩

theorem takeBlockTxs_ensures (binding : env.Binding) {blockId : Hash} {hashes : List Hash}
    (kept : Beside env extra before node) (aligned : before.chain.Aligned)
    (done : Collected env extra before bl txs collected) :
    (takeBlockTxs env bl blockId hashes collected).Ensures node
      (fun result after => Beside env extra before after ∧ ∀ final, result = some final →
        ∃ more, hashes = more.map env.getTransactionHash ∧
          Collected env extra before bl (txs ++ more) final) fun _ => False := by
  induction hashes generalizing node txs collected with
  | nil =>
    refine ⟨kept, ?_⟩
    rintro final same
    cases same
    exact ⟨[], rfl, by simpa using done⟩
  | cons txId rest ih =>
    -- A refused block returns what was taken and collects nothing.
    have refused : ∀ {pairs : List (Transaction × Transaction)} {node : Node},
        Beside env extra before node → Returnable env extra pairs →
        (failWithTxs env pairs : NodeM (Option BlockTxs)).Ensures node
          (fun result after => Beside env extra before after ∧
            ∀ final, result = some final → ∃ more,
              txId :: rest = more.map env.getTransactionHash ∧
                Collected env extra before bl (txs ++ more) final) fun _ => False := by
      intro pairs node kept returnable
      refine (failWithTxs_ensures kept aligned returnable).mono ?_ fun _ => id
      rintro result after ⟨kept, rfl⟩
      exact ⟨kept, fun _ impossible => by cases impossible⟩
    simp only [takeBlockTxs, ensures_bind, ensures_ite]
    refine ⟨fun _ => refused kept done.returnable, fun _ => ?_⟩
    rw [onPool, ensures_zoom]
    refine (takeTx_ensures kept.pool).mono ?_ fun _ => False.elim
    rintro taken pool ⟨holds, faithful⟩
    have keptPool := kept.withPool holds
    cases taken with
    | none => exact refused keptPool done.returnable
    | some result =>
      have faithful := faithful result rfl
      have same : result.blob = result.tx := faithful.tx.unique binding faithful.blob
      have admitted : Admitted env extra (env.getTransactionHash result.tx) result.tx := by
        rw [faithful.tx.hash]
        exact faithful.tx
      obtain ⟨inputs, typed⟩ := admitted.typed
      rw [ensures_bind]
      refine (nextMemory_maintains _ keptPool).mono ?_ fun _ => False.elim
      intro uninit node kept
      rw [ensures_bind, ensures_reads]
      refine ⟨fun used checked => ?_, fun exception failed => absurd failed
        (checkRingctInputs_ne_error typed exception)⟩
      rw [ensures_ite]
      refine ⟨fun accepted => ?_, fun _ => ?_⟩
      · obtain ⟨height, rfl⟩ := Option.isSome_iff_exists.mp accepted.1
        rw [kept.chain, kept.scanTable] at checked
        refine (ih kept (done.snoc same faithful accepted.2 checked)).mono ?_ fun _ => id
        rintro found after ⟨kept, all⟩
        refine ⟨kept, fun final isFinal => ?_⟩
        obtain ⟨more, hashes, collected⟩ := all final isFinal
        refine ⟨result.tx :: more, ?_, by simpa using collected⟩
        rw [map_cons, faithful.tx.hash, hashes]
      · rw [ensures_bind]
        refine (addBlockAsInvalid_maintains _ _ node kept).mono ?_ fun _ => False.elim
        intro marked node kept
        refine refused kept fun item member => ?_
        rcases mem_append.mp member with old | new
        · exact done.returnable item old
        · rw [mem_singleton.mp new]
          exact ⟨same, admitted⟩

/-! ## Connecting a block -/

theorem prevalidate_height {height : Nat}
    (prevalidated : env.prevalidateMinerTransaction bl height = some coinbase) :
    height ≠ 0 ∧ getBlockHeight bl = height ∧ bl.minerTx.isCoinbase = true := by
  have checked := Env.minerChecked_of_prevalidate prevalidated
  exact ⟨checked.positive, by simp [getBlockHeight, checked.inputs],
    by simp [Transaction.isCoinbase, checked.inputs]⟩

/-- The entry of a block with its collected transactions. -/
def connectedEntry (bl : Block) (txs : List Transaction) (collected : BlockTxs)
    (cumulativeDifficulty coinsBefore : Nat) : Entry :=
  { block := bl
    txs := txs
    weight := collected.cumulativeBlockWeight
    longTermBlockWeight := getBlockSizeBound (getBlockHeight bl)
    cumulativeDifficulty := cumulativeDifficulty
    alreadyGeneratedCoins := Word.add 64 coinsBefore (getBlockReward coinsBefore) }

/-- What `handle_block_to_main_chain` has established before it connects a block. -/
structure Ready (env : Env) (before : Node) (bl : Block) (difficulty : Nat)
    (coinbase : CoinbaseTx) : Prop where
  parent : before.chain.topBlockHash = .ok bl.prevId
  timely : ∃ now, before.chain.checkBlockTimestamp now bl = .ok true
  next : before.chain.getDifficultyForNextBlock env.fixedDifficulty = .ok difficulty
  positive : difficulty ≠ 0
  work : checkHash (env.getMiningHash bl) difficulty = true
  prevalidated : env.prevalidateMinerTransaction bl before.chain.height = some coinbase

theorem Ready.accepted (binding : env.Binding) (ready : Ready env before bl difficulty coinbase)
    (done : Collected env extra before bl txs collected)
    (hashes : bl.txHashes = txs.map env.getTransactionHash) {ledger : Ledger}
    (holds : before.chain = ofLedger env ledger) (agrees : before.chain.Agrees env before.scanTable)
    (coins : before.chain.getBlockAlreadyGeneratedCoins (before.chain.height - 1) = .ok coinsBefore)
    (balanced : acceptsCoinbase bl (some coinbase) collected coinsBefore = .ok true)
    (cumulative : before.chain.mainCumulativeDifficulty difficulty = .ok total)
    (fresh : before.chain.BlockFresh env (connectedEntry bl txs collected total coinsBefore)) :
    Accepted env extra ledger (connectedEntry bl txs collected total coinsBefore) := by
  obtain ⟨nonzero, height, -⟩ := prevalidate_height ready.prevalidated
  have length : before.chain.height = ledger.length := by rw [holds, ofLedger_height]
  refine
    { fresh := holds ▸ fresh
      parent := holds ▸ ready.parent
      timely := holds ▸ ready.timely
      work := ⟨difficulty, holds ▸ ready.next, ready.positive, ready.work, holds ▸ cumulative⟩
      coinbase := ⟨coinbase, coinsBefore, length ▸ ready.prevalidated, ?_, ?_, rfl⟩
      weight := done.weight
      hashes := hashes
      txs := ?_ }
  · rw [← length, ← holds]
    exact coins
  · rw [acceptsCoinbase, height, if_neg nonzero] at balanced
    simp only [Except.ok.injEq, done.feeSummary] at balanced
    rw [show getBlockHeight (connectedEntry bl txs collected total coinsBefore).block =
      before.chain.height from height]
    exact balanced
  · intro tx member
    obtain ⟨outputs, uninit, used, inputs⟩ := done.checked tx member
    have admitted := done.admitted tx member
    refine { admitted := admitted, inputs := ⟨uninit, used, ?_⟩, outputs := outputs }
    rw [← holds, ← checkRingctInputs_eq agrees binding.inputs admitted.distinct]
    exact inputs

/-! ## What becomes of a block -/

/-- The node after the block of `entry` was added. -/
structure Node.Added (env : Env) (extra : Transaction → Prop) (before : Node) (entry : Entry)
    (after : Node) : Prop where
  prevalidated : ∃ coinbase,
    env.prevalidateMinerTransaction entry.block before.chain.height = some coinbase
  hashes : entry.block.txHashes = entry.txs.map env.getTransactionHash
  admitted : ∀ tx ∈ entry.txs, Admitted env extra (env.getTransactionHash tx) tx
  fresh : before.chain.BlockFresh env entry
  accepted : ∀ ledger, before.chain = ofLedger env ledger →
    before.chain.Agrees env before.scanTable → Accepted env extra ledger entry
  beside : Beside env extra { before with chain := before.chain.pushBlock env entry } after

/-- The node after `add_block` threw: the block may be half written, and the batch has
failed. -/
structure Node.Spoiled (env : Env) (extra : Transaction → Prop) (before after : Node) :
    Prop where
  chain : after.chain.Keeping (Recorded env extra) 1
  beside : Beside env extra
    { before with chain := after.chain, batchSuccess := false } after

/-- What `handle_block_to_main_chain` has done when it returns. -/
inductive Node.Handled (env : Env) (extra : Transaction → Prop) (before : Node) (bl : Block) :
    Bool → Node → Prop where
  | added {entry : Entry} {after : Node} (block : entry.block = bl)
      (added : before.Added env extra entry after)
      (flagged : after.bvc.addedToMainChain = true) : Handled env extra before bl true after
  | refused {after : Node} (beside : Beside env extra before after) :
      Handled env extra before bl false after
  | spoiled {after : Node} (spoiled : before.Spoiled env extra after) :
      Handled env extra before bl false after

/-- What `handle_block_to_main_chain` has done when it throws. -/
inductive Node.Interrupted (env : Env) (extra : Transaction → Prop) (before : Node)
    (bl : Block) : Node → Prop where
  | added {entry : Entry} {after : Node} (block : entry.block = bl)
      (added : before.Added env extra entry after) : Interrupted env extra before bl after
  | refused {after : Node} (beside : Beside env extra before after) :
      Interrupted env extra before bl after

namespace Node

variable {entry : Entry} {after : Node}

theorem Added.minerCoinbase (added : before.Added env extra entry after) :
    entry.block.minerTx.isCoinbase = true := by
  obtain ⟨coinbase, prevalidated⟩ := added.prevalidated
  exact (prevalidate_height prevalidated).2.2

/-- What follows the addition changes the pool and the context only. -/
theorem Added.withPool {node : Node} (added : before.Added env extra entry node) {pool : Pool}
    (holds : pool.Holds env (Admitted env extra)) (bvc : BlockVerificationContext) :
    before.Added env extra entry { node with pool := pool, bvc := bvc } :=
  { added with beside := { added.beside with pool := holds } }

theorem Added.keeping (added : before.Added env extra entry after)
    (kept : before.chain.Keeping (Recorded env extra) 1) :
    (before.chain.pushBlock env entry).Keeping (Recorded env extra) 1 := by
  have recorded := @addBlock_keeps (Recorded env extra) 1 env entry.block
    entry.weight entry.longTermBlockWeight entry.cumulativeDifficulty
    entry.alreadyGeneratedCoins (entry.txs.map fun tx => (tx, tx)) (.inl added.minerCoinbase) ?_
  · exact (recorded before.chain kept).of_ok
      ((@addBlock_eq_ok _ _ env () entry kept.aligned).mpr ⟨added.fresh, rfl⟩)
  · intro item member
    obtain ⟨tx, present, rfl⟩ := mem_map.mp member
    exact .inr (added.admitted tx present)

theorem Inv.of_added (inv : before.Inv env extra network live batch)
    (added : before.Added env extra entry after) : after.Inv env extra network live batch where
  pool := added.beside.pool
  chain := by
    rw [added.beside.chain]
    exact added.keeping inv.chain
  longhash := by
    rw [added.beside.longhash]
    exact inv.longhash
  sound := by
    intro alive
    rw [added.beside.batchSuccess] at alive
    obtain ⟨ledger, valid, holds, agrees⟩ := inv.sound alive
    have retains := (pushBlock_retains env entry (ofLedger_numbered env ledger)).2
    rw [added.beside.chain, added.beside.scanTable]
    refine ⟨_, valid.extend (added.accepted ledger holds agrees), ?_, ?_⟩
    · rw [ofLedger_append, ← holds]
    · exact agrees.retained (holds ▸ retains)
  batch := added.beside.batch.trans inv.batch

theorem Inv.of_spoiled (inv : before.Inv env extra network live batch) (dead : ¬ live false)
    (spoiled : before.Spoiled env extra after) :
    after.Inv env extra network live batch where
  pool := spoiled.beside.pool
  chain := spoiled.chain
  longhash := by
    rw [spoiled.beside.longhash]
    exact inv.longhash
  sound := by
    intro alive
    rw [spoiled.beside.batchSuccess] at alive
    exact absurd alive dead
  batch := spoiled.beside.batch.trans inv.batch

end Node

section

variable (binding : env.Binding) (inv : before.Inv env extra network live batch)
  (ready : Ready env before bl difficulty coinbase)
  (done : Collected env extra before bl txs collected)
  (hashes : bl.txHashes = txs.map env.getTransactionHash) (kept : Beside env extra before node)
include binding inv ready done hashes kept

/-- Writing the block adds it, or leaves good tables. -/
theorem writeBlock_ensures
    (coins : before.chain.getBlockAlreadyGeneratedCoins (before.chain.height - 1) = .ok coinsBefore)
    (balanced : acceptsCoinbase bl (some coinbase) collected coinsBefore = .ok true)
    (cumulative : before.chain.mainCumulativeDifficulty difficulty = .ok total) :
    (do
      onChain (addBlock env bl collected.cumulativeBlockWeight
        (getBlockSizeBound (getBlockHeight bl)) total
        (Word.add 64 coinsBefore (getBlockReward coinsBefore)) collected.txs)
      return true : NodeM Bool).Ensures node
      (fun result after => result = true ∧
        before.Added env extra (connectedEntry bl txs collected total coinsBefore) after)
      fun after => after.chain.Keeping (Recorded env extra) 1 ∧
        Beside env extra { before with chain := after.chain } after := by
  have recorded : (addBlock env bl collected.cumulativeBlockWeight
      (getBlockSizeBound (getBlockHeight bl)) total
      (Word.add 64 coinsBefore (getBlockReward coinsBefore)) collected.txs).Ensures before.chain
        (fun _ => Keeping (Recorded env extra) 1)
        (Keeping (Recorded env extra) 1) := by
    refine addBlock_keeps env (.inl (prevalidate_height ready.prevalidated).2.2) ?_ _ inv.chain
    intro item member
    obtain ⟨same, admitted⟩ := done.returnable item member
    rw [same]
    exact .inr admitted
  rw [ensures_bind, onChain, ensures_zoom, kept.chain]
  refine .intro ?_ ?_
  · intro written after ran
    rw [done.pairs] at ran
    obtain ⟨fresh, rfl⟩ := (@addBlock_eq_ok _ _ env _
      (connectedEntry bl txs collected total coinsBefore) inv.chain.aligned).mp ran
    refine ⟨rfl, ⟨coinbase, ready.prevalidated⟩, hashes, done.admitted, fresh, ?_,
      { kept with chain := rfl }⟩
    intro ledger holds agrees
    exact ready.accepted binding done hashes holds agrees coins balanced cumulative fresh
  · intro exception after ran
    exact ⟨recorded.of_thrown ran, kept.pool, rfl, kept.altBlocks, kept.scanTable,
      kept.longhash, kept.batch, kept.batchSuccess⟩

theorem connectBlock_ensures :
    (connectBlock env bl difficulty (some coinbase) collected).Ensures node
      (before.Handled env extra bl) (before.Interrupted env extra bl) := by
  have nonzero := (prevalidate_height ready.prevalidated).1
  have sameChain := kept.chain
  unfold connectBlock
  rw [ensures_bind, ensures_reads]
  refine ⟨fun coinsBefore coins => ?_, fun _ _ => .refused kept⟩
  rw [sameChain, if_neg nonzero] at coins
  rw [ensures_bind, ensures_reads]
  refine ⟨fun accepted balanced => ?_, fun _ _ => .refused kept⟩
  rw [ensures_ite]
  refine ⟨fun _ => ?_, fun isAccepted => ?_⟩
  · rw [ensures_bind]
    refine (updateBvc_maintains _ node kept).mono ?_ fun _ => False.elim
    intro marked node kept
    rw [ensures_bind]
    exact (returnTxToPool_ensures kept inv.chain.aligned done.returnable).mono
      (fun _ _ kept => .refused kept) fun _ => False.elim
  · cases not_not.mp isAccepted
    rw [ensures_bind, ensures_reads]
    refine ⟨fun total cumulative => ?_, fun _ _ => .refused kept⟩
    rw [sameChain] at cumulative
    rw [ensures_bind]
    -- Either the block is in the tables now, or the handler has run.
    have tried : (do
        onChain (addBlock env bl collected.cumulativeBlockWeight
          (getBlockSizeBound (getBlockHeight bl)) total
          (Word.add 64 coinsBefore (getBlockReward coinsBefore)) collected.txs)
        return true : NodeM Bool).Ensures node
        (fun result after => (result = true ∧ before.Added env extra
            (connectedEntry bl txs collected total coinsBefore) after) ∨
          result = false ∧ before.Spoiled env extra after) _ :=
      (writeBlock_ensures binding inv ready done hashes kept coins balanced cumulative).mono
        (fun _ _ => .inl) fun _ => id
    refine (tried.tryCatch ?_).mono ?_ fun _ => False.elim
    · rintro exception failed ⟨keeping, beside⟩
      rw [ensures_modify_bind, ensures_bind]
      refine (updateBvc_maintains _ _ (⟨beside.pool, rfl, rfl, rfl, rfl, rfl, rfl⟩ :
        Beside env extra { failed with batchSuccess := false }
          { failed with batchSuccess := false })).mono ?_ fun _ => False.elim
      intro marked node kept
      rw [ensures_bind]
      refine (returnTxToPool_ensures kept keeping.aligned done.returnable).mono ?_
        fun _ => False.elim
      intro returned after kept
      refine .inr ⟨rfl, kept.chain ▸ keeping, kept.pool, rfl, kept.altBlocks.trans
        beside.altBlocks, kept.scanTable.trans beside.scanTable, kept.longhash.trans
          beside.longhash, kept.batch.trans beside.batch, kept.batchSuccess⟩
    · rintro result node (⟨rfl, added⟩ | ⟨rfl, spoiled⟩)
      · rw [ensures_ite]
        refine ⟨fun _ => ?_, fun wrong => absurd rfl wrong⟩
        rw [updateBvc, ensures_modify_bind, ensures_bind, onPool, ensures_zoom]
        refine (onBlockchainChange_maintains _ added.beside.pool).mono ?_ fun _ => False.elim
        intro changed pool holds
        have finished := added.withPool holds { node.bvc with addedToMainChain := true }
        rw [ensures_bind, ensures_reads]
        exact ⟨fun _ _ => .added rfl finished rfl, fun _ _ => .added rfl finished⟩
      · exact .spoiled spoiled

end

/-- `handle_block_to_main_chain` adds the block, leaves the chain alone or spoils the batch. -/
theorem handleBlockToMainChain_ensures (binding : env.Binding)
    (inv : before.Inv env extra network live batch) (bl : Block) :
    (handleBlockToMainChain env bl (env.getBlockHash bl)).Ensures before
      (before.Handled env extra bl) (before.Interrupted env extra bl) := by
  have failed : ∀ {node : Node}, Beside env extra before node →
      failBlock.Ensures node (before.Handled env extra bl) (before.Interrupted env extra bl) := by
    intro node kept
    rw [failBlock, ensures_bind]
    exact (updateBvc_maintains _ _ kept).mono (fun _ _ kept => .refused kept) fun _ => False.elim
  unfold handleBlockToMainChain
  rw [ensures_get_bind, ensures_bind, ensures_reads]
  refine ⟨fun topHash top => ?_, fun _ _ => .refused inv.beside⟩
  rw [ensures_ite]
  refine ⟨fun _ => failed inv.beside, fun isTop => ?_⟩
  rw [← not_not.mp isTop] at top
  rw [ensures_bind]
  refine (tick_maintains before inv.beside).mono ?_ fun _ => False.elim
  intro now node kept
  rw [ensures_bind, ensures_reads]
  refine ⟨fun timely checked => ?_, fun _ _ => .refused kept⟩
  rw [kept.chain] at checked
  rw [ensures_ite]
  refine ⟨fun _ => failed kept, fun isTimely => ?_⟩
  cases not_not.mp isTimely
  rw [ensures_bind, ensures_reads]
  refine ⟨fun difficulty next => ?_, fun _ _ => .refused kept⟩
  rw [kept.chain] at next
  rw [ensures_ite]
  refine ⟨fun _ => .refused kept, fun positive => ?_⟩
  rw [ensures_ite]
  refine ⟨fun _ => ?_, fun worked => ?_⟩
  · rw [ensures_bind]
    exact (updateBvc_maintains _ node kept).mono (fun _ _ kept => .refused kept)
      fun _ => False.elim
  · have work := inv.longhash_work binding (not_not.mp worked)
    rw [ensures_ite]
    refine ⟨fun _ => failed kept, fun valid => ?_⟩
    have nonzero : before.chain.height ≠ 0 := Nat.one_le_iff_ne_zero.mp inv.chain.height
    cases prevalidated : env.prevalidateMinerTransaction bl before.chain.height with
    | none => exact absurd ⟨nonzero, by rw [prevalidated]; rfl⟩ valid
    | some coinbase =>
      have ready : Ready env before bl difficulty coinbase :=
        ⟨top, ⟨now, checked⟩, next, positive, work, prevalidated⟩
      have start : Collected env extra before bl []
          { txs := []
            feeSummary := 0
            cumulativeBlockWeight := env.getTransactionWeight bl.minerTx
            nPruned := 0 } :=
        ⟨rfl, rfl, rfl, rfl, by simp, by simp⟩
      rw [ensures_bind]
      refine (takeBlockTxs_ensures binding kept inv.chain.aligned start).mono ?_ fun _ => False.elim
      rintro result node ⟨kept, found⟩
      cases result with
      | none => exact .refused kept
      | some collected =>
        obtain ⟨txs, hashes, done⟩ := found collected rfl
        rw [ensures_ite]
        exact ⟨fun _ => .refused kept,
          fun _ => connectBlock_ensures binding inv ready done hashes kept⟩

/-- `handle_block_to_main_chain` keeps the invariant, whatever the block. -/
theorem handleBlockToMainChain_keeps (binding : env.Binding) (dead : ¬ live false)
    (bl : Block) : Keeps (Node.Inv env extra network live batch)
      (handleBlockToMainChain env bl (env.getBlockHash bl)) := by
  intro before inv
  refine (handleBlockToMainChain_ensures binding inv bl).mono ?_ ?_
  · intro result after handled
    cases handled with
    | added block added flagged => exact inv.of_added added
    | refused beside => exact inv.of_beside beside
    | spoiled spoiled => exact inv.of_spoiled dead spoiled
  · intro after interrupted
    cases interrupted with
    | added block added => exact inv.of_added added
    | refused beside => exact inv.of_beside beside

end Keeping

end Memero
