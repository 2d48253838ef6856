import Memero.Node.Run

/-!
# The locks of a bracket

`core::prepare_handle_incoming_blocks` takes the lock of incoming transactions, then
`Blockchain::prepare_handle_incoming_blocks` takes the lock of the pool and starts a batch;
all three are given back by the cleanup. The locks are recursive and are taken and given back
by hand, so an exception in between leaves them held. The lock of the blockchain is given
back by its guard however a call ends, and is left out.
-/

namespace Memero

open List

open Exec

/-! ## The state of the core -/

/-- The node with the number of times each lock is held. -/
structure Core where
  node : Node
  txPoolLocks : Nat
  incomingTxLocks : Nat
  deriving DecidableEq, Repr

/-- Computations over the core. -/
abbrev CoreM : Type → Type :=
  Exec Core Exn

/-- The core when no call is in progress. -/
def Core.idle (node : Node) : Core :=
  { node := node, txPoolLocks := 0, incomingTxLocks := 0 }

/-- A computation on the node. -/
def onNode {α : Type} (body : NodeM α) : CoreM α :=
  Exec.zoom (·.node) (fun node core => { core with node := node }) body

/-- `Blockchain::prepare_handle_incoming_blocks` with its lock. -/
def blockchainPrepareHandleIncomingBlocks (env : Env) (entries : List BlockCompleteEntry) :
    CoreM Bool := do
  Exec.modify fun core => { core with txPoolLocks := core.txPoolLocks + 1 }
  onNode (prepareHandleIncomingBlocks env entries)

/-- `Blockchain::cleanup_handle_incoming_blocks` with its lock. -/
def blockchainCleanupHandleIncomingBlocks : CoreM Bool := do
  let success ← onNode cleanupHandleIncomingBlocks
  Exec.modify fun core => { core with txPoolLocks := core.txPoolLocks - 1 }
  return success

/-- `core::cleanup_handle_incoming_blocks`. -/
def coreCleanupHandleIncomingBlocks : CoreM Bool := do
  let success ← Exec.tryCatch blockchainCleanupHandleIncomingBlocks fun _ => return false
  Exec.modify fun core => { core with incomingTxLocks := core.incomingTxLocks - 1 }
  return success

/-- `core::prepare_handle_incoming_blocks`. -/
def corePrepareHandleIncomingBlocks (env : Env) (entries : List BlockCompleteEntry) :
    CoreM Bool := do
  Exec.modify fun core => { core with incomingTxLocks := core.incomingTxLocks + 1 }
  let prepared ← blockchainPrepareHandleIncomingBlocks env entries
  if prepared then
    return true
  else
    let _ ← coreCleanupHandleIncomingBlocks
    return false

/-! ## What is held -/

/-- Both locks are held once and a batch is open. -/
structure Core.Prepared (core : Core) : Prop where
  txPool : core.txPoolLocks = 1
  incomingTx : core.incomingTxLocks = 1
  batch : core.node.batch.isSome = true

/-- Neither lock is held and no batch is open. -/
structure Core.Released (core : Core) : Prop where
  txPool : core.txPoolLocks = 0
  incomingTx : core.incomingTxLocks = 0
  batch : core.node.batch = none

/-- A preparation comes back, with everything held if it succeeded and with nothing held if
it did not. -/
def PreparesSafely (env : Env) (entries : List BlockCompleteEntry) (node : Node) : Prop :=
  ∃ prepared after, (corePrepareHandleIncomingBlocks env entries).run (.idle node) =
      (.ok prepared, after) ∧
    (prepared = true → after.Prepared) ∧ (prepared = false → after.Released)

/-! ## The inputs of the transactions -/

/-- Among the blobs there is a transaction with a generating input, everything before it
parses to transactions without one, and no two up to it have the same prefix hash. -/
def MeetsGenInput (env : Env) (blobs : List (Option Transaction)) : Prop :=
  ∃ before tx rest, blobs = before.map some ++ some tx :: rest ∧
    (∀ other ∈ before, other.hasGenInput = false) ∧ tx.hasGenInput = true ∧
      ((before ++ [tx]).map env.getTransactionPrefixHash).Nodup

section Inputs

variable {env : Env}

theorem fromKeys_eq_none_iff (vin : List TxIn) :
    vin.mapM TxIn.fromKey? = none ↔ (vin.any fun input => input.keyImage?.isNone) = true := by
  induction vin with
  | nil => simp
  | cons input rest ih =>
    rw [any_cons]
    cases input with
    | gen height => simp [TxIn.fromKey?, TxIn.keyImage?]
    | fromKey input =>
      rw [TxIn.keyImage?, Option.isNone_some, Bool.false_or, ← ih]
      cases others : rest.mapM TxIn.fromKey? with
      | none => simp [others]
      | some inputs => simp [TxIn.fromKey?, others]

variable {blobs : List (Option Transaction)}

/-- The scan throws exactly at the first generating input it meets. -/
theorem scanTransactions_error_iff {scanned : List (Hash × List TxinFromKey)}
    (distinct : (scanned.map Prod.fst).Nodup) :
    (∃ exception, scanTransactions env blobs scanned = .error exception) ↔
      ∃ before tx rest, blobs = before.map some ++ some tx :: rest ∧
        (∀ other ∈ before, other.hasGenInput = false) ∧ tx.hasGenInput = true ∧
          (scanned.map Prod.fst ++ (before ++ [tx]).map env.getTransactionPrefixHash).Nodup := by
  induction blobs generalizing scanned with
  | nil => simp [scanTransactions]
  | cons blob blobs ih =>
    cases blob with
    | none =>
      constructor
      · rintro ⟨exception, failed⟩
        cases failed
      · rintro ⟨before, tx, rest, same, -⟩
        cases before <;> cases same
    | some first =>
      unfold scanTransactions
      split
      · rename_i seen
        constructor
        · rintro ⟨exception, failed⟩
          cases failed
        · rintro ⟨before, tx, rest, same, -, -, unique⟩
          -- The transaction in front was scanned before, whichever part it is in.
          obtain ⟨item, member, hash⟩ := any_eq_true.mp seen
          have old : env.getTransactionPrefixHash first ∈ scanned.map Prod.fst :=
            mem_map.mpr ⟨item, member, of_decide_eq_true hash⟩
          have new : env.getTransactionPrefixHash first ∈
              (before ++ [tx]).map env.getTransactionPrefixHash := by
            cases before <;> cases same <;> simp
          exact absurd new ((nodup_append'.mp unique).2.2 old)
      · rename_i unseen
        have fresh : env.getTransactionPrefixHash first ∉ scanned.map Prod.fst := by
          intro member
          obtain ⟨item, present, hash⟩ := mem_map.mp member
          exact unseen (any_eq_true.mpr ⟨item, present, decide_eq_true hash⟩)
        have extended : ∀ inputs : List TxinFromKey,
            ((scanned ++ [(env.getTransactionPrefixHash first, inputs)]).map Prod.fst).Nodup := by
          intro inputs
          rw [map_append]
          exact nodup_append'.mpr ⟨distinct, nodup_singleton _, disjoint_singleton.mpr fresh⟩
        cases typed : first.vin.mapM TxIn.fromKey? with
        | none =>
          have gen : first.hasGenInput = true := (fromKeys_eq_none_iff _).mp typed
          constructor
          · intro _
            refine ⟨[], first, blobs, rfl, by simp, gen, ?_⟩
            simpa using extended []
          · intro _
            exact ⟨_, rfl⟩
        | some inputs =>
          have noGen : first.hasGenInput = false := by
            rw [Transaction.hasGenInput, ← Bool.not_eq_true, ← fromKeys_eq_none_iff, typed]
            simp
          rw [ih (extended inputs)]
          constructor
          · rintro ⟨before, tx, rest, same, others, gen, unique⟩
            refine ⟨first :: before, tx, rest, by rw [same]; rfl, ?_, gen, by simpa using unique⟩
            exact forall_mem_cons.mpr ⟨noGen, others⟩
          · rintro ⟨before, tx, rest, same, others, gen, unique⟩
            cases before with
            | nil =>
              cases same
              rw [noGen] at gen
              cases gen
            | cons other before =>
              cases same
              exact ⟨before, tx, rest, rfl, (forall_mem_cons.mp others).2, gen,
                by simpa using unique⟩

theorem scanTransactions_throws_iff :
    (∃ exception, scanTransactions env blobs [] = .error exception) ↔ MeetsGenInput env blobs :=
  scanTransactions_error_iff nodup_nil

end Inputs

/-! ## Preparation -/

/-- The preparation gets as far as the inputs of the transactions: the entries continue the
main chain, all blocks parse and none is known. -/
def ScansInputs (env : Env) (entries : List BlockCompleteEntry) (node : Node) : Prop :=
  ∃ bl blocks, entries.map (·.block) = (bl :: blocks).map some ∧
    node.chain.topBlockHash = .ok bl.prevId ∧
    ∀ other ∈ bl :: blocks, node.haveBlock (env.getBlockHash other) = false

section Prepare

variable {env : Env} {entries : List BlockCompleteEntry} {node : Node}

theorem parsedBlocks_eq_some_iff {blocks : List Block} :
    parsedBlocks entries = some blocks ↔ entries.map (·.block) = blocks.map some := by
  induction entries generalizing blocks with
  | nil => cases blocks <;> simp [parsedBlocks]
  | cons entry rest ih =>
    unfold parsedBlocks
    cases parsed : entry.block with
    | none => cases blocks <;> simp [parsed]
    | some bl =>
      cases blocks with
      | nil => simp
      | cons other others => simp [parsed, ih, and_comm]

/-- What the entries must satisfy, in terms of the blocks they parse to. -/
theorem scansInputs_iff {first : BlockCompleteEntry} {rest : List BlockCompleteEntry}
    {topHash : Hash} (top : node.chain.topBlockHash = .ok topHash) :
    ScansInputs env (first :: rest) node ↔
      ¬ first.block.any (·.prevId ≠ topHash) ∧
        ∃ blocks, parsedBlocks (first :: rest) = some blocks ∧
          ¬ blocks.any fun bl => node.haveBlock (env.getBlockHash bl) := by
  constructor
  · rintro ⟨bl, blocks, parsed, onTop, fresh⟩
    rw [top] at onTop
    cases onTop
    have firstParsed : first.block = some bl := (cons_eq_cons.mp parsed).1
    refine ⟨by simp [firstParsed], bl :: blocks, parsedBlocks_eq_some_iff.mpr parsed, ?_⟩
    rw [Bool.not_eq_true, any_eq_false]
    intro other member
    simp [fresh other member]
  · rintro ⟨chained, blocks, parsed, fresh⟩
    rw [parsedBlocks_eq_some_iff] at parsed
    cases blocks with
    | nil => cases parsed
    | cons bl blocks =>
      have firstParsed : first.block = some bl := (cons_eq_cons.mp parsed).1
      refine ⟨bl, blocks, parsed, ?_, ?_⟩
      · have onTop : bl.prevId = topHash := by simpa [firstParsed] using chained
        rw [top, onTop]
      · rw [Bool.not_eq_true, any_eq_false] at fresh
        intro other member
        exact Bool.not_eq_true _ ▸ fresh other member

/-- A preparation that finds no batch open throws only at a generating input, and comes back
otherwise. -/
theorem prepareHandleIncomingBlocks_cases (idle : node.batch = none) {topHash : Hash}
    (top : node.chain.topBlockHash = .ok topHash) :
    (∃ exception after, (prepareHandleIncomingBlocks env entries).run node =
        (.thrown exception, after) ∧
      ScansInputs env entries node ∧ MeetsGenInput env (entries.flatMap (·.txs))) ∨
    ∃ prepared after, (prepareHandleIncomingBlocks env entries).run node =
        (.ok prepared, after) ∧
      (prepared = true → after.batch.isSome = true) ∧
      ¬ (ScansInputs env entries node ∧ MeetsGenInput env (entries.flatMap (·.txs))) := by
  cases entries with
  | nil =>
    refine .inr ⟨false, node, rfl, by simp, ?_⟩
    rintro ⟨⟨first, rest, same, -⟩, -⟩
    cases same
  | cons first rest =>
    rw [scansInputs_iff top, ← scanTransactions_throws_iff]
    let opened := { node with batch := some node.database, batchSuccess := true }
    have started : batchStart.run node = (.ok true, { node with batch := some node.database }) := by
      simp [batchStart, idle]
    have readTop : (Exec.reads fun node : Node => node.chain.topBlockHash).run opened =
        (.ok topHash, opened) := by
      rw [reads_run, top]
    simp only [prepareHandleIncomingBlocks, bind_ok started, not_true_eq_false, if_false,
      modify_bind_run]
    rw [bind_ok readTop]
    by_cases foreign : first.block.any (·.prevId ≠ topHash) = true
    · rw [if_pos foreign]
      exact .inr ⟨true, _, rfl, fun _ => rfl, fun both => both.1.1 foreign⟩
    · rw [if_neg foreign]
      cases parsed : parsedBlocks (first :: rest) with
      | none =>
        refine .inr ⟨false, _, rfl, by simp, ?_⟩
        rintro ⟨⟨-, blocks, same, -⟩, -⟩
        cases same
      | some blocks =>
        simp only [get_bind_run]
        by_cases known : (blocks.any fun bl => node.haveBlock (env.getBlockHash bl)) = true
        · rw [if_pos (show (blocks.any fun bl => opened.haveBlock (env.getBlockHash bl)) =
            true from known)]
          refine .inr ⟨true, _, rfl, fun _ => rfl, ?_⟩
          rintro ⟨⟨-, other, same, unknown⟩, -⟩
          cases same
          exact unknown known
        · rw [if_neg (show ¬ (blocks.any fun bl => opened.haveBlock (env.getBlockHash bl)) =
            true from known)]
          cases scan : scanTransactions env ((first :: rest).flatMap (·.txs)) [] with
          | error exception =>
            exact .inl ⟨exception, _, rfl, ⟨foreign, blocks, rfl, known⟩, exception, rfl⟩
          | ok scanned =>
            cases scanned with
            | none =>
              refine .inr ⟨false, _, rfl, by simp, ?_⟩
              rintro ⟨-, exception, failed⟩
              cases failed
            | some scanned =>
              refine .inr ⟨true, _, rfl, fun _ => rfl, ?_⟩
              rintro ⟨-, exception, failed⟩
              cases failed

/-- However a bracket went, its cleanup comes back and no batch is open. -/
theorem cleanupHandleIncomingBlocks_run (node : Node) :
    ∃ success after, cleanupHandleIncomingBlocks.run node = (.ok success, after) ∧
      after.batch = none := by
  cases active : node.batch with
  | none =>
    refine ⟨false, { node with blocksLonghashTable := [], scanTable := [] }, ?_, active⟩
    cases succeeded : node.batchSuccess <;>
      simp [cleanupHandleIncomingBlocks, bind_run, tryCatch_run, batchStop, batchAbort,
        active, succeeded]
  | some tables =>
    cases succeeded : node.batchSuccess <;>
      simp [cleanupHandleIncomingBlocks, bind_run, tryCatch_run, batchStop, batchAbort,
        active, succeeded]

/-- The cleanup of the core gives back one hold of each lock and ends the batch. -/
theorem coreCleanupHandleIncomingBlocks_run (core : Core) :
    ∃ success node, coreCleanupHandleIncomingBlocks.run core =
        (.ok success, { node := node
                        txPoolLocks := core.txPoolLocks - 1
                        incomingTxLocks := core.incomingTxLocks - 1 }) ∧
      node.batch = none := by
  obtain ⟨success, node, ran, ended⟩ := cleanupHandleIncomingBlocks_run core.node
  refine ⟨success, node, ?_, ended⟩
  have cleaned : blockchainCleanupHandleIncomingBlocks.run core = (.ok success,
      { core with node := node, txPoolLocks := core.txPoolLocks - 1 }) := by
    simp [blockchainCleanupHandleIncomingBlocks, onNode, bind_run, zoom_run, ran]
  simp [coreCleanupHandleIncomingBlocks, bind_run, tryCatch_run, cleaned]

/-- `core::prepare_handle_incoming_blocks` comes back with the locks and the batch as its
answer says, unless the preparation reads the inputs of the transactions and one of them is a
generating input: the accessor then throws and everything stays held. -/
theorem prepares_safely_iff (idle : node.batch = none) {topHash : Hash}
    (top : node.chain.topBlockHash = .ok topHash) :
    PreparesSafely env entries node ↔
      ¬ (ScansInputs env entries node ∧ MeetsGenInput env (entries.flatMap (·.txs))) := by
  rcases prepareHandleIncomingBlocks_cases idle top with
    ⟨exception, after, ran, reached⟩ | ⟨prepared, after, ran, held, missed⟩
  · refine iff_of_false ?_ (not_not_intro reached)
    rintro ⟨prepared, final, returned, -⟩
    simp [corePrepareHandleIncomingBlocks, blockchainPrepareHandleIncomingBlocks, onNode,
      bind_run, zoom_run, Core.idle, ran] at returned
  · refine iff_of_true ?_ missed
    cases prepared with
    | true =>
      refine ⟨true, { node := after, txPoolLocks := 1, incomingTxLocks := 1 }, ?_,
        fun _ => ⟨rfl, rfl, held rfl⟩, by simp⟩
      simp [corePrepareHandleIncomingBlocks, blockchainPrepareHandleIncomingBlocks, onNode,
        bind_run, zoom_run, Core.idle, ran]
    | false =>
      obtain ⟨success, final, cleaned, ended⟩ := coreCleanupHandleIncomingBlocks_run
        { node := after, txPoolLocks := 1, incomingTxLocks := 1 }
      refine ⟨false, { node := final, txPoolLocks := 0, incomingTxLocks := 0 }, ?_, by simp,
        fun _ => ⟨rfl, rfl, ended⟩⟩
      simp [corePrepareHandleIncomingBlocks, blockchainPrepareHandleIncomingBlocks, onNode,
        bind_run, zoom_run, Core.idle, ran, cleaned]

end Prepare

theorem prepares_safely_first_block :
    PreparesSafely plainEnv [{ block := some firstBlock, txs := [] }]
      (Node.started plainEnv mainnet) := by
  refine (prepares_safely_iff (by decide)
    (show (Node.started plainEnv mainnet).chain.topBlockHash = .ok 0 by decide)).mpr ?_
  rintro ⟨-, before, tx, rest, same, -⟩
  cases before <;> cases same

/-- A block that comes with its own miner transaction as one of its transactions. -/
def minerTxEntry : BlockCompleteEntry :=
  { block := some firstBlock, txs := [some firstBlock.minerTx] }

/-- The accessor throws at the input of the miner transaction and both locks and the batch
stay held. -/
theorem prepare_stays_locked :
    ¬ PreparesSafely plainEnv [minerTxEntry] (Node.started plainEnv mainnet) ∧
      ((corePrepareHandleIncomingBlocks plainEnv [minerTxEntry]).run
        (.idle (Node.started plainEnv mainnet))).1 = .thrown .badGet ∧
      ((corePrepareHandleIncomingBlocks plainEnv [minerTxEntry]).run
        (.idle (Node.started plainEnv mainnet))).2.Prepared := by
  have threw : ((corePrepareHandleIncomingBlocks plainEnv [minerTxEntry]).run
      (.idle (Node.started plainEnv mainnet))).1 = .thrown .badGet := by decide
  refine ⟨?_, threw, by decide, by decide, by decide⟩
  rintro ⟨prepared, after, returned, -⟩
  rw [returned] at threw
  cases threw

end Memero
