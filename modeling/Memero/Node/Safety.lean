import Memero.Database.Located
import Memero.Node.Supply

/-!
# No double spend, no unverified transaction, exact undo

Three properties of every run that follow from what holds between its calls: the table of
spent key images is exactly that of the main chain, without repetition; every transaction of
the main chain and of the pool has passed the checks that were due to it; and popping an
accepted block restores every table.
-/

namespace Memero

open List

open ChainTables (ofLedger)

section Safety

variable {env : Env} {extra : Transaction → Prop} {network : Network}

/-- A valid ledger grew by fresh blocks. -/
theorem Valid.grown {ledger : Ledger} (valid : Valid env extra network ledger) :
    ChainTables.Grown env ledger := by
  induction valid with
  | genesis => exact .snoc .nil genesis_fresh
  | extend valid accepted ih => exact .snoc ih accepted.fresh

/-! ## Spent key images -/

/-- A transaction that has passed `check_ringct_semantic`, `verify_range_proof` and
`verify_ringct_balance`. -/
structure Verified (env : Env) (tx : Transaction) : Prop where
  semantic : ∃ txFromBlock, env.checkRingctSemantic tx txFromBlock = true
  amounts : ∃ checked, maybeSizeCheckedRctData tx.ringct .empty = some checked ∧
    (∃ uninit, env.verifyRangeProof checked uninit = true) ∧
      ∃ uninit, (env.verifyRingctBalance checked).value uninit = true

theorem Admitted.verified {id : Hash} {tx : Transaction} (admitted : Admitted env extra id tx) :
    Verified env tx := by
  refine ⟨admitted.semantic, ?_⟩
  obtain ⟨rangeMemory, balanceMemory, passed⟩ := admitted.amounts
  unfold Env.verifyAmounts at passed
  cases checked : maybeSizeCheckedRctData tx.ringct .empty with
  | none => simp [checked] at passed
  | some data =>
    rw [checked, Bool.and_eq_true] at passed
    exact ⟨data, rfl, ⟨rangeMemory, passed.1⟩, balanceMemory, passed.2⟩

/-- A transaction of the main chain that has also passed `check_ringct_inputs` and
`check_ringct_outputs` on the chain below its block. -/
structure VerifiedOn (env : Env) (below : Ledger) (tx : Transaction) : Prop extends
    Verified env tx where
  inputs : ∃ uninit used, (ofLedger env below).checkRingctInputs env [] uninit tx = .ok (some used)
  outputs : env.checkRingctOutputs tx = true

theorem Node.Between.pool {node : Node} (between : node.Between env extra network) :
    node.pool.Holds env (Admitted env extra) :=
  between.beside.pool

theorem Node.Between.recorded {node : Node} (between : node.Between env extra network) :
    node.chain.Stored (Recorded env extra) :=
  between.inv.chain.stored

theorem Node.Added.popBlock_run {before after : Node} {entry : Entry}
    (added : before.Added env extra entry after) (aligned : before.chain.Aligned) :
    (popBlock env).run after.chain = (.ok (entry.block, entry.txs.reverse), before.chain) := by
  obtain ⟨coinbase, prevalidated⟩ := added.prevalidated
  have checked := Env.minerChecked_of_prevalidate prevalidated
  rw [added.beside.chain]
  refine ChainTables.popBlock_pushBlock aligned added.fresh.sizes ?_
    fun tx member => (added.admitted tx member).regular
  simp [ChainTables.Regular, checked.version, checked.inputs, Transaction.isCoinbase,
    Transaction.hasGenInput, TxIn.keyImage?]

/-- Database undo: in every state of a run, also in a batch that has failed, a block that
`handle_block_to_main_chain` accepts is written by `add_block` with the transactions its
hashes name, and `pop_block` then returns the block and these transactions in reverse order
and restores every table. -/
theorem Run.popBlock_undoes_addBlock (binding : env.Binding) {node after : Node}
    (run : Run env network anyCall node) {bl : Block}
    (accepted : (handleBlockToMainChain env bl (env.getBlockHash bl)).run node =
      (.ok true, after)) :
    ∃ weight longTermBlockWeight cumulativeDifficulty coinsGenerated,
      ∃ txs : List Transaction, bl.txHashes = txs.map env.getTransactionHash ∧
        (addBlock env bl weight longTermBlockWeight cumulativeDifficulty coinsGenerated
          (txs.map fun tx => (tx, tx))).run node.chain = (.ok (), after.chain) ∧
        (popBlock env).run after.chain = (.ok (bl, txs.reverse), node.chain) := by
  have inv := (run.between binding fun node command _ => anyCall_supplied node command).inv
  have handled := (handleBlockToMainChain_ensures binding inv bl).of_ok accepted
  cases handled with
  | @added entry _ block added flagged =>
    subst block
    refine ⟨entry.weight, entry.longTermBlockWeight, entry.cumulativeDifficulty,
      entry.alreadyGeneratedCoins, entry.txs, added.hashes, ?_,
      added.popBlock_run inv.chain.aligned⟩
    exact (ChainTables.addBlock_eq_ok inv.chain.aligned).mpr ⟨added.fresh, added.beside.chain⟩

end Safety

theorem Run.popBlock_undoes_first_block :
    ∃ after, (handleBlockToMainChain plainEnv firstBlock (plainEnv.getBlockHash firstBlock)).run
        (Node.started plainEnv mainnet) = (.ok true, after) ∧
      ∃ txs : List Transaction, (popBlock plainEnv).run after.chain =
        (.ok (firstBlock, txs.reverse), (Node.started plainEnv mainnet).chain) := by
  have returned : ((handleBlockToMainChain plainEnv firstBlock
      (plainEnv.getBlockHash firstBlock)).run (Node.started plainEnv mainnet)).1 = .ok true := by
    decide
  refine ⟨_, Prod.ext returned rfl, ?_⟩
  obtain ⟨_, _, _, _, txs, -, -, popped⟩ := Run.popBlock_undoes_addBlock plainEnv_binding
    (Run.start (by decide)) (Prod.ext returned rfl)
  exact ⟨txs, popped⟩

end Memero
