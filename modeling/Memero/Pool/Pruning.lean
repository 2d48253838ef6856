import Memero.Pool.Exact

/-!
# What the pool loses

`add_tx` ends with a `prune` to the configured weight. It goes through the sorted container
from the end, never looks at the first entry, and leaves transactions from a block alone. So
it removes nothing exactly if the pool is light enough or has no other entries than these.
-/

namespace Memero

open List

open Exec

variable {env : Env} {good : Hash → Transaction → Prop} {pool : Pool}

/-- The stored transaction comes from a block. -/
def Pool.fromBlock (pool : Pool) (id : Hash) : Bool :=
  (pool.txpool.find id).any (·.details.txFromBlock)

theorem Pool.fromBlock_of_find {id : Hash} {row : PoolTx}
    (found : pool.txpool.find id = some row) :
    pool.fromBlock id = row.details.txFromBlock := by
  rw [Pool.fromBlock, found, Option.any_some]

/-- `prune` to the configured weight has nothing to remove. -/
def Pool.Quiet (env : Env) (pool : Pool) : Prop :=
  pool.txpoolWeight ≤ env.txpoolMaxWeight ∨
    ∀ entry ∈ pool.txsByFeeAndReceiveTime.tail, pool.fromBlock entry.id = true

variable {entries : List SortedEntry}

theorem pruneEntries_run_of_quiet {bytes : Nat}
    (quiet : pool.txpoolWeight ≤ bytes ∨ ∀ entry ∈ entries, pool.fromBlock entry.id = true) :
    (pruneEntries bytes entries).run pool = (.ok true, pool) := by
  induction entries with
  | nil => rfl
  | cons entry rest ih =>
    rw [pruneEntries, get_bind_run]
    split
    · rfl
    · rename_i heavy
      have blocks := quiet.resolve_left heavy
      have fromBlock := blocks entry mem_cons_self
      cases found : pool.txpool.find entry.id with
      | none =>
        rw [Pool.fromBlock, found] at fromBlock
        cases fromBlock
      | some row =>
        rw [Pool.fromBlock_of_find found] at fromBlock
        dsimp only
        rw [if_pos fromBlock]
        exact ih (.inr fun other member => blocks other (mem_cons_of_mem _ member))

theorem configured_bytes (env : Env) :
    (if env.txpoolMaxWeight = 0 then env.txpoolMaxWeight else env.txpoolMaxWeight) =
      env.txpoolMaxWeight :=
  ite_self _

theorem prune_run_of_quiet (inBatch : Bool) (quiet : pool.Quiet env) :
    (prune env inBatch env.txpoolMaxWeight).run pool = (.ok (), pool) := by
  have looked : (pruneEntries env.txpoolMaxWeight
      pool.txsByFeeAndReceiveTime.tail.reverse).run pool = (.ok true, pool) := by
    apply pruneEntries_run_of_quiet
    refine quiet.imp_right fun blocks entry member => ?_
    exact blocks entry (mem_reverse.mp member)
  refine lockedTxn_run_commit inBatch ?_
  rw [get_bind_run, configured_bytes, bind_ok looked]
  rfl

/-- The first entry that is not one of a block loses its row. -/
theorem pruneEntries_loses (identifies : Identifies good) {bytes : Nat}
    (exact : pool.Exact env good) (present : ∀ entry ∈ entries, entry ∈ pool.txsByFeeAndReceiveTime)
    (distinct : entries.Nodup) (heavy : bytes < pool.txpoolWeight)
    (prunable : ∃ entry ∈ entries, pool.fromBlock entry.id = false) :
    (pruneEntries bytes entries).Ensures pool
      (fun finished after => finished = true ∧
        ∃ id ∈ pool.txpool.map Prod.fst, id ∉ after.txpool.map Prod.fst) fun _ => False := by
  induction entries with
  | nil => simp at prunable
  | cons entry rest ih =>
    obtain ⟨notLater, distinct⟩ := nodup_cons.mp distinct
    have inPool := present entry mem_cons_self
    have others : ∀ other ∈ rest, other ∈ pool.txsByFeeAndReceiveTime :=
      fun other member => present other (mem_cons_of_mem _ member)
    obtain ⟨row, found⟩ := exact.find_of_entry inPool
    unfold pruneEntries
    rw [ensures_get_bind, if_neg (Nat.not_le.mpr heavy), found]
    rw [ensures_ite]
    constructor
    · intro fromBlock
      apply ih others distinct
      obtain ⟨other, member, relayed⟩ := prunable
      rcases mem_cons.mp member with rfl | later
      · rw [Pool.fromBlock_of_find found, fromBlock] at relayed
        cases relayed
      · exact ⟨other, later, relayed⟩
    · intro _
      obtain ⟨sets, ran, pruned⟩ := exact.pruneEntry_run identifies inPool found
      rw [ensures_modify_bind, ensures_bind]
      refine .of_run ran ?_
      refine (pruneEntries_ensures identifies pruned (fun other member => ?_)
        distinct).mono ?_ fun _ => id
      · refine (mem_erase_of_ne ?_).mpr (others other member)
        rintro rfl
        exact notLater member
      · rintro finished after ⟨done, -, kept⟩
        refine ⟨done, entry.id, mem_map_of_mem (Table.mem_of_find found), ?_⟩
        intro member
        obtain ⟨stored, there, same⟩ := mem_map.mp member
        exact Table.not_mem_keys_remove pool.txpool entry.id
          (mem_map.mpr ⟨stored, kept stored there, same⟩)

theorem prune_loses (identifies : Identifies good) (exact : pool.Exact env good)
    (inBatch : Bool) (loud : ¬ pool.Quiet env) :
    (prune env inBatch env.txpoolMaxWeight).Ensures pool
      (fun _ after => ∃ id ∈ pool.txpool.map Prod.fst, id ∉ after.txpool.map Prod.fst)
      fun _ => False := by
  obtain ⟨heavy, prunable⟩ := not_or.mp loud
  refine ensures_lockedTxn_commit ?_
  rw [ensures_get_bind, configured_bytes, ensures_bind]
  apply pruneEntries_loses identifies exact
  · exact fun entry member => mem_of_mem_tail (mem_reverse.mp member)
  · exact nodup_reverse.mpr exact.entries_nodup.tail
  · exact Nat.not_le.mp heavy
  · simp only [not_forall] at prunable
    obtain ⟨entry, member, relayed⟩ := prunable
    exact ⟨entry, mem_reverse.mpr member, Bool.eq_false_of_not_eq_true relayed⟩

/-! ## Putting a transaction back -/

/-- The pool `full` after a `prune` to the configured weight. -/
structure Pool.Pruned (env : Env) (good : Hash → Transaction → Prop) (full after : Pool) :
    Prop where
  exact : after.Exact env good
  kept : ∀ row ∈ after.txpool, row ∈ full.txpool
  quiet : full.Quiet env → after = full
  loud : ¬ full.Quiet env → ∃ id ∈ full.txpool.map Prod.fst, id ∉ after.txpool.map Prod.fst

theorem prune_pruned (identifies : Identifies good) (exact : pool.Exact env good)
    (inBatch : Bool) :
    (prune env inBatch env.txpoolMaxWeight).Ensures pool
      (fun _ after => pool.Pruned env good after) fun _ => False := by
  by_cases quiet : pool.Quiet env
  · refine .of_run (prune_run_of_quiet inBatch quiet) ?_
    exact ⟨exact, fun _ member => member, fun _ => rfl, fun loud => absurd quiet loud⟩
  · refine ((prune_ensures identifies exact inBatch _).and
      (prune_loses identifies exact inBatch quiet)).mono ?_ fun _ failed => failed.1
    rintro done after ⟨⟨exactAfter, kept⟩, lost⟩
    exact ⟨exactAfter, kept, fun silent => absurd silent quiet, fun _ => lost⟩

/-- The entry that `add_tx` makes for a transaction. -/
def AddTxInput.entry (env : Env) (input : AddTxInput) : SortedEntry :=
  { feePerWeight := env.feePerWeight input.tx.ringct.fee input.txWeight
    receiveTime := input.receiveTime
    id := input.id }

/-- The pool `full` is `pool` with a transaction from a block. -/
structure Pool.Regains (env : Env) (good : Hash → Transaction → Prop) (input : AddTxInput)
    (pool full : Pool) : Prop where
  exact : full.Exact env good
  rows : ∃ row, full.txpool = pool.txpool.put input.id row ∧ row.blob = input.blob ∧
    row.details.txFromBlock = true ∧ row.details.weight = input.txWeight
  entries : full.txsByFeeAndReceiveTime =
    emplaceSorted (input.entry env) pool.txsByFeeAndReceiveTime

/-- Giving a transaction from a block back to a pool that does not store it. -/
theorem addTx_regains (identifies : Identifies good) (exact : pool.Exact env good)
    {db : ChainTables} {scanTable : ScanTable} {inBatch : Bool} {input : AddTxInput}
    (faithful : input.Faithful env good) (block : input.txRelay = .block)
    (passes : pool.passesChecks env input = true) (missing : pool.txpool.find input.id = none) :
    (addTx env db scanTable inBatch input).Ensures pool
      (fun _ after => ∃ full, pool.Regains env good input full ∧ full.Pruned env good after)
      fun _ => True := by
  have computed : addedFee input.tx = some input.tx.ringct.fee := if_neg faithful.modern
  refine .of_run_eq (addTx_run_of_passes computed passes) ?_
  rw [ensures_bind, ensures_reads]
  refine ⟨fun used _ => ?_, fun _ _ => trivial⟩
  rw [if_neg fun refused => refused.2 block]
  have details := faithful.row computed used
    (used.isNone && pool.haveTxKeyimgesAsSpent input.tx input.id)
  obtain ⟨cache, sets, ran, added⟩ := @finishAddTx_run env good pool input inBatch _
    identifies exact used.isSome faithful details rfl missing fun notBlock => absurd block notBlock
  refine .of_run_eq ran ?_
  rw [ensures_bind]
  refine (prune_pruned identifies added inBatch).mono ?_ fun _ => False.elim
  intro done after pruned
  refine ⟨_, ⟨added, ⟨_, rfl, rfl, ?_, rfl⟩, rfl⟩, pruned⟩
  rw [← TxpoolTxMeta.getRelayMethod_eq_block, AddTxInput.newMeta_getRelayMethod, block]

end Memero
