import Memero.Node.PoolRuns
import Memero.Pool.Pruning

/-!
# Rejected blocks and the pool

`handle_block_to_main_chain` takes the transactions of a block out of the pool one by one, and
gives them back with `return_tx_to_pool` when it rejects the block. Giving one back ends with
a `prune`, so a pool that is too heavy may lose other transactions on the way. This module
says exactly when it does.
-/

namespace Memero

open List

open Exec

/-! ## Giving transactions back -/

/-- The ids of the stored transactions. -/
def Pool.ids (pool : Pool) : List Hash :=
  pool.txpool.map Prod.fst

/-- The weight of the stored transactions. -/
def Pool.totalWeight (pool : Pool) : Nat :=
  (pool.txpool.map (·.2.details.weight)).sum

/-- The sorted container after transactions have been given back, the clock read twice for
each. -/
def putBack (env : Env) : Nat → List Transaction → List SortedEntry → List SortedEntry
  | _, [], entries => entries
  | ticks, tx :: rest, entries =>
    putBack env (ticks + 2) rest (emplaceSorted
      { feePerWeight := env.feePerWeight tx.ringct.fee (env.getTransactionWeight tx)
        receiveTime := env.clock ticks
        id := env.getTransactionHash tx } entries)

theorem emplaceSorted_sublist (entry : SortedEntry) (entries : List SortedEntry) :
    entries.Sublist (emplaceSorted entry entries) := by
  unfold emplaceSorted
  dsimp only
  split
  · have inserted : (entries.takeWhile (fun other => !txCompare entry other) ++
        entries.dropWhile fun other => !txCompare entry other).Sublist
          (entries.takeWhile (fun other => !txCompare entry other) ++
            entry :: entries.dropWhile fun other => !txCompare entry other) :=
      (Sublist.refl _).append (sublist_cons_self _ _)
    rwa [takeWhile_append_dropWhile] at inserted
  · exact Sublist.refl _

theorem putBack_sublist (env : Env) (ticks : Nat) (txs : List Transaction)
    (entries : List SortedEntry) : entries.Sublist (putBack env ticks txs entries) := by
  induction txs generalizing ticks entries with
  | nil => exact Sublist.refl _
  | cons tx rest ih => exact (emplaceSorted_sublist _ _).trans (ih _ _)

/-- Giving the transactions back makes the pool lose none: there are none, all fit, or `prune`
looks only at transactions from a block, as the ones given back then are. -/
def QuietReturn (env : Env) (pool : Pool) (ticks : Nat) (txs : List Transaction) : Prop :=
  txs = [] ∨
    pool.totalWeight + (txs.map env.getTransactionWeight).sum ≤ env.txpoolMaxWeight ∨
      ∀ entry ∈ (putBack env ticks txs pool.txsByFeeAndReceiveTime).tail,
        pool.fromBlock entry.id = true ∨ entry.id ∈ txs.map env.getTransactionHash

section Regains

variable {env : Env} {pool full : Pool} {input : AddTxInput}

section

variable (regains : pool.Regains env (Poolable env) input full)
include regains

theorem Pool.Regains.ids : full.ids = input.id :: pool.ids := by
  obtain ⟨row, rows, -⟩ := regains.rows
  rw [Pool.ids, rows]
  rfl

theorem Pool.Regains.totalWeight : full.totalWeight = pool.totalWeight + input.txWeight := by
  obtain ⟨row, rows, -, -, weight⟩ := regains.rows
  rw [Pool.totalWeight, rows, Table.put, map_cons, weight, Nat.add_comm]
  rfl

theorem Pool.Regains.fromBlock (id : Hash) :
    full.fromBlock id = true ↔ id = input.id ∨ pool.fromBlock id = true := by
  obtain ⟨row, rows, -, block, -⟩ := regains.rows
  rw [Pool.fromBlock, rows]
  by_cases same : id = input.id
  · simp [same, block]
  · simp [Table.find_put_of_ne _ _ (Ne.symm same), Pool.fromBlock, same]

end

theorem Pool.Exact.weight_eq (exact : pool.Exact env (Poolable env))
    (fits : pool.totalWeight < 2 ^ 64) : pool.txpoolWeight = pool.totalWeight := by
  rw [exact.tallies.weight]
  exact Nat.mod_eq_of_lt fits

end Regains

/-- Transactions that may be given back to a pool: it stores none of them. -/
structure Absent (env : Env) (pool : Pool) (txs : List Transaction) : Prop where
  poolable : ∀ tx ∈ txs, Poolable env (env.getTransactionHash tx) tx
  unique : (txs.map env.getTransactionHash ++ pool.ids).Nodup
  fits : pool.totalWeight + (txs.map env.getTransactionWeight).sum < 2 ^ 64

/-- The node after transactions have been given back to its pool. -/
structure Node.Returned (env : Env) (before : Node) (txs : List Transaction) (after : Node) :
    Prop where
  exact : after.pool.Exact env (Poolable env)
  batchSuccess : after.batchSuccess = before.batchSuccess
  kept : ∀ id ∈ after.pool.ids, id ∈ before.pool.ids ∨ id ∈ txs.map env.getTransactionHash
  complete_iff : ((∀ id ∈ before.pool.ids, id ∈ after.pool.ids) ∧
      ∀ id ∈ txs.map env.getTransactionHash, id ∈ after.pool.ids) ↔
    QuietReturn env before.pool before.ticks txs

section Returning

variable {env : Env} {pool full : Pool} {ticks : Nat} {tx : Transaction} {txs : List Transaction}

/-- The call of `add_tx` for a transaction given back. -/
def backInput (env : Env) (tx : Transaction) (ticks : Nat) (uninit : Uninit) : AddTxInput :=
  { tx := tx
    blob := tx
    id := env.getTransactionHash tx
    txWeight := env.getTransactionWeight tx
    txRelay := .block
    relayed := true
    receiveTime := env.clock ticks
    lastRelayedTime := env.clock (ticks + 1)
    uninit := uninit }

theorem backInput_passes (poolable : Poolable env (env.getTransactionHash tx) tx)
    (uninit : Uninit) : pool.passesChecks env (backInput env tx ticks uninit) = true := by
  have modern : tx.version ≠ 1 := by rw [poolable.version]; decide
  have nonzero : tx.version ≠ 0 := by rw [poolable.version]; decide
  simp [Pool.passesChecks, backInput, addedFee, modern, nonzero, poolable.supported,
    poolable.light, poolable.outputs]

theorem backInput_faithful (poolable : Poolable env (env.getTransactionHash tx) tx)
    (uninit : Uninit) : (backInput env tx ticks uninit).Faithful env (Poolable env) where
  same := rfl
  modern := by
    change tx.version ≠ 1
    rw [poolable.version]
    decide
  weight := rfl
  accepted := poolable

theorem Absent.missing (absent : Absent env pool (tx :: txs)) :
    pool.txpool.find (env.getTransactionHash tx) = none := by
  refine Table.find_eq_none_iff.mpr fun member => ?_
  exact (nodup_cons.mp absent.unique).1 (mem_append_right _ member)

variable {uninit : Uninit}

theorem Absent.regained (absent : Absent env pool (tx :: txs))
    (regains : pool.Regains env (Poolable env) (backInput env tx ticks uninit) full) :
    Absent env full txs where
  poolable := fun other member => absent.poolable other (mem_cons_of_mem _ member)
  unique := by
    rw [regains.ids]
    exact perm_middle.nodup_iff.mpr absent.unique
  fits := by
    have fits := absent.fits
    rw [map_cons, sum_cons] at fits
    rw [regains.totalWeight]
    change pool.totalWeight + env.getTransactionWeight tx + _ < _
    omega

theorem Pool.Exact.id_of_entry (exact : pool.Exact env (Poolable env)) {entry : SortedEntry}
    (present : entry ∈ pool.txsByFeeAndReceiveTime) : entry.id ∈ pool.ids :=
  exact.sorts.mem_iff.mp (mem_map_of_mem present)

/-- Nothing is lost over all transactions exactly if nothing is lost after the first one and
nothing over the others. -/
theorem QuietReturn.cons_iff (absent : Absent env pool (tx :: txs))
    (regains : pool.Regains env (Poolable env) (backInput env tx ticks uninit) full) :
    QuietReturn env pool ticks (tx :: txs) ↔
      full.Quiet env ∧ QuietReturn env full (ticks + 2) txs := by
  have later := absent.regained regains
  have fits := later.fits
  have total : pool.totalWeight + ((tx :: txs).map env.getTransactionWeight).sum =
      full.totalWeight + (txs.map env.getTransactionWeight).sum := by
    rw [regains.totalWeight, map_cons, sum_cons, ← Nat.add_assoc]
    rfl
  have weight := regains.exact.weight_eq (Nat.lt_of_le_of_lt (Nat.le_add_right _ _) fits)
  have entries : putBack env ticks (tx :: txs) pool.txsByFeeAndReceiveTime =
      putBack env (ticks + 2) txs full.txsByFeeAndReceiveTime := by
    rw [regains.entries]
    rfl
  have blocks : (∀ entry ∈ (putBack env ticks (tx :: txs) pool.txsByFeeAndReceiveTime).tail,
        pool.fromBlock entry.id = true ∨ entry.id ∈ (tx :: txs).map env.getTransactionHash) ↔
      ∀ entry ∈ (putBack env (ticks + 2) txs full.txsByFeeAndReceiveTime).tail,
        full.fromBlock entry.id = true ∨ entry.id ∈ txs.map env.getTransactionHash := by
    rw [entries]
    refine forall₂_congr fun entry _ => ?_
    rw [regains.fromBlock, map_cons, mem_cons, or_left_comm, or_assoc]
    rfl
  have quiet : QuietReturn env pool ticks (tx :: txs) ↔
      full.totalWeight + (txs.map env.getTransactionWeight).sum ≤ env.txpoolMaxWeight ∨
        ∀ entry ∈ (putBack env (ticks + 2) txs full.txsByFeeAndReceiveTime).tail,
          full.fromBlock entry.id = true ∨ entry.id ∈ txs.map env.getTransactionHash := by
    rw [QuietReturn, total, blocks]
    simp
  rw [quiet]
  constructor
  · rintro (light | looked)
    · refine ⟨.inl ?_, .inr (.inl light)⟩
      rw [weight]
      exact Nat.le_of_add_right_le light
    · refine ⟨.inr fun entry member => ?_, .inr (.inr looked)⟩
      have final := (putBack_sublist env (ticks + 2) txs _).tail.subset member
      refine (looked entry final).resolve_right fun other => ?_
      -- The entry belongs to a stored transaction, so to none of those still to come.
      have stored := regains.exact.id_of_entry (mem_of_mem_tail member)
      exact (nodup_append.mp later.unique).2.2 _ other _ stored rfl
  · rintro ⟨quietNow, rfl | light | looked⟩
    · rw [Pool.Quiet, weight] at quietNow
      refine quietNow.imp id fun looked entry member => .inl (looked entry member)
    · exact .inl light
    · exact .inr looked

/-- Giving one transaction back to the pool. -/
theorem poolAddTx_regains (binding : env.Binding) {node : Node}
    (exact : node.pool.Exact env (Poolable env)) (absent : Absent env node.pool (tx :: txs)) :
    (poolAddTx env tx tx (env.getTransactionHash tx) .block true).Ensures node
      (fun _ after => after.ticks = node.ticks + 2 ∧ after.batchSuccess = node.batchSuccess ∧
        ∃ uninit full, node.pool.Regains env (Poolable env)
            (backInput env tx node.ticks uninit) full ∧
          full.Pruned env (Poolable env) after.pool) fun _ => True := by
  have poolable := absent.poolable tx mem_cons_self
  simp only [poolAddTx, tick, nextMemory, onPool, ensures_bind, ensures_get,
    ensures_modify, ensures_pure, ensures_zoom]
  have faithful : (backInput env tx node.ticks (env.memory node.checks)).Faithful env
      (Poolable env) := backInput_faithful poolable _
  refine (addTx_regains (identifies_poolable binding) exact faithful rfl
    (backInput_passes poolable _) absent.missing).mono ?_ fun _ _ => trivial
  rintro added pool ⟨full, regains, pruned⟩
  exact ⟨trivial, trivial, _, full, regains, pruned⟩

variable {after : Pool}

theorem Pool.Pruned.ids_subset (pruned : full.Pruned env (Poolable env) after) :
    ∀ id ∈ after.ids, id ∈ full.ids := by
  intro id member
  obtain ⟨row, present, rfl⟩ := mem_map.mp member
  exact mem_map_of_mem (pruned.kept row present)

theorem Pool.Pruned.totalWeight_le (pruned : full.Pruned env (Poolable env) after) :
    after.totalWeight ≤ full.totalWeight := by
  have distinct : after.txpool.Nodup := .of_map _ pruned.exact.keys
  obtain ⟨rows, same, sublist⟩ := subperm_of_subset distinct pruned.kept
  rw [Pool.totalWeight, ← (same.map _).sum_nat]
  exact (sublist.map _).sum_le_sum fun _ _ => Nat.zero_le _

theorem Absent.pruned (absent : Absent env full txs)
    (pruned : full.Pruned env (Poolable env) after) : Absent env after txs where
  poolable := absent.poolable
  unique := by
    obtain ⟨first, -, apart⟩ := nodup_append.mp absent.unique
    refine nodup_append.mpr ⟨first, pruned.exact.keys, ?_⟩
    intro id returned other stored
    exact apart id returned other (pruned.ids_subset other stored)
  fits := Nat.lt_of_le_of_lt (Nat.add_le_add_right pruned.totalWeight_le _) absent.fits

/-- One transaction given back, then the others. -/
theorem Node.Returned.cons {node next after : Node}
    (absent : Absent env node.pool (tx :: txs)) (ticked : next.ticks = node.ticks + 2)
    (success : next.batchSuccess = node.batchSuccess)
    (regains : node.pool.Regains env (Poolable env) (backInput env tx node.ticks uninit) full)
    (pruned : full.Pruned env (Poolable env) next.pool)
    (returned : next.Returned env txs after) : node.Returned env (tx :: txs) after := by
  have inFull : ∀ id, id ∈ full.ids ↔ id = env.getTransactionHash tx ∨ id ∈ node.pool.ids := by
    intro id
    rw [regains.ids]
    exact mem_cons
  refine ⟨returned.exact, returned.batchSuccess.trans success, ?_, ?_⟩
  · intro id member
    rw [map_cons, mem_cons]
    rcases returned.kept id member with stored | later
    · rcases (inFull id).mp (pruned.ids_subset id stored) with own | old
      · exact .inr (.inl own)
      · exact .inl old
    · exact .inr (.inr later)
  · rw [QuietReturn.cons_iff absent regains]
    constructor
    · rintro ⟨stored, back⟩
      have everything : ∀ id ∈ full.ids, id ∈ after.pool.ids := by
        intro id member
        rcases (inFull id).mp member with rfl | old
        · exact back _ mem_cons_self
        · exact stored id old
      -- What a `prune` removes here does not come back later.
      have quiet : full.Quiet env := by
        by_contra loud
        obtain ⟨id, present, gone⟩ := pruned.loud loud
        rcases returned.kept id (everything id present) with still | later
        · exact gone still
        · exact (nodup_append.mp (absent.regained regains).unique).2.2 _ later _ present rfl
      refine ⟨quiet, ?_⟩
      rw [← pruned.quiet quiet, ← ticked]
      apply returned.complete_iff.mp
      rw [pruned.quiet quiet]
      exact ⟨everything, fun id later => back id (mem_cons_of_mem _ later)⟩
    · rintro ⟨quiet, later⟩
      rw [← pruned.quiet quiet, ← ticked] at later
      obtain ⟨stored, back⟩ := returned.complete_iff.mpr later
      rw [pruned.quiet quiet] at stored
      refine ⟨fun id old => stored id ((inFull id).mpr (.inr old)), fun id member => ?_⟩
      rcases mem_cons.mp member with rfl | other
      · exact stored _ ((inFull _).mpr (.inl rfl))
      · exact back id other

theorem returnTxToPool_returned (binding : env.Binding) {node : Node}
    (exact : node.pool.Exact env (Poolable env)) (absent : Absent env node.pool txs) :
    (returnTxToPool env (txs.map fun tx => (tx, tx))).Ensures node
      (fun _ after => node.Returned env txs after) fun _ => True := by
  induction txs generalizing node with
  | nil =>
    refine ⟨exact, rfl, fun id member => .inl member, ?_⟩
    simp [QuietReturn]
  | cons tx rest ih =>
    simp only [returnTxToPool, map_cons, forEach, ensures_bind]
    refine (poolAddTx_regains binding exact absent).mono ?_ fun _ _ => trivial
    rintro added next ⟨ticked, success, uninit, full, regains, pruned⟩
    refine (ih pruned.exact ((absent.regained regains).pruned pruned)).mono ?_ fun _ _ => trivial
    intro done after returned
    exact returned.cons absent ticked success regains pruned

end Returning

/-! ## Taking the transactions of a block -/

/-- Whether the loop of `handle_block_to_main_chain` goes on after a transaction. -/
def acceptsTx (env : Env) (chain : ChainTables) (scanTable : ScanTable) (uninit : Uninit)
    (tx : Transaction) : Bool :=
  match chain.checkRingctInputs env scanTable uninit tx with
  | .ok (some _) => env.checkRingctOutputs tx
  | _ => false

variable {env : Env}

theorem acceptsTx_of_ok {chain : ChainTables} {scanTable : ScanTable} {uninit : Uninit}
    {tx : Transaction} {used : Option Nat}
    (checked : chain.checkRingctInputs env scanTable uninit tx = .ok used) :
    acceptsTx env chain scanTable uninit tx = (used.isSome && env.checkRingctOutputs tx) := by
  rw [acceptsTx, checked]
  cases used <;> rfl

/-- The rows that the loop takes out of the pool: up to the first id that is on the chain or
not in the pool, or the first transaction that is refused, which is taken too. -/
def takenRows (env : Env) (chain : ChainTables) (scanTable : ScanTable) :
    Table Hash PoolTx → Nat → List Hash → List (Hash × PoolTx)
  | _, _, [] => []
  | rows, checks, id :: rest =>
    if chain.txExists id then
      []
    else
      match rows.find id with
      | none => []
      | some row =>
        (id, row) ::
          if acceptsTx env chain scanTable (env.memory checks) row.blob then
            takenRows env chain scanTable (rows.remove id) (checks + 1) rest
          else
            []

/-- The node after rows have been taken out of its pool. -/
structure Node.Took (env : Env) (before : Node) (taken : List (Hash × PoolTx)) (after : Node) :
    Prop where
  exact : after.pool.Exact env (Poolable env)
  rows : before.pool.txpool.Perm (taken ++ after.pool.txpool)
  entries : after.pool.txsByFeeAndReceiveTime =
    before.pool.txsByFeeAndReceiveTime.filter (·.id ∉ taken.map Prod.fst)
  ticks : after.ticks = before.ticks
  batchSuccess : after.batchSuccess = before.batchSuccess

section Taking

variable {env : Env} {node next after : Node} {taken more : List (Hash × PoolTx)}

/-- Only the pool, the clock and the success of the batch matter. -/
theorem Node.Took.of_pool_eq (exact : node.pool.Exact env (Poolable env))
    (pool : after.pool = node.pool) (ticks : after.ticks = node.ticks)
    (batchSuccess : after.batchSuccess = node.batchSuccess) : node.Took env [] after where
  exact := pool ▸ exact
  rows := by rw [pool, nil_append]
  entries := by simp [pool]
  ticks := ticks
  batchSuccess := batchSuccess

theorem Node.Took.trans (first : node.Took env taken next) (second : next.Took env more after) :
    node.Took env (taken ++ more) after where
  exact := second.exact
  rows := by
    rw [append_assoc]
    exact first.rows.trans (second.rows.append_left taken)
  entries := by
    rw [second.entries, first.entries, filter_filter]
    refine filter_congr fun entry _ => ?_
    simp only [map_append, mem_append, not_or, Bool.decide_and, Bool.and_comm]
  ticks := second.ticks.trans first.ticks
  batchSuccess := second.batchSuccess.trans first.batchSuccess

section

variable (took : node.Took env taken next) (exact : node.pool.Exact env (Poolable env))
include took exact

theorem Node.Took.poolable : ∀ row ∈ taken, Poolable env row.1 row.2.blob :=
  fun row member =>
    (exact.holds.rows row (took.rows.mem_iff.mpr (mem_append_left _ member))).1

theorem Node.Took.hashes :
    (taken.map (·.2.blob)).map env.getTransactionHash = taken.map Prod.fst := by
  rw [map_map]
  exact map_congr_left fun row member => (took.poolable exact row member).hash

theorem Node.Took.weights :
    node.pool.totalWeight = ((taken.map (·.2.blob)).map env.getTransactionWeight).sum +
      next.pool.totalWeight := by
  have faithful : (taken.map (·.2.blob)).map env.getTransactionWeight =
      taken.map (·.2.details.weight) := by
    rw [map_map]
    refine map_congr_left fun row member => ?_
    have stored := took.rows.mem_iff.mpr (mem_append_left _ member)
    exact (exact.holds.rows row stored).2.weight.symm
  rw [Pool.totalWeight, (took.rows.map _).sum_nat, map_append, sum_append, faithful]
  rfl

end

variable {earlier : List Transaction}

/-- What was taken may be given back, with what was taken before. -/
theorem Absent.took (absent : Absent env node.pool earlier)
    (exact : node.pool.Exact env (Poolable env)) (took : node.Took env taken next) :
    Absent env next.pool (earlier ++ taken.map (·.2.blob)) where
  poolable := by
    intro tx member
    rcases mem_append.mp member with old | new
    · exact absent.poolable tx old
    · obtain ⟨row, present, rfl⟩ := mem_map.mp new
      have poolable := took.poolable exact row present
      exact poolable.hash.symm ▸ poolable
  unique := by
    have ids : node.pool.ids.Perm (taken.map Prod.fst ++ next.pool.ids) := by
      have mapped := took.rows.map Prod.fst
      rwa [map_append] at mapped
    rw [map_append, took.hashes exact, append_assoc]
    exact (ids.append_left _).nodup_iff.mp absent.unique
  fits := by
    have fits := absent.fits
    rw [took.weights exact] at fits
    rw [map_append, sum_append]
    omega

theorem eraseP_eq_filter {entries : List SortedEntry} (distinct : (entries.map (·.id)).Nodup)
    (id : Hash) : entries.eraseP (·.id = id) = entries.filter (·.id ≠ id) := by
  induction entries with
  | nil => rfl
  | cons entry rest ih =>
    obtain ⟨notLater, distinct⟩ := nodup_cons.mp distinct
    by_cases same : entry.id = id
    · rw [eraseP_cons_of_pos (by simpa using same), filter_cons_of_neg (by simpa using same)]
      refine (filter_eq_self.mpr fun other member => ?_).symm
      refine decide_eq_true fun equal => notLater ?_
      exact mem_map.mpr ⟨other, member, equal.trans same.symm⟩
    · rw [eraseP_cons_of_neg (by simpa using same),
        filter_cons_of_pos (by simpa using same), ih distinct]

/-- `take_tx` for a stored transaction. -/
theorem Node.Took.single (binding : env.Binding) (exact : node.pool.Exact env (Poolable env))
    {id : Hash} {row : PoolTx} (found : node.pool.txpool.find id = some row) (inBatch : Bool) :
    ∃ pool, (takeTx inBatch id).run node.pool = (.ok (some row.taken), pool) ∧
      pool.txpool = node.pool.txpool.remove id ∧ ∀ after : Node, after.pool = pool → after.ticks = node.ticks →
        after.batchSuccess = node.batchSuccess → node.Took env [(id, row)] after := by
  obtain ⟨sets, ran, exactAfter⟩ :=
    takeTx_run_some inBatch exact (identifies_poolable binding) found
  refine ⟨_, ran, rfl, fun after pool ticks batchSuccess => ⟨?_, ?_, ?_, ticks, batchSuccess⟩⟩
  · rw [pool]
    exact exactAfter
  · rw [pool]
    exact Table.perm_cons_remove exact.keys (Table.mem_of_find found)
  · rw [pool]
    refine (eraseP_eq_filter (exact.sorts.nodup_iff.mpr exact.keys) id).trans ?_
    simp

theorem failWithTxs_returned (binding : env.Binding) {α : Type} {txs : List Transaction}
    (exact : node.pool.Exact env (Poolable env)) (absent : Absent env node.pool txs) :
    (failWithTxs env (txs.map fun tx => (tx, tx)) : NodeM (Option α)).Ensures node
      (fun result after => result = none ∧ node.Returned env txs after) fun _ => True := by
  rw [failWithTxs, ensures_bind, updateBvc, ensures_modify, ensures_bind]
  refine Ensures.mono (returnTxToPool_returned binding ?_ ?_) ?_ fun _ _ => trivial
  · exact exact
  · exact absent
  · intro done after returned
    exact ⟨rfl, returned.exact, returned.batchSuccess, returned.kept, returned.complete_iff⟩

/-- What the loop leaves that took `taken`, after `earlier` transactions: if it failed, all of
them have been given back, else it has them. -/
def Node.Looped (env : Env) (before : Node) (earlier : List Transaction) (nPruned : Nat)
    (taken : List (Hash × PoolTx)) (result : Option BlockTxs) (after : Node) : Prop :=
  ∃ middle, before.Took env taken middle ∧
    match result with
    | none => middle.Returned env (earlier ++ taken.map (·.2.blob)) after
    | some total => after = middle ∧ total.nPruned = nPruned ∧
        total.txs = (earlier ++ taken.map (·.2.blob)).map fun tx => (tx, tx)

/-- One transaction is taken, then the others. -/
theorem Node.Looped.cons {nPruned : Nat} {row : Hash × PoolTx} {result : Option BlockTxs}
    (took : node.Took env [row] next)
    (looped : next.Looped env (earlier ++ [row.2.blob]) nPruned taken result after) :
    node.Looped env earlier nPruned (row :: taken) result after := by
  obtain ⟨middle, tookMore, left⟩ := looped
  refine ⟨middle, took.trans tookMore, ?_⟩
  rwa [append_assoc] at left

/-- The loop that takes the transactions of a block. -/
theorem takeBlockTxs_looped (binding : env.Binding) {bl : Block} {id : Hash} {hashes : List Hash}
    {collected : BlockTxs} (exact : node.pool.Exact env (Poolable env))
    (absent : Absent env node.pool earlier)
    (items : collected.txs = earlier.map fun tx => (tx, tx)) :
    (takeBlockTxs env bl id hashes collected).Ensures node
      (fun result after => node.Looped env earlier collected.nPruned
        (takenRows env node.chain node.scanTable node.pool.txpool node.checks hashes) result after)
      fun _ => True := by
  induction hashes generalizing node earlier collected with
  | nil =>
    refine ⟨node, .of_pool_eq exact rfl rfl rfl, rfl, rfl, ?_⟩
    simpa [takenRows] using items
  | cons txId rest ih =>
    have nothing : ∀ result after, result = none ∧ node.Returned env earlier after →
        node.Looped env earlier collected.nPruned [] result after := by
      rintro result after ⟨rfl, returned⟩
      refine ⟨node, .of_pool_eq exact rfl rfl rfl, ?_⟩
      simpa using returned
    unfold takeBlockTxs
    rw [ensures_get_bind, ensures_ite, items]
    constructor
    · intro onChain
      rw [takenRows, if_pos onChain]
      exact (failWithTxs_returned binding exact absent).mono nothing fun _ _ => trivial
    · intro offChain
      rw [ensures_bind, onPool, ensures_zoom, takenRows, if_neg offChain]
      cases found : node.pool.txpool.find txId with
      | none =>
        refine .of_run (takeTx_run_none _ found) ?_
        exact (failWithTxs_returned binding exact absent).mono nothing fun _ _ => trivial
      | some row =>
        obtain ⟨pool, ran, rows, single⟩ :=
          Node.Took.single binding exact found node.batch.isSome
        refine .of_run ran ?_
        have took := single { node with pool := pool, checks := node.checks + 1 } rfl rfl rfl
        have later : Absent env pool (earlier ++ [row.blob]) := absent.took exact took
        have txs : earlier.map (fun tx => (tx, tx)) ++ [(row.taken.tx, row.taken.blob)] =
            (earlier ++ [row.blob]).map fun tx => (tx, tx) := by
          rw [map_append]
          rfl
        have complete : row.taken.pruned = false :=
          (exact.holds.rows _ (Table.mem_of_find found)).2.complete
        simp only [ensures_bind, ensures_reads, ensures_ite]
        refine ⟨fun used checked => ⟨fun goesOn => ?_, fun refused => ?_⟩, fun _ _ => trivial⟩
        · have accepts : acceptsTx env node.chain node.scanTable (env.memory node.checks)
              row.blob = true :=
            (acceptsTx_of_ok checked).trans (Bool.and_eq_true_iff.mpr goesOn)
          rw [if_pos accepts, ← rows]
          refine Ensures.mono (ih took.exact later txs) ?_ fun _ _ => trivial
          intro result after looped
          rw [complete] at looped
          exact looped.cons took
        · have refuses : ¬ acceptsTx env node.chain node.scanTable (env.memory node.checks)
              row.blob = true :=
            fun accepts => refused (Bool.and_eq_true_iff.mp
              ((acceptsTx_of_ok checked).symm.trans accepts))
          have fails : ∀ marked : Node, marked.pool = pool → marked.ticks = node.ticks →
              marked.batchSuccess = node.batchSuccess →
              (failWithTxs env ((earlier ++ [row.blob]).map fun tx => (tx, tx))).Ensures
                marked (node.Looped env earlier collected.nPruned [(txId, row)]) fun _ => True := by
            intro marked samePool ticks success
            have took := single marked samePool ticks success
            refine (failWithTxs_returned binding took.exact (samePool ▸ later)).mono ?_
              fun _ _ => trivial
            rintro result after ⟨rfl, returned⟩
            exact ⟨marked, took, returned⟩
          rw [txs, addBlockAsInvalid, ensures_modify]
          split <;> exact fails _ rfl rfl rfl

end Taking

/-! ## The whole block -/

/-- The block passes what `handle_block_to_main_chain` tests before it looks at the
transactions. -/
def Node.passesHeader (env : Env) (node : Node) (bl : Block) (id : Hash) : Bool :=
  (match node.chain.topBlockHash with
    | .ok topHash => decide (bl.prevId = topHash)
    | .error _ => false) &&
  (match node.chain.checkBlockTimestamp (env.clock node.ticks) bl with
    | .ok timely => timely
    | .error _ => false) &&
  (match node.chain.getDifficultyForNextBlock env.fixedDifficulty with
    | .ok difficulty => decide (difficulty ≠ 0) &&
        checkHash ((node.blocksLonghashTable.find id).getD (env.getMiningHash bl)) difficulty
    | .error _ => false) &&
  (decide (node.chain.height = 0) || (env.prevalidateMinerTransaction bl node.chain.height).isSome)

/-- The rows that `handle_block_to_main_chain` takes out of the pool. -/
def Node.takes (env : Env) (node : Node) (bl : Block) (id : Hash) : List (Hash × PoolTx) :=
  if node.passesHeader env bl id then
    takenRows env node.chain node.scanTable node.pool.txpool node.checks bl.txHashes
  else
    []

section Block

variable {env : Env} {node middle after : Node} {bl : Block} {id : Hash}

/-- The end of `handle_block_to_main_chain` adds the block, or `add_block` throws, or the
transactions have been given back. -/
theorem connectBlock_returned (binding : env.Binding) {difficulty : Nat}
    {coinbase : Option CoinbaseTx} {collected : BlockTxs} {txs : List Transaction}
    (exact : middle.pool.Exact env (Poolable env)) (absent : Absent env middle.pool txs)
    (items : collected.txs = txs.map fun tx => (tx, tx)) :
    (connectBlock env bl difficulty coinbase collected).Ensures middle
      (fun added after => added = true ∨ after.batchSuccess = false ∨
        middle.Returned env txs after) fun _ => True := by
  have back : ∀ start : Node, start.pool = middle.pool → start.ticks = middle.ticks →
      (returnTxToPool env collected.txs).Ensures start
        (fun _ after => after.batchSuccess = start.batchSuccess ∧
          (start.batchSuccess = middle.batchSuccess → middle.Returned env txs after))
        fun _ => True := by
    intro start samePool ticks
    rw [items]
    refine (returnTxToPool_returned binding (samePool ▸ exact) (samePool ▸ absent)).mono ?_
      fun _ _ => trivial
    intro done after returned
    refine ⟨returned.batchSuccess, fun success => ⟨returned.exact, ?_, ?_, ?_⟩⟩
    · exact returned.batchSuccess.trans success
    · exact samePool ▸ returned.kept
    · exact samePool ▸ ticks ▸ returned.complete_iff
  unfold connectBlock
  rw [ensures_bind, ensures_reads]
  refine ⟨fun coins _ => ?_, fun _ _ => trivial⟩
  rw [ensures_bind, ensures_reads]
  refine ⟨fun accepted _ => ?_, fun _ _ => trivial⟩
  rw [ensures_ite]
  constructor
  · intro refused
    rw [ensures_bind, updateBvc, ensures_modify, ensures_bind]
    refine Ensures.mono (back _ ?_ ?_) ?_ fun _ _ => trivial
    · rfl
    · rfl
    · rintro done after ⟨-, returned⟩
      exact .inr (.inr (returned rfl))
  · intro valid
    rw [ensures_bind, ensures_reads]
    refine ⟨fun cumulativeDifficulty _ => ?_, fun _ _ => trivial⟩
    rw [ensures_bind]
    refine Ensures.mono (Ensures.tryCatch (?_ : Ensures _ _
      (fun (added : Bool) (after : Node) => added = true ∨ after.batchSuccess = false)
      fun start : Node => start.pool = middle.pool ∧ start.ticks = middle.ticks) ?_) ?_
        fun (_ : Node) (_ : True) => trivial
    · rw [ensures_bind, onChain, ensures_zoom]
      exact .intro (fun _ _ _ => .inl rfl) fun _ _ _ => ⟨rfl, rfl⟩
    · rintro exception start ⟨samePool, ticks⟩
      rw [ensures_modify_bind, ensures_bind, updateBvc, ensures_modify, ensures_bind]
      refine Ensures.mono (back _ samePool ticks) ?_ fun _ _ => trivial
      rintro done after ⟨success, -⟩
      exact .inr success
    · intro added after left
      rw [ensures_ite]
      constructor
      · intro _
        rw [ensures_bind, updateBvc, ensures_modify, ensures_bind, onPool, ensures_zoom,
          onBlockchainChange, ensures_modify, ensures_bind, ensures_reads]
        exact ⟨fun _ _ => .inl rfl, fun _ _ => trivial⟩
      · intro notAdded
        exact .inr (.inl (left.resolve_left notAdded))

/-- What a rejected block leaves: the pool as it was, if the block took nothing, or the pool
after what it took has been given back. -/
def Node.Rejected (env : Env) (node : Node) (bl : Block) (id : Hash) (after : Node) : Prop :=
  (node.takes env bl id = [] ∧ after.pool = node.pool) ∨
    ∃ middle, ({ node with ticks := node.ticks + 1 } : Node).Took env (node.takes env bl id)
        middle ∧ middle.Returned env ((node.takes env bl id).map (·.2.blob)) after

theorem handleBlockToMainChain_rejected (binding : env.Binding)
    (exact : node.pool.Exact env (Poolable env)) (fits : node.pool.totalWeight < 2 ^ 64)
    (bl : Block) (id : Hash) :
    (handleBlockToMainChain env bl id).Ensures node
      (fun added after => added = true ∨ after.batchSuccess = false ∨
        node.Rejected env bl id after) fun _ => True := by
  have none : ∀ after : Node, node.passesHeader env bl id = false → after.pool = node.pool →
      node.Rejected env bl id after := by
    intro after failed same
    refine .inl ⟨?_, same⟩
    rw [Node.takes, failed]
    rfl
  unfold handleBlockToMainChain
  rw [ensures_get_bind, ensures_bind, ensures_reads]
  refine ⟨fun topHash top => ?_, fun _ _ => trivial⟩
  rw [ensures_ite]
  refine ⟨fun elsewhere => .inr (.inr (none _ ?_ rfl)), fun onTop => ?_⟩
  · simp [Node.passesHeader, top, elsewhere]
  simp only [tick, ensures_bind, ensures_reads]
  refine ⟨fun timely clock => ?_, fun _ _ => trivial⟩
  rw [ensures_ite]
  refine ⟨fun early => .inr (.inr (none _ ?_ rfl)), fun inTime => ?_⟩
  · simp [Node.passesHeader, clock, early]
  rw [ensures_bind, ensures_reads]
  refine ⟨fun difficulty computed => ?_, fun _ _ => trivial⟩
  rw [ensures_ite]
  refine ⟨fun zero => .inr (.inr (none _ ?_ rfl)), fun positive => ?_⟩
  · simp [Node.passesHeader, computed, zero]
  rw [ensures_ite]
  refine ⟨fun lazy => .inr (.inr (none _ ?_ rfl)), fun worked => ?_⟩
  · simp [Node.passesHeader, computed, lazy]
  rw [ensures_ite]
  refine ⟨fun noCoinbase => .inr (.inr (none _ ?_ rfl)), fun coinbase => ?_⟩
  · simp [Node.passesHeader, noCoinbase.1, Option.isNone_iff_eq_none.mp noCoinbase.2]
  have header : node.passesHeader env bl id = true := by
    have prevalidated : node.chain.height = 0 ∨
        (env.prevalidateMinerTransaction bl node.chain.height).isSome = true := by
      rw [not_and_or, not_not] at coinbase
      exact coinbase.imp_right fun some => Option.isSome_iff_ne_none.mpr (by simpa using some)
    simp [Node.passesHeader, top, not_not.mp onTop, clock, not_not.mp inTime, computed, positive,
      not_not.mp worked, prevalidated]
  have takes : node.takes env bl id = takenRows env node.chain node.scanTable node.pool.txpool
      node.checks bl.txHashes := if_pos header
  have absent : Absent env ({ node with ticks := node.ticks + 1 } : Node).pool [] :=
    ⟨by simp, exact.keys, fits⟩
  rw [ensures_bind]
  have looped := fun (start : BlockTxs) (empty : start.txs = []) =>
    @takeBlockTxs_looped env { node with ticks := node.ticks + 1 } [] binding bl id bl.txHashes
      start exact absent empty
  refine (looped _ rfl).mono ?_ fun _ _ => trivial
  rintro collected after ⟨middle, took, left⟩
  rw [← takes] at took left
  cases collected with
  | none =>
    refine .inr (.inr (.inr ⟨middle, ?_, left⟩))
    exact took
  | some total =>
    obtain ⟨rfl, pruned, items⟩ := left
    have taken : Absent env after.pool ((node.takes env bl id).map (·.2.blob)) :=
      Absent.took absent exact took
    dsimp only
    rw [if_neg (pruned ▸ Nat.lt_irrefl 0)]
    refine (connectBlock_returned binding took.exact taken items).mono ?_ fun _ _ => trivial
    intro added final left
    exact left.imp_right (.imp_right fun returned => .inr ⟨after, took, returned⟩)

end Block

/-- The pool stores the same transactions, with the same key images. -/
structure Pool.SameContents (before after : Pool) : Prop where
  ids : ∀ id, id ∈ after.ids ↔ id ∈ before.ids
  keyImages : ∀ image id, id ∈ after.spenders image ↔ id ∈ before.spenders image

/-- The key images follow from the ids, since an id stands for one transaction. -/
theorem Pool.SameContents.of_ids (binding : env.Binding) {before after : Pool}
    (exact : before.Exact env (Poolable env)) (exactAfter : after.Exact env (Poolable env))
    (ids : ∀ id, id ∈ after.ids ↔ id ∈ before.ids) : before.SameContents after := by
  have spends : ∀ {one other : Pool}, one.Exact env (Poolable env) →
      other.Exact env (Poolable env) → (∀ id, id ∈ one.ids → id ∈ other.ids) →
        ∀ image id, Spends one.txpool image id → Spends other.txpool image id := by
    rintro one other first second within image id ⟨row, present, spent⟩
    obtain ⟨stored, there, same⟩ :=
      mem_map.mp (within id (mem_map_of_mem present))
    have equal : stored.2.blob = row.blob := (identifies_poolable binding).unique
      (first.holds.rows _ present).1 (same ▸ (second.holds.rows _ there).1)
    exact ⟨stored.2, same ▸ there, equal ▸ spent⟩
  refine ⟨ids, fun image id => ?_⟩
  rw [Pool.spenders, Pool.spenders, exactAfter.tallies.index.mem_members,
    exact.tallies.index.mem_members]
  exact ⟨spends exactAfter exact (fun id => (ids id).mp) image id,
    spends exact exactAfter (fun id => (ids id).mpr) image id⟩

/-- Giving back what the block takes makes the pool lose nothing. -/
def Node.ReturnsAll (env : Env) (node : Node) (bl : Block) (id : Hash) : Prop :=
  node.takes env bl id = [] ∨ node.pool.txpoolWeight ≤ env.txpoolMaxWeight ∨
    ∀ entry ∈ (putBack env (node.ticks + 1) ((node.takes env bl id).map (·.2.blob))
        (node.pool.txsByFeeAndReceiveTime.filter
          (·.id ∉ (node.takes env bl id).map Prod.fst))).tail,
      node.pool.fromBlock entry.id = true ∨ entry.id ∈ (node.takes env bl id).map Prod.fst

theorem Node.Took.fromBlock {node next : Node} {taken : List (Hash × PoolTx)}
    (took : node.Took env taken next) (exact : node.pool.Exact env (Poolable env)) {id : Hash}
    (left : id ∉ taken.map Prod.fst) : next.pool.fromBlock id = node.pool.fromBlock id := by
  have same : next.pool.txpool.find id = node.pool.txpool.find id := by
    cases found : next.pool.txpool.find id with
    | none =>
      refine (Table.find_eq_none_iff.mpr fun member => ?_).symm
      rw [(took.rows.map Prod.fst).mem_iff, map_append, mem_append] at member
      exact Table.find_eq_none_iff.mp found (member.resolve_left left)
    | some row =>
      refine (Table.find_of_mem exact.keys ?_).symm
      exact took.rows.mem_iff.mpr (mem_append_right _ (Table.mem_of_find found))
  rw [Pool.fromBlock, same, Pool.fromBlock]

/-- Whether the pool loses something, as seen before the block takes its transactions. -/
theorem Node.Took.quietReturn_iff {node middle : Node} {bl : Block} {id : Hash}
    (exact : node.pool.Exact env (Poolable env)) (fits : node.pool.totalWeight < 2 ^ 64)
    (took : ({ node with ticks := node.ticks + 1 } : Node).Took env (node.takes env bl id) middle) :
    QuietReturn env middle.pool middle.ticks ((node.takes env bl id).map (·.2.blob)) ↔
      node.ReturnsAll env bl id := by
  have weight : middle.pool.totalWeight +
      (((node.takes env bl id).map (·.2.blob)).map env.getTransactionWeight).sum =
        node.pool.txpoolWeight := by
    rw [exact.weight_eq fits, Nat.add_comm]
    exact (took.weights exact).symm
  rw [QuietReturn, weight, took.ticks, took.entries, took.hashes exact, map_eq_nil_iff]
  refine or_congr_right (or_congr_right (forall₂_congr fun entry _ => ?_))
  by_cases member : entry.id ∈ (node.takes env bl id).map Prod.fst
  · simp [member]
  · rw [took.fromBlock exact member]

/-- If `handle_block_to_main_chain` rejects a block and `add_block` has not thrown, which would
have cleared `m_batch_success`, then the pool has the same contents exactly if giving back what
the block took makes it lose nothing. -/
theorem rejected_block_keeps_pool_iff {env : Env} (binding : env.Binding) {node after : Node}
    {bl : Block} {id : Hash} (exact : node.pool.Exact env (Poolable env))
    (fits : node.pool.totalWeight < 2 ^ 64)
    (rejected : (handleBlockToMainChain env bl id).run node = (.ok false, after))
    (notThrown : after.batchSuccess = true) :
    node.pool.SameContents after.pool ↔ node.ReturnsAll env bl id := by
  have left := (handleBlockToMainChain_rejected binding exact fits bl id).of_ok rejected
  rcases left with added | thrown | ⟨nothing, same⟩ | ⟨middle, took, returned⟩
  · cases added
  · exact absurd (notThrown.symm.trans thrown) Bool.true_eq_false.mp
  · rw [same]
    exact ⟨fun _ => .inl nothing, fun _ => ⟨fun _ => Iff.rfl, fun _ _ => Iff.rfl⟩⟩
  · rw [← took.quietReturn_iff exact fits, ← returned.complete_iff, took.hashes exact]
    have split : ∀ other, other ∈ node.pool.ids ↔
        other ∈ (node.takes env bl id).map Prod.fst ∨ other ∈ middle.pool.ids := by
      intro other
      rw [Pool.ids, (took.rows.map Prod.fst).mem_iff, map_append, mem_append]
      rfl
    constructor
    · intro same
      exact ⟨fun other stored => (same.ids other).mpr ((split other).mpr (.inr stored)),
        fun other taken => (same.ids other).mpr ((split other).mpr (.inl taken))⟩
    · rintro ⟨stored, taken⟩
      refine .of_ids binding exact returned.exact fun other => ⟨fun member => ?_, fun member => ?_⟩
      · have kept := returned.kept other member
        rw [took.hashes exact] at kept
        exact (split other).mpr kept.symm
      · exact ((split other).mp member).elim (taken other) (stored other)

/-! A pool with three transactions that were relayed after they had come with a block, and a
block on the genesis block with the first of them, whose ring members do not exist. -/

/-- A transaction that spends outputs which are not there. -/
def waitingTx (index : Nat) : Transaction :=
  ringTx (identity + 2 * (index + 1)) (0 :: List.replicate mixin 1) 2

/-- An environment that knows three of them, with a pool of a given size. -/
def waitingEnv (maxWeight : Nat) : Env :=
  numberedEnv [waitingTx 0, waitingTx 1, waitingTx 2] maxWeight

/-- A transaction comes with a block. -/
def waitingAdd (maxWeight index : Nat) : PoolOp :=
  .add (Node.started (waitingEnv maxWeight) mainnet).chain [] false
    (backInput (waitingEnv maxWeight) (waitingTx index) index fun _ => 0)

/-- The pool with the first transactions. -/
def waitingPool (maxWeight : Nat) : Nat → Pool
  | 0 => .empty
  | count + 1 =>
    (waitingAdd maxWeight count).after (waitingEnv maxWeight) (waitingPool maxWeight count)

/-- The node with all of them, relayed. -/
def waitingNode (maxWeight : Nat) : Node :=
  { Node.started (waitingEnv maxWeight) mainnet with
    pool := (PoolOp.setRelayed [firstNumber, firstNumber + 1, firstNumber + 2] .fluff 3).after
      (waitingEnv maxWeight) (waitingPool maxWeight 3) }

/-- The block with the first one. -/
def waitingBlock : Block :=
  { emptyBlock 1 with txHashes := [firstNumber] }

theorem waitingPool_run {maxWeight : Nat} (known : maxWeight = 150 ∨ maxWeight = 1000)
    {count : Nat} (three : count ≤ 3) : ∃ ops, PoolRun (waitingEnv maxWeight) (fun pool op =>
      op.Proper (waitingEnv maxWeight) ∧ op.Once (waitingEnv maxWeight) pool ∧
        op.Undisputed pool) ops (waitingPool maxWeight count) := by
  induction count with
  | zero => exact ⟨[], .start⟩
  | succ count ih =>
    obtain ⟨ops, run⟩ := ih (Nat.le_of_succ_le three)
    have evaluated : ∀ maxWeight ∈ [150, 1000], ∀ index ∈ List.range 3,
        (((waitingAdd maxWeight index).perform (waitingEnv maxWeight)).run
          (waitingPool maxWeight index)).1 = .ok () ∧
        (waitingPool maxWeight index).txpool.find
          ((waitingEnv maxWeight).getTransactionHash (waitingTx index)) = none := by
      decide +kernel
    obtain ⟨returned, missing⟩ := evaluated maxWeight (by simpa using known) count
      (mem_range.mpr three)
    refine ⟨_, run.next ⟨⟨⟨rfl, rfl, rfl, Nat.le_refl _, ?_⟩, ?_⟩, ?_, trivial⟩ returned⟩
    · intro old
      cases old
    · exact nodup_singleton _
    · exact fun again => again.1 missing

theorem waitingNode_exact {maxWeight : Nat} (known : maxWeight = 150 ∨ maxWeight = 1000) :
    (waitingNode maxWeight).pool.Exact (waitingEnv maxWeight)
      (Poolable (waitingEnv maxWeight)) := by
  obtain ⟨ops, run⟩ := waitingPool_run known (Nat.le_refl 3)
  exact PoolRun.exact (numberedEnv_binding _ _) (run.next ⟨trivial, trivial, trivial⟩ rfl)

theorem rejected_block_keeps_light_pool :
    (waitingNode 1000).pool.SameContents
      ((handleBlockToMainChain (waitingEnv 1000) waitingBlock 300).run (waitingNode 1000)).2.pool := by
  have rejected : ((handleBlockToMainChain (waitingEnv 1000) waitingBlock 300).run
      (waitingNode 1000)).1 = .ok false := by
    decide +kernel
  exact (rejected_block_keeps_pool_iff (numberedEnv_binding _ _) (waitingNode_exact (.inr rfl))
    (by decide +kernel) (Prod.ext rejected rfl) (by decide +kernel)).mpr
      (.inr (.inl (by decide +kernel)))

/-- The pool is too heavy: the block is rejected, and another transaction is gone. -/
theorem rejected_block_eats_pool :
    (waitingNode 150).pool.Exact (waitingEnv 150) (Poolable (waitingEnv 150)) ∧
      ∃ after, (handleBlockToMainChain (waitingEnv 150) waitingBlock 300).run (waitingNode 150) =
          (.ok false, after) ∧
        after.batchSuccess = true ∧
        (waitingNode 150).pool.ids = [firstNumber + 2, firstNumber + 1, firstNumber] ∧
        after.pool.ids = [firstNumber, firstNumber + 1] := by
  refine ⟨waitingNode_exact (.inl rfl), _, Prod.ext ?_ rfl, ?_, ?_, ?_⟩ <;> decide +kernel

end Memero
