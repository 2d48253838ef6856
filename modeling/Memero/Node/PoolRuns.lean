import Memero.Node.RingMembers
import Memero.Pool.Exact

/-!
# Runs of the pool

The operations of `tx_memory_pool`, called one after the other, each on any chain. The indexes
describe the stored transactions as long as `add_tx` stores no transaction that is stored
already, and `init` finds no two transactions that spend the same key image and do not come
from a block. `set_relayed` leads to the latter, and a transaction that was added as `local`
is stored once more when it arrives from the network.
-/

namespace Memero

open Exec Pool

open ChainTables (ofLedger)

/-- The operations. `restart` is `init` on a new object over the same tables. -/
inductive PoolOp where
  | init
  | restart
  | add (db : ChainTables) (scanTable : ScanTable) (inBatch : Bool) (input : AddTxInput)
  | take (inBatch : Bool) (id : Hash)
  | setRelayed (hashes : List Hash) (method : RelayMethod) (now : Nat)
  | prune (inBatch : Bool) (bytes : Nat)
  | removeStuck (now : Nat)
  | validate (db : ChainTables)

/-- A call of an operation. -/
def PoolOp.perform (env : Env) : PoolOp → PoolM Unit
  | .init => do
      let _ ← initPool env
  | .restart => do
      Exec.modify fun pool => { Pool.empty with txpool := pool.txpool }
      let _ ← initPool env
  | .add db scanTable inBatch input => do
      let _ ← addTx env db scanTable inBatch input
  | .take inBatch id => do
      let _ ← takeTx inBatch id
  | .setRelayed hashes method now => Memero.setRelayed hashes method now
  | .prune inBatch bytes => Memero.prune env inBatch bytes
  | .removeStuck now => removeStuckTransactions now
  | .validate db => do
      let _ ← Memero.validate env db

/-- The pools that calls of allowed operations lead to from the empty one, with the calls, the
last one first. A call may throw. -/
inductive PoolRun (env : Env) (allowed : Pool → PoolOp → Prop) : List PoolOp → Pool → Prop where
  | start : PoolRun env allowed [] .empty
  | call {ops : List PoolOp} {pool after : Pool} {op : PoolOp}
      (run : PoolRun env allowed ops pool) (called : allowed pool op)
      (returned : (op.perform env).run pool = (.ok (), after)) :
      PoolRun env allowed (op :: ops) after
  | thrown {ops : List PoolOp} {pool after : Pool} {op : PoolOp} {exception : Exn}
      (run : PoolRun env allowed ops pool) (called : allowed pool op)
      (threw : (op.perform env).run pool = (.thrown exception, after)) :
      PoolRun env allowed (op :: ops) after

/-! ## Transactions for the pool -/

/-- What `add_tx` is called with: a transaction with its hash and its blob. The confidential
part of a transaction of version 1 is not serialised. -/
structure AddTxInput.Proper (env : Env) (input : AddTxInput) : Prop where
  blob : input.blob = input.tx
  id : input.id = env.getTransactionHash input.tx
  weight : input.txWeight = env.getTransactionWeight input.tx
  version : input.tx.version ≤ txVersion
  legacy : input.tx.version = 1 → input.tx.ringct.type = .null

/-- What the core calls `add_tx` with: it has made the checks on first arrival. -/
structure AddTxInput.FromCore (env : Env) (input : AddTxInput) : Prop
    extends input.Proper env where
  semantic : ∃ txFromBlock, env.checkRingctSemantic input.tx txFromBlock = true
  amounts : txVersion ≤ input.tx.version → ∃ rangeMemory balanceMemory,
    env.verifyAmounts input.tx rangeMemory balanceMemory = true

/-- A transaction that `add_tx` may store under an id. -/
structure Poolable (env : Env) (id : Hash) (tx : Transaction) : Prop where
  hash : env.getTransactionHash tx = id
  version : tx.version = txVersion
  supported : checkInputsTypesSupported tx = true
  distinct : tx.keyImages.Nodup
  light : env.getTransactionWeight tx ≤ transactionWeightLimit
  outputs : env.checkRingctOutputs tx = true

variable {env : Env} {pool : Pool} {allowed : Pool → PoolOp → Prop} {ops : List PoolOp}
variable {tx : Transaction} {input : AddTxInput} {op : PoolOp}

theorem type_of_checkRingctOutputs (outputs : env.checkRingctOutputs tx = true) :
    tx.ringct.type = .clsag := by
  simp only [Env.checkRingctOutputs, Bool.and_eq_true, decide_eq_true_eq] at outputs
  exact outputs.1.2

theorem identifies_poolable (binding : env.Binding) : Identifies (Poolable env) where
  unique := fun first second => binding.transaction _ _ second.version first.version
    (type_of_checkRingctOutputs second.outputs) (type_of_checkRingctOutputs first.outputs)
    (second.hash.trans first.hash.symm)
  supported := Poolable.supported
  distinct := Poolable.distinct

theorem AddTxInput.Proper.faithful (proper : input.Proper env) (distinct : input.tx.keyImages.Nodup)
    (passes : pool.passesChecks env input = true) : input.Faithful env (Poolable env) := by
  have version := passesChecks_version passes
  have outputs := passesChecks_outputs passes
  have type := type_of_checkRingctOutputs outputs
  have modern : input.tx.version ≠ 1 := by
    intro old
    rw [proper.legacy old] at type
    cases type
  have bound : input.tx.version ≤ 2 := proper.version
  have exactly : input.tx.version = 2 := by omega
  simp only [passesChecks, Bool.and_eq_true, decide_eq_true_eq] at passes
  exact
    { same := proper.blob
      modern := modern
      weight := proper.blob ▸ proper.weight
      accepted :=
        { hash := proper.id.symm
          version := exactly
          supported := passes.1.1.1.1.2
          distinct := distinct
          light := proper.weight ▸ passes.1.1.2
          outputs := outputs } }

theorem AddTxInput.FromCore.distinct (fromCore : input.FromCore env) :
    input.tx.keyImages.Nodup := by
  obtain ⟨txFromBlock, passed⟩ := fromCore.semantic
  exact keyImages_nodup_of_semantic passed

/-! ## One operation -/

/-- `add_tx` stores no transaction that is stored already. -/
def PoolOp.Once (env : Env) (pool : Pool) : PoolOp → Prop
  | .add db scanTable _ input => ¬ pool.AddsAgain env db scanTable input
  | _ => True

/-- `init` meets no two transactions that spend the same key image and do not come from a
block. -/
def PoolOp.Undisputed (pool : Pool) : PoolOp → Prop
  | .init | .restart => OneRelayed pool.txpool
  | _ => True

/-- The transactions given to `add_tx` have distinct key images. -/
def PoolOp.Proper (env : Env) : PoolOp → Prop
  | .add _ _ _ input => input.Proper env ∧ input.tx.keyImages.Nodup
  | _ => True

/-- Every operation but `set_relayed`. -/
def PoolOp.KeepsRelay : PoolOp → Prop
  | .setRelayed .. => False
  | _ => True

/-- The rows that an operation leaves; `set_relayed` may leave any rows. -/
def PoolOp.Leaves (pool after : Pool) : PoolOp → Prop
  | .add _ _ _ input => pool.Offered input after
  | .setRelayed .. => True
  | _ => ∀ row ∈ after.txpool, row ∈ pool.txpool

theorem PoolOp.perform_exact (binding : env.Binding) (exact : pool.Exact env (Poolable env))
    (proper : op.Proper env) (once : op.Once env pool) (undisputed : op.Undisputed pool) :
    (op.perform env).Ensures pool
      (fun _ after => after.Exact env (Poolable env) ∧ op.Leaves pool after)
      fun after => after = pool := by
  have identifies := identifies_poolable binding
  cases op with
  | init =>
    rw [PoolOp.perform, ensures_bind]
    refine (initPool_ensures identifies exact.holds exact.keys undisputed).mono ?_
      fun _ => False.elim
    rintro done after ⟨-, exactAfter, same⟩
    exact ⟨exactAfter, fun row member => same ▸ member⟩
  | restart =>
    rw [PoolOp.perform, ensures_modify_bind, ensures_bind]
    have holds : ({ empty with txpool := pool.txpool } : Pool).Holds env (Poolable env) :=
      ⟨exact.holds.rows, by simp [empty]⟩
    refine (initPool_ensures identifies holds exact.keys undisputed).mono ?_ fun _ => False.elim
    rintro done after ⟨-, exactAfter, same⟩
    exact ⟨exactAfter, fun row member => same ▸ member⟩
  | add db scanTable inBatch input =>
    rw [PoolOp.perform, ensures_bind]
    exact addTx_exact identifies exact
      (fun passes _ => proper.1.faithful proper.2 passes) once
  | take inBatch id =>
    rw [PoolOp.perform, ensures_bind]
    cases found : pool.txpool.find id with
    | none => exact .of_run (takeTx_run_none inBatch found) ⟨exact, fun _ member => member⟩
    | some row =>
      obtain ⟨sets, ran, exactAfter⟩ := takeTx_run_some inBatch exact identifies found
      exact .of_run ran ⟨exactAfter, fun _ => Table.mem_of_mem_remove⟩
  | setRelayed hashes method now =>
    exact (setRelayed_exact exact hashes method now).mono
      (fun _ _ reached => ⟨reached.1, trivial⟩) fun _ => False.elim
  | prune inBatch bytes =>
    exact (prune_ensures identifies exact inBatch bytes).mono (fun _ _ reached => reached)
      fun _ => False.elim
  | removeStuck now =>
    refine (removeStuckTransactions_ensures identifies exact now).mono ?_ fun _ => False.elim
    rintro done after ⟨exactAfter, left⟩
    exact ⟨exactAfter, fun row member => (List.mem_filter.mp (left.mem_iff.mp member)).1⟩
  | validate db =>
    rw [PoolOp.perform, ensures_bind]
    refine (validate_ensures identifies exact db).mono ?_ fun _ => False.elim
    rintro count after ⟨exactAfter, left⟩
    exact ⟨exactAfter, fun row member => (List.mem_filter.mp (left.mem_iff.mp member)).1⟩

/-! ## Runs -/

/-- The core calls `add_tx` for transactions that its `have_tx` does not know, and for those of
a block. -/
def PoolOp.AsCalled (env : Env) (pool : Pool) : PoolOp → Prop
  | .add _ _ _ input => input.FromCore env ∧
      (pool.haveTx input.id .legacy = false ∨ input.txRelay = .block)
  | _ => True

theorem PoolOp.AsCalled.proper (called : op.AsCalled env pool) : op.Proper env := by
  cases op with
  | add db scanTable inBatch input => exact ⟨called.1.toProper, called.1.distinct⟩
  | _ => trivial

theorem Pool.Exact.empty {good : Hash → Transaction → Prop} : empty.Exact env good :=
  { holds := .empty
    keys := List.nodup_nil
    tallies := ⟨rfl, Table.Indexes.empty.congr (by simp [Spends, Pool.empty])⟩
    sorts := .nil }

/-- What holds of the empty pool and is kept by the allowed calls holds in every run. A call
that throws has changed nothing. -/
theorem PoolRun.induct (binding : env.Binding) {motive : List PoolOp → Pool → Prop}
    (empty : motive [] .empty)
    (exact : ∀ {ops pool}, motive ops pool → pool.Exact env (Poolable env))
    (guarded : ∀ {ops pool op}, motive ops pool → allowed pool op → op.Proper env ∧
      op.Once env pool ∧ op.Undisputed pool)
    (step : ∀ {ops pool after op}, motive ops pool → allowed pool op →
      after.Exact env (Poolable env) → op.Leaves pool after → motive (op :: ops) after)
    (idle : ∀ {ops pool op}, motive ops pool → motive (op :: ops) pool)
    (run : PoolRun env allowed ops pool) : motive ops pool := by
  induction run with
  | start => exact empty
  | call run called returned ih =>
    obtain ⟨proper, once, undisputed⟩ := guarded ih called
    obtain ⟨exactAfter, leaves⟩ :=
      (PoolOp.perform_exact binding (exact ih) proper once undisputed).of_ok returned
    exact step ih called exactAfter leaves
  | thrown run called threw ih =>
    obtain ⟨proper, once, undisputed⟩ := guarded ih called
    rw [(PoolOp.perform_exact binding (exact ih) proper once undisputed).of_thrown threw]
    exact idle ih

/-- The pool after a call. -/
def PoolOp.after (env : Env) (pool : Pool) (op : PoolOp) : Pool :=
  ((op.perform env).run pool).2

theorem PoolRun.next (run : PoolRun env allowed ops pool) (called : allowed pool op)
    (returned : ((op.perform env).run pool).1 = .ok ()) :
    PoolRun env allowed (op :: ops) (op.after env pool) :=
  .call run called (Prod.ext returned rfl)

theorem PoolRun.exact (binding : env.Binding)
    (run : PoolRun env (fun pool op => op.Proper env ∧ op.Once env pool ∧ op.Undisputed pool) ops
      pool) :
    pool.Exact env (Poolable env) := by
  refine PoolRun.induct binding (motive := fun _ pool => pool.Exact env (Poolable env)) .empty
    id ?_ ?_ id run
  · exact fun _ called => called
  · intro _ _ _ _ _ _ exactAfter _
    exact exactAfter

theorem PoolRun.mono {other : Pool → PoolOp → Prop}
    (implies : ∀ pool op, allowed pool op → other pool op) (run : PoolRun env allowed ops pool) :
    PoolRun env other ops pool := by
  induction run with
  | start => exact .start
  | call run called returned ih => exact .call ih (implies _ _ called) returned
  | thrown run called threw ih => exact .thrown ih (implies _ _ called) threw

/-- The total weight is the one of the stored transactions, and the sorted container has one
entry for each of them, in every run in which the core stores no transaction twice and `init`
meets no conflict. -/
theorem PoolRun.weight_and_order {env : Env} (binding : env.Binding) {ops : List PoolOp}
    {pool : Pool}
    (run : PoolRun env (fun pool op =>
      op.AsCalled env pool ∧ op.Once env pool ∧ op.Undisputed pool) ops pool) :
    (pool.txpool.map Prod.fst).Nodup ∧
      pool.txpoolWeight = Word.wrap 64 (pool.txpool.map (·.2.details.weight)).sum ∧
      (pool.txsByFeeAndReceiveTime.map (·.id)).Perm (pool.txpool.map Prod.fst) := by
  have exact := PoolRun.exact binding (run.mono fun _ _ called => ⟨called.1.proper, called.2⟩)
  exact ⟨exact.keys, exact.tallies.weight, exact.sorts⟩

/-- A transaction is given to the pool on the chain of empty blocks, outside of a batch. -/
def arrival (tx : Transaction) (txRelay : RelayMethod) (now : Nat) : PoolOp :=
  .add (ofLedger agingEnv (spendableLedger agingEnv)) [] false
    { tx := tx
      blob := tx
      id := agingEnv.getTransactionHash tx
      txWeight := agingEnv.getTransactionWeight tx
      txRelay := txRelay
      relayed := false
      receiveTime := now
      lastRelayedTime := now
      uninit := fun _ => 0 }

variable {txRelay : RelayMethod} {now : Nat} {after : Pool}

theorem arrival_asCalled (version : tx.version = txVersion)
    (semantic : agingEnv.checkRingctSemantic tx true = true)
    (amounts : agingEnv.verifyAmounts tx (fun _ => 0) (fun _ => 0) = true)
    (unknown : pool.haveTx (agingEnv.getTransactionHash tx) .legacy = false) :
    (arrival tx txRelay now).AsCalled agingEnv pool :=
  { left :=
      { blob := rfl
        id := rfl
        weight := rfl
        version := version.le
        legacy := fun old => absurd (version.symm.trans old) (by decide)
        semantic := ⟨true, semantic⟩
        amounts := fun _ => ⟨_, _, amounts⟩ }
    right := .inl unknown }

/-- The pool with a transaction from a block. -/
def blockPool : Pool :=
  (arrival reachingTx .block 1).after agingEnv .empty

/-- The pool after the owner of another transaction has sent it. -/
def localPool : Pool :=
  (arrival distinctTx .local 2).after agingEnv blockPool

/-- The pool after that transaction has come back from the network. -/
def twicePool : Pool :=
  (arrival distinctTx .fluff 3).after agingEnv localPool

/-- The pool after the first attempt to make it smaller. -/
def prunedPool : Pool :=
  (PoolOp.prune false 50).after agingEnv twicePool

theorem arrivals_return :
    (((arrival reachingTx .block 1).perform agingEnv).run .empty).1 = .ok () ∧
      (((arrival distinctTx .local 2).perform agingEnv).run blockPool).1 = .ok () ∧
      blockPool.txpool.find firstNumber = none ∧
      (((arrival distinctTx .fluff 3).perform agingEnv).run localPool).1 = .ok () ∧
      localPool.haveTx firstNumber .legacy = false := by
  decide +kernel

theorem arrival_called (known : tx = reachingTx ∨ tx = distinctTx)
    (unknown : pool.haveTx (agingEnv.getTransactionHash tx) .legacy = false) :
    (arrival tx txRelay now).AsCalled agingEnv pool := by
  rcases known with rfl | rfl
  · exact arrival_asCalled rfl (by decide +kernel) (by decide +kernel) unknown
  · exact arrival_asCalled rfl (by decide +kernel) (by decide +kernel) unknown

theorem haveTx_of_find_eq_none {id : Hash} (missing : pool.txpool.find id = none)
    (category : RelayCategory) : pool.haveTx id category = false := by
  rw [haveTx, missing]

/-- The first two calls store nothing twice. -/
theorem localPool_run
    (allows : ∀ pool op, op.AsCalled agingEnv pool → op.Once agingEnv pool → op.Undisputed pool →
      op.KeepsRelay → allowed pool op) :
    PoolRun agingEnv allowed [arrival distinctTx .local 2, arrival reachingTx .block 1]
      localPool := by
  obtain ⟨first, second, missing, -, -⟩ := arrivals_return
  refine .next (.next .start ?_ first) ?_ second
  · exact allows _ _ (arrival_called (.inl rfl) rfl) (fun again => again.1 rfl) trivial trivial
  · exact allows _ _ (arrival_called (.inr rfl) (haveTx_of_find_eq_none missing _))
      (fun again => again.1 missing) trivial trivial

theorem twicePool_run
    (allows : ∀ pool op, op.AsCalled agingEnv pool → op.KeepsRelay → allowed pool op) :
    PoolRun agingEnv allowed
      [arrival distinctTx .fluff 3, arrival distinctTx .local 2, arrival reachingTx .block 1]
      twicePool := by
  obtain ⟨-, -, -, third, unknown⟩ := arrivals_return
  refine .next (localPool_run fun pool op called _ _ keeps => allows pool op called keeps) ?_ third
  exact allows _ _ (arrival_called (.inr rfl) unknown) trivial

theorem PoolRun.weight_and_order_local :
    localPool.txpoolWeight = Word.wrap 64 (localPool.txpool.map (·.2.details.weight)).sum ∧
      (localPool.txsByFeeAndReceiveTime.map (·.id)).Perm (localPool.txpool.map Prod.fst) :=
  (PoolRun.weight_and_order (numberedEnv_binding _ _)
    (localPool_run fun _ _ called once undisputed _ => ⟨called, once, undisputed⟩)).2

/-- The transaction comes back from the network: its weight counts twice, and it has two
entries in the sorted container. -/
theorem PoolRun.local_counted_twice :
    ∃ ops pool, PoolRun agingEnv (PoolOp.AsCalled agingEnv) ops pool ∧
      pool.txpool.map (fun row => (row.1, row.2.details.weight)) =
        [(firstNumber, 100), (firstNumber + 1, 100)] ∧
      pool.txpoolWeight = 300 ∧ pool.txsByFeeAndReceiveTime.map (·.id) =
        [firstNumber + 1, firstNumber, firstNumber] :=
  ⟨_, twicePool, twicePool_run fun _ _ called _ => called, by decide +kernel⟩

/-! ## Key images -/

/-- A call of `add_tx` in a run gave a row its transaction and its relay method. -/
def AddedBy (ops : List PoolOp) (row : Hash × PoolTx) : Prop :=
  ∃ db scanTable inBatch input, PoolOp.add db scanTable inBatch input ∈ ops ∧
    input.id = row.1 ∧ input.txRelay = row.2.details.getRelayMethod

/-- What the rows of a run without `set_relayed` keep to. -/
structure Pool.Ordered (env : Env) (ops : List PoolOp) (pool : Pool) : Prop where
  exact : pool.Exact env (Poolable env)
  relayed : OneRelayed pool.txpool
  added : ∀ row ∈ pool.txpool, AddedBy ops row

theorem AddedBy.cons {row : Hash × PoolTx} (added : AddedBy ops row) (op : PoolOp) :
    AddedBy (op :: ops) row := by
  obtain ⟨db, scanTable, inBatch, input, present, same⟩ := added
  exact ⟨db, scanTable, inBatch, input, List.mem_cons_of_mem _ present, same⟩

theorem OneRelayed.subset {rows others : Table Hash PoolTx} (relayed : OneRelayed rows)
    (kept : ∀ row ∈ others, row ∈ rows) : OneRelayed others :=
  fun first one second two => relayed first (kept first one) second (kept second two)

/-- A transaction that does not come from a block is stored only if no other one spends its
key images. -/
theorem OneRelayed.offered (relayed : OneRelayed pool.txpool) (same : input.blob = input.tx)
    (offered : pool.Offered input after) : OneRelayed after.txpool := by
  -- The new row against an old one.
  have against : ∀ {row other : Hash × PoolTx}, input.Stores pool row →
      (∃ old ∈ pool.txpool, SameRelay old other) →
      (∃ image ∈ row.2.blob.keyImages, image ∈ other.2.blob.keyImages) →
        row.2.details.txFromBlock = true := by
    rintro row other stores ⟨old, present, alike⟩ ⟨image, one, two⟩
    rw [← TxpoolTxMeta.getRelayMethod_eq_block, stores.relay]
    by_contra notBlock
    rw [stores.blob, same] at one
    exact stores.alone notBlock image one old.1 ⟨old.2, present, alike.blob ▸ two⟩
  intro first one second two different shared
  rcases offered first one with ⟨old, present, alike⟩ | stores
  · rcases offered second two with ⟨older, there, like⟩ | stores
    · rw [← TxpoolTxMeta.getRelayMethod_eq_block, ← TxpoolTxMeta.getRelayMethod_eq_block,
        ← alike.relay, ← like.relay, TxpoolTxMeta.getRelayMethod_eq_block,
        TxpoolTxMeta.getRelayMethod_eq_block]
      rw [← alike.blob, ← like.blob] at shared
      rw [← alike.id, ← like.id] at different
      exact relayed old present older there different shared
    · obtain ⟨image, inFirst, inSecond⟩ := shared
      exact .inr (against stores ⟨old, present, alike⟩ ⟨image, inSecond, inFirst⟩)
  · rcases offered second two with older | storesToo
    · exact .inl (against stores older shared)
    · exact absurd (stores.id.trans storesToo.id.symm) different

theorem Pool.Ordered.step (ordered : pool.Ordered env ops) (keeps : op.KeepsRelay)
    (proper : op.Proper env) (exactAfter : after.Exact env (Poolable env))
    (leaves : op.Leaves pool after) : after.Ordered env (op :: ops) := by
  have of_subset : (∀ row ∈ after.txpool, row ∈ pool.txpool) → after.Ordered env (op :: ops) :=
    fun kept => ⟨exactAfter, ordered.relayed.subset kept,
      fun row member => (ordered.added row (kept row member)).cons op⟩
  cases op with
  | add db scanTable inBatch input =>
    refine ⟨exactAfter, ordered.relayed.offered proper.1.blob leaves, fun row member => ?_⟩
    rcases leaves row member with ⟨old, present, alike⟩ | stores
    · obtain ⟨db, scanTable, inBatch, other, there, id, relay⟩ := ordered.added old present
      exact ⟨db, scanTable, inBatch, other, List.mem_cons_of_mem _ there, id.trans alike.id,
        relay.trans alike.relay⟩
    · exact ⟨db, scanTable, inBatch, input, List.mem_cons_self, stores.id.symm,
        stores.relay.symm⟩
  | setRelayed hashes method now => exact keeps.elim
  | _ => exact of_subset leaves

/-- The key image index is the one of the stored transactions, without empty sets, and of two
that spend the same key image at most one was added with a relay method other than `block`, in
every run in which no transaction is stored twice and each has distinct key images. -/
theorem PoolRun.key_images_indexed {env : Env} (binding : env.Binding) {ops : List PoolOp}
    {pool : Pool}
    (run : PoolRun env (fun pool op =>
      op.KeepsRelay ∧ op.Proper env ∧ op.Once env pool) ops pool) :
    (∀ image id, id ∈ pool.spenders image ↔
        ∃ row, (id, row) ∈ pool.txpool ∧ image ∈ row.blob.keyImages) ∧
      (∀ image, pool.spentOutputKeyImages.find image ≠ some []) ∧
      (∀ row ∈ pool.txpool, AddedBy ops row) ∧
      ∀ first ∈ pool.txpool, ∀ second ∈ pool.txpool, first.1 ≠ second.1 →
        (∃ image ∈ first.2.blob.keyImages, image ∈ second.2.blob.keyImages) →
          first.2.details.getRelayMethod = .block ∨ second.2.details.getRelayMethod = .block := by
  have ordered : pool.Ordered env ops := by
    refine PoolRun.induct binding (motive := fun ops pool => pool.Ordered env ops)
      ⟨.empty, by simp [OneRelayed, empty], by simp [empty]⟩ Ordered.exact ?_ ?_ ?_
      run
    · intro ops pool op ordered called
      refine ⟨called.2.1, called.2.2, ?_⟩
      cases op with
      | init => exact ordered.relayed
      | restart => exact ordered.relayed
      | _ => trivial
    · intro ops pool after op ordered called exactAfter leaves
      exact ordered.step called.1 called.2.1 exactAfter leaves
    · intro ops pool op ordered
      exact ⟨ordered.exact, ordered.relayed, fun row member => (ordered.added row member).cons op⟩
  refine ⟨ordered.exact.tallies.index.mem_members, ordered.exact.tallies.index.filled,
    ordered.added, ?_⟩
  intro first one second two different shared
  rw [TxpoolTxMeta.getRelayMethod_eq_block, TxpoolTxMeta.getRelayMethod_eq_block]
  exact ordered.relayed first one second two different shared

theorem PoolRun.key_images_indexed_local :
    (firstNumber ∈ localPool.spenders (identity + 2) ↔
        ∃ row, (firstNumber, row) ∈ localPool.txpool ∧ identity + 2 ∈ row.blob.keyImages) ∧
      localPool.spentOutputKeyImages.find (identity + 2) ≠ some [] := by
  have indexed := PoolRun.key_images_indexed (numberedEnv_binding _ _)
    (localPool_run fun _ _ called once _ keeps => ⟨keeps, called.proper, once⟩)
  exact ⟨indexed.1 _ _, indexed.2.1 _⟩

/-- `prune` removes the transaction, meets its second entry and gives up. Its row comes back
with the aborted batch, its key image does not. -/
theorem PoolRun.pruned_key_image_lost :
    ∃ ops pool, PoolRun agingEnv (fun pool op => op.AsCalled agingEnv pool ∧ op.KeepsRelay) ops
        pool ∧
      pool.haveTx firstNumber .all = true ∧
      (pool.txpool.find firstNumber).map (·.blob.keyImages) = some [identity + 2] ∧
      pool.spenders (identity + 2) = [] := by
  refine ⟨_, prunedPool, .next (twicePool_run fun _ _ called keeps => ⟨called, keeps⟩)
    ⟨trivial, trivial⟩ ?_, ?_⟩ <;> decide +kernel

end Memero
