import Memero.Blockchain.AltChain
import Memero.Database.Write
import Memero.Pool.Transactions

/-!
# The state of the node

The tables of the database, the pool, and the members of `Blockchain` that its functions
read and write. A batch is a write transaction of the database: its start is kept as a
snapshot, which an abort puts back. The members of the pool are not part of the database
and survive an abort.
-/

namespace Memero

/-- The tables of the database. -/
structure Database where
  chain : ChainTables
  altBlocks : AltBlocks
  txpool : Table Hash PoolTx
  deriving DecidableEq, Repr

/-- `block_verification_context`. -/
structure BlockVerificationContext where
  addedToMainChain : Bool
  verifivationFailed : Bool
  markedAsOrphaned : Bool
  alreadyExists : Bool
  badPow : Bool
  deriving DecidableEq, Repr

/-- A new `block_verification_context`. -/
def BlockVerificationContext.empty : BlockVerificationContext :=
  { addedToMainChain := false
    verifivationFailed := false
    markedAsOrphaned := false
    alreadyExists := false
    badPow := false }

/-- The state of the node. `bvc` is the context of the call in progress, `batch` the tables
at the start of the active batch, `ticks` and `checks` count the readings of the clock and
the verifications so far. -/
structure Node where
  chain : ChainTables
  altBlocks : AltBlocks
  pool : Pool
  batch : Option Database
  batchSuccess : Bool
  invalidBlocks : Table Hash BlockExtendedInfo
  blocksLonghashTable : Table Hash Hash
  scanTable : ScanTable
  badSemanticsTxes : List Hash × List Hash
  bvc : BlockVerificationContext
  ticks : Nat
  checks : Nat
  deriving DecidableEq, Repr

/-- Computations over the node. -/
abbrev NodeM : Type → Type :=
  Exec Node Exn

namespace Node

/-- The tables as the active batch, if any, sees them. -/
def database (node : Node) : Database :=
  { chain := node.chain, altBlocks := node.altBlocks, txpool := node.pool.txpool }

/-- The node with other tables. -/
def restore (node : Node) (tables : Database) : Node :=
  { node with
    chain := tables.chain
    altBlocks := tables.altBlocks
    pool := { node.pool with txpool := tables.txpool } }

end Node

/-! ## Parts of the state -/

/-- A computation on the chain tables. -/
def onChain {α : Type} (body : ChainM α) : NodeM α :=
  Exec.zoom (·.chain) (fun chain node => { node with chain := chain }) body

/-- A computation on the pool. -/
def onPool {α : Type} (body : PoolM α) : NodeM α :=
  Exec.zoom (·.pool) (fun pool node => { node with pool := pool }) body

/-- `time(NULL)`. -/
def tick (env : Env) : NodeM Nat := do
  let node ← Exec.get
  Exec.modify fun node => { node with ticks := node.ticks + 1 }
  return env.clock node.ticks

/-- The uninitialised memory of the next verification. -/
def nextMemory (env : Env) : NodeM Uninit := do
  let node ← Exec.get
  Exec.modify fun node => { node with checks := node.checks + 1 }
  return env.memory node.checks

/-- Set flags of the current context. -/
def updateBvc (change : BlockVerificationContext → BlockVerificationContext) : NodeM Unit :=
  Exec.modify fun node => { node with bvc := change node.bvc }

/-- `bvc.m_verifivation_failed = true; return false`. -/
def failBlock : NodeM Bool := do
  updateBvc fun bvc => { bvc with verifivationFailed := true }
  return false

/-- Run a computation with a context of its own and return it with the result. -/
def withLocalBvc {α : Type} (body : NodeM α) : NodeM (α × BlockVerificationContext) := do
  let before ← Exec.get
  let leave : NodeM Unit := updateBvc fun _ => before.bvc
  updateBvc fun _ => .empty
  let result ← Exec.tryCatch body fun exception => do
    leave
    Exec.throw exception
  let after ← Exec.get
  leave
  return (result, after.bvc)

/-! ## Batches -/

/-- `batch_start`: whether a batch was started. -/
def batchStart : NodeM Bool := do
  let node ← Exec.get
  if node.batch.isSome then
    return false
  else
    Exec.modify fun node => { node with batch := some node.database }
    return true

/-- `batch_stop`. -/
def batchStop : NodeM Unit := do
  let node ← Exec.get
  if node.batch.isNone then
    Exec.throw .dbError
  else
    Exec.modify fun node => { node with batch := none }

/-- `batch_abort`. -/
def batchAbort : NodeM Unit := do
  let node ← Exec.get
  match node.batch with
  | none => Exec.throw .dbError
  | some tables => Exec.modify fun node => { node.restore tables with batch := none }

end Memero
