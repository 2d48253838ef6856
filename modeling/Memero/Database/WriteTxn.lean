import Memero.Database.Write

/-!
# Write transactions

The part of `lmdb.cpp` that opens, commits and aborts write transactions. LMDB has one write
transaction at a time; `m_write_txn` points to it while it is open, and so does `m_write_batch_txn`
if a batch opened it. `pop_block` returns before it reaches its `block_wtxn_stop`, so outside a batch
it leaves its transaction open.
-/

namespace Memero

open Exec

/-- The exceptions of the write operations: `DB_ERROR`, `DB_ERROR_TXN_START`, those of the work on
the tables, and a use of a null `m_write_txn`. -/
inductive WriteExn where
  | dbError
  | txnStart
  | tables (exception : Exn)
  | undefined
  deriving DecidableEq

/-- The members of `BlockchainLMDB` that the write operations use. -/
structure Lmdb where
  /-- What the environment holds. -/
  committed : ChainTables
  /-- What the open write transaction sees. -/
  txn : Option ChainTables
  /-- `m_write_txn` is not null. -/
  writeTxn : Bool
  /-- `m_write_batch_txn` is not null. -/
  writeBatchTxn : Bool
  batchActive : Bool
  batchTransactions : Bool
  writer : Nat
  deriving DecidableEq

/-- Computations over the write state. -/
abbrev LmdbM : Type → Type :=
  Exec Lmdb WriteExn

namespace Lmdb

/-- `lmdb_txn_begin`. -/
def beginTxn (state : Lmdb) : Lmdb :=
  { state with txn := some state.committed, writeTxn := true }

/-- `mdb_txn_commit` of the open transaction. -/
def commit (state : Lmdb) : Lmdb :=
  { state with committed := state.txn.getD state.committed, txn := none }

/-- The transaction is deleted, which aborts it if it is still open. -/
def deleteTxn (state : Lmdb) : Lmdb :=
  { state with txn := none, writeTxn := false }

/-- `cleanup_batch`. -/
def cleanupBatch (state : Lmdb) : Lmdb :=
  { state.deleteTxn with writeBatchTxn := false, batchActive := false }

/-- What `batch_stop` and `batch_abort` ask first. -/
def batchInProgress (state : Lmdb) (thread : Nat) : Bool :=
  state.batchTransactions && state.batchActive && state.writeBatchTxn && state.writer == thread

end Lmdb

/-! ## The operations

`works` is whether LMDB carries out what the operation asks of it. -/

/-- `batch_start`: whether a batch was started. -/
def lmdbBatchStart (thread : Nat) (works : Bool) : LmdbM Bool := do
  let state ← Exec.get
  if !state.batchTransactions then
    Exec.throw .dbError
  else if state.batchActive then
    return false
  else if state.writeBatchTxn then
    return false
  else if state.writeTxn then
    Exec.throw .dbError
  else
    Exec.modify fun state => { state with writer := thread }
    if works then
      Exec.modify fun state =>
        { state.beginTxn with writeBatchTxn := true, batchActive := true }
      return true
    else
      Exec.throw .dbError

/-- `batch_stop`. -/
def lmdbBatchStop (thread : Nat) (works : Bool) : LmdbM Unit := do
  let state ← Exec.get
  if !state.batchInProgress thread then
    Exec.throw .dbError
  else if works then
    Exec.modify fun state => state.commit.cleanupBatch
  else
    Exec.modify Lmdb.cleanupBatch
    Exec.throw .dbError

/-- `batch_abort`. -/
def lmdbBatchAbort (thread : Nat) : LmdbM Unit := do
  let state ← Exec.get
  if !state.batchInProgress thread then
    Exec.throw .dbError
  else
    Exec.modify Lmdb.cleanupBatch

/-- `block_wtxn_start`. -/
def blockWtxnStart (thread : Nat) (works : Bool) : LmdbM Unit := do
  let state ← Exec.get
  if !state.batchActive && state.writeTxn then
    Exec.throw .txnStart
  else if !state.batchActive then
    Exec.modify fun state => { state with writer := thread }
    if works then
      Exec.modify Lmdb.beginTxn
    else
      Exec.throw .txnStart
  else if state.writer ≠ thread then
    Exec.throw .txnStart
  else
    return ()

/-- `block_wtxn_stop`. A commit that fails leaves `m_write_txn` as it is. -/
def blockWtxnStop (thread : Nat) (works : Bool) : LmdbM Unit := do
  let state ← Exec.get
  if !state.writeTxn then
    Exec.throw .txnStart
  else if state.writer ≠ thread then
    Exec.throw .txnStart
  else if !state.batchActive then
    if works then
      Exec.modify fun state => state.commit.deleteTxn
    else
      Exec.modify fun state => { state with txn := none }
      Exec.throw .dbError
  else
    return ()

/-- `block_wtxn_abort`. -/
def blockWtxnAbort (thread : Nat) : LmdbM Unit := do
  let state ← Exec.get
  if !state.writeTxn then
    Exec.throw .txnStart
  else if state.writer ≠ thread then
    Exec.throw .txnStart
  else if !state.batchActive then
    Exec.modify Lmdb.deleteTxn
  else
    return ()

/-- Work on the tables through `m_write_txn`. -/
def onWriteTxn {α : Type} (body : ChainM α) : LmdbM α :=
  ⟨fun state =>
    match state.writeTxn, state.txn with
    | true, some tables =>
      match body.run tables with
      | (.ok value, after) => (.ok value, { state with txn := some after })
      | (.thrown exception, after) =>
        (.thrown (.tables exception), { state with txn := some after })
      | (.exhausted, after) => (.exhausted, { state with txn := some after })
    | _, _ => (.thrown .undefined, state)⟩

/-- What `add_block` is called with. -/
structure NewBlock where
  block : Block
  weight : Nat
  longTermBlockWeight : Nat
  cumulativeDifficulty : Nat
  coinsGenerated : Nat
  txs : List (Transaction × Transaction)

/-- `BlockchainDB::add_block` for the arguments of a call. -/
def NewBlock.add (env : Env) (new : NewBlock) : ChainM Unit :=
  addBlock env new.block new.weight new.longTermBlockWeight new.cumulativeDifficulty
    new.coinsGenerated new.txs

/-- `BlockchainLMDB::add_block`. -/
def lmdbAddBlock (env : Env) (new : NewBlock) : LmdbM Unit :=
  onWriteTxn (new.add env)

/-- `BlockchainLMDB::pop_block`. Its `block_wtxn_stop` comes after the return. -/
def lmdbPopBlock (env : Env) (thread : Nat) (works : Bool) : LmdbM (Block × List Transaction) := do
  blockWtxnStart thread works
  Exec.tryCatch (onWriteTxn (popBlock env)) fun exception => do
    blockWtxnAbort thread
    Exec.throw exception

/-! ## Calls -/

/-- The public write operations. -/
inductive WriteOp where
  | batchStart
  | batchStop
  | batchAbort
  | wtxnStart
  | wtxnStop
  | wtxnAbort
  | addBlock (new : NewBlock)
  | popBlock

/-- An operation with the thread that calls it and what LMDB answers. -/
structure WriteCall where
  op : WriteOp
  thread : Nat
  works : Bool

/-- What a call does. -/
def WriteCall.perform (env : Env) (call : WriteCall) : LmdbM Unit :=
  match call.op with
  | .batchStart => do
      let _ ← lmdbBatchStart call.thread call.works
      return ()
  | .batchStop => lmdbBatchStop call.thread call.works
  | .batchAbort => lmdbBatchAbort call.thread
  | .wtxnStart => blockWtxnStart call.thread call.works
  | .wtxnStop => blockWtxnStop call.thread call.works
  | .wtxnAbort => blockWtxnAbort call.thread
  | .addBlock new => lmdbAddBlock env new
  | .popBlock => do
      let _ ← lmdbPopBlock env call.thread call.works
      return ()

/-! ## What the operations are for -/

/-- The tables with the effect of every completed operation, and those to go back to when the batch,
or a bracket outside a batch, is aborted. -/
structure Intended where
  current : ChainTables
  saved : ChainTables
  batch : Bool
  brackets : Nat

namespace Intended

/-- What is meant by an operation. A bracket inside a batch goes with the batch. -/
def next (env : Env) (intended : Intended) : WriteOp → Intended
  | .batchStart =>
    if intended.batch then intended
    else { intended with batch := true, saved := intended.current }
  | .batchStop => { intended with batch := false }
  | .batchAbort => { intended with batch := false, current := intended.saved }
  | .wtxnStart =>
    { intended with
      brackets := intended.brackets + 1
      saved := if intended.batch then intended.saved else intended.current }
  | .wtxnStop => { intended with brackets := intended.brackets - 1 }
  | .wtxnAbort =>
    { intended with
      brackets := intended.brackets - 1
      current := if intended.batch then intended.current else intended.saved }
  | .addBlock new => { intended with current := ((new.add env).run intended.current).2 }
  | .popBlock => { intended with current := ((Memero.popBlock env).run intended.current).2 }

/-- Brackets match, a batch ends outside brackets and blocks are added inside one. -/
def Enabled (intended : Intended) : WriteOp → Prop
  | .batchStop => intended.brackets = 0
  | .batchAbort => intended.brackets = 0
  | .wtxnStop => 0 < intended.brackets
  | .wtxnAbort => 0 < intended.brackets
  | .addBlock _ => 0 < intended.brackets
  | _ => True

end Intended

/-- When no batch is active and no bracket is open, no transaction is open and everything is
committed. -/
def Settled (state : Lmdb) (intended : Intended) : Prop :=
  state.batchActive = false → intended.brackets = 0 →
    state.writeTxn = false ∧ state.writeBatchTxn = false ∧ state.txn = none ∧
      state.committed = intended.current

/-- A point of a run: the states before a call, and the call. -/
structure WritePoint where
  state : Lmdb
  intended : Intended
  call : WriteCall

/-- The write state of an opened database. -/
def Lmdb.opened (tables : ChainTables) (batchTransactions : Bool) : Lmdb where
  committed := tables
  txn := none
  writeTxn := false
  writeBatchTxn := false
  batchActive := false
  batchTransactions := batchTransactions
  writer := 0

/-- Nothing was done yet. -/
def Intended.opened (tables : ChainTables) : Intended where
  current := tables
  saved := tables
  batch := false
  brackets := 0

/-- Runs of successful calls on an opened database, with the points they have passed. -/
inductive WriteRun (env : Env) (tables : ChainTables) :
    List WritePoint → Lmdb → Intended → Prop where
  | opened (batchTransactions : Bool) :
      WriteRun env tables [] (.opened tables batchTransactions) (.opened tables)
  | call {points : List WritePoint} {state after : Lmdb} {intended : Intended} {call : WriteCall}
      (run : WriteRun env tables points state intended) (enabled : intended.Enabled call.op)
      (ran : (call.perform env).run state = (.ok (), after)) :
      WriteRun env tables (points ++ [⟨state, intended, call⟩]) after (intended.next env call.op)

/-! ## The states of a run -/

/-- The three states that are meant: nothing open, a bracket of its own, and a batch. -/
inductive Linked : Lmdb → Intended → Prop where
  | quiet (tables saved : ChainTables) (enabled : Bool) (writer : Nat) :
      Linked ⟨tables, none, false, false, false, enabled, writer⟩ ⟨tables, saved, false, 0⟩
  | bracket (tables saved : ChainTables) (enabled : Bool) (writer : Nat) :
      Linked ⟨saved, some tables, true, false, false, enabled, writer⟩ ⟨tables, saved, false, 1⟩
  | batch (tables saved : ChainTables) (enabled : Bool) (writer brackets : Nat) :
      Linked ⟨saved, some tables, true, true, true, enabled, writer⟩ ⟨tables, saved, true, brackets⟩

theorem Linked.settled {state : Lmdb} {intended : Intended} (linked : Linked state intended) :
    Settled state intended := by
  intro inactive closed
  cases linked with
  | quiet => exact ⟨rfl, rfl, rfl, rfl⟩
  | bracket => cases closed
  | batch => cases inactive

/-- Work that succeeds on the tables of the transaction. -/
theorem onWriteTxn_eq_ok {α : Type} {body : ChainM α} {state after : Lmdb} {value : α} :
    (onWriteTxn body).run state = (.ok value, after) ↔
      state.writeTxn = true ∧ ∃ tables, state.txn = some tables ∧
        (body.run tables).1 = .ok value ∧
        after = { state with txn := some (body.run tables).2 } := by
  obtain ⟨committed, txn, writeTxn, writeBatchTxn, batchActive, batchTransactions, writer⟩ := state
  unfold onWriteTxn
  cases writeTxn with
  | false => simp
  | true =>
    cases txn with
    | none => simp
    | some tables =>
      rcases ran : body.run tables with ⟨outcome, final⟩
      cases outcome <;> simp [ran, eq_comm]

section Steps

variable {env : Env} {state after : Lmdb} {intended : Intended} {thread : Nat} {works : Bool}

section

variable (linked : Linked state intended)
include linked

theorem Linked.batchStart {started : Bool}
    (ran : (lmdbBatchStart thread works).run state = (.ok started, after)) :
    Linked after (intended.next env .batchStart) := by
  cases linked with
  | quiet tables saved enabled writer =>
    cases enabled <;> cases works <;> simp [lmdbBatchStart] at ran
    rw [← ran.2]
    exact .batch tables tables true thread 0
  | bracket tables saved enabled writer => cases enabled <;> simp [lmdbBatchStart] at ran
  | batch tables saved enabled writer brackets =>
    cases enabled <;> simp [lmdbBatchStart] at ran
    rw [← ran.2]
    exact .batch tables saved true writer brackets

theorem Linked.batchStop (closed : intended.brackets = 0)
    (ran : (lmdbBatchStop thread works).run state = (.ok (), after)) :
    Linked after (intended.next env .batchStop) := by
  cases linked with
  | quiet tables saved enabled writer =>
    simp [lmdbBatchStop, Lmdb.batchInProgress] at ran
  | bracket tables saved enabled writer => cases closed
  | batch tables saved enabled writer brackets =>
    cases closed
    unfold lmdbBatchStop at ran
    by_cases progress : Lmdb.batchInProgress ⟨saved, some tables, true, true, true, enabled, writer⟩
      thread = true
    · cases works <;> simp [progress] at ran
      rw [← ran]
      exact .quiet tables saved enabled writer
    · simp [progress] at ran

theorem Linked.batchAbort (closed : intended.brackets = 0)
    (ran : (lmdbBatchAbort thread).run state = (.ok (), after)) :
    Linked after (intended.next env .batchAbort) := by
  cases linked with
  | quiet tables saved enabled writer =>
    simp [lmdbBatchAbort, Lmdb.batchInProgress] at ran
  | bracket tables saved enabled writer => cases closed
  | batch tables saved enabled writer brackets =>
    cases closed
    unfold lmdbBatchAbort at ran
    by_cases progress : Lmdb.batchInProgress ⟨saved, some tables, true, true, true, enabled, writer⟩
      thread = true
    · simp [progress] at ran
      rw [← ran]
      exact .quiet saved saved enabled writer
    · simp [progress] at ran

theorem Linked.wtxnStart (ran : (blockWtxnStart thread works).run state = (.ok (), after)) :
    Linked after (intended.next env .wtxnStart) := by
  cases linked with
  | quiet tables saved enabled writer =>
    cases works <;> simp [blockWtxnStart] at ran
    rw [← ran]
    exact .bracket tables tables enabled thread
  | bracket tables saved enabled writer => simp [blockWtxnStart] at ran
  | batch tables saved enabled writer brackets =>
    by_cases owned : writer = thread <;> simp [blockWtxnStart, owned] at ran
    rw [← ran]
    exact .batch tables saved enabled thread (brackets + 1)

theorem Linked.wtxnStop (opened : 0 < intended.brackets)
    (ran : (blockWtxnStop thread works).run state = (.ok (), after)) :
    Linked after (intended.next env .wtxnStop) := by
  cases linked with
  | quiet tables saved enabled writer => cases opened
  | bracket tables saved enabled writer =>
    by_cases owned : writer = thread <;> cases works <;>
      simp [blockWtxnStop, owned] at ran
    rw [← ran]
    exact .quiet tables saved enabled thread
  | batch tables saved enabled writer brackets =>
    by_cases owned : writer = thread <;> simp [blockWtxnStop, owned] at ran
    rw [← ran]
    exact .batch tables saved enabled thread (brackets - 1)

theorem Linked.wtxnAbort (opened : 0 < intended.brackets)
    (ran : (blockWtxnAbort thread).run state = (.ok (), after)) :
    Linked after (intended.next env .wtxnAbort) := by
  cases linked with
  | quiet tables saved enabled writer => cases opened
  | bracket tables saved enabled writer =>
    by_cases owned : writer = thread <;> simp [blockWtxnAbort, owned] at ran
    rw [← ran]
    exact .quiet saved saved enabled thread
  | batch tables saved enabled writer brackets =>
    by_cases owned : writer = thread <;> simp [blockWtxnAbort, owned] at ran
    rw [← ran]
    exact .batch tables saved enabled thread (brackets - 1)

theorem Linked.addBlock {new : NewBlock}
    (ran : (lmdbAddBlock env new).run state = (.ok (), after)) :
    Linked after (intended.next env (.addBlock new)) := by
  obtain ⟨-, tables, seen, -, rfl⟩ := onWriteTxn_eq_ok.mp ran
  cases linked with
  | quiet => cases seen
  | bracket current saved enabled writer =>
    cases seen
    exact .bracket _ saved enabled writer
  | batch current saved enabled writer brackets =>
    cases seen
    exact .batch _ saved enabled writer brackets

end

variable {popped : Block × List Transaction}

/-- A pop that succeeds: the transaction it works in, and no end of it. -/
theorem lmdbPopBlock_eq_ok (ran : (lmdbPopBlock env thread works).run state = (.ok popped, after)) :
    ∃ middle tables, (blockWtxnStart thread works).run state = (.ok (), middle) ∧
      middle.txn = some tables ∧
      after = { middle with txn := some ((Memero.popBlock env).run tables).2 } := by
  obtain ⟨_, middle, started, ran⟩ := bind_eq_ok.mp ran
  rw [tryCatch_run] at ran
  rcases work : (onWriteTxn (Memero.popBlock env)).run middle with ⟨outcome, final⟩
  rw [work] at ran
  cases outcome with
  | ok value =>
    cases ran
    obtain ⟨-, tables, seen, -, same⟩ := onWriteTxn_eq_ok.mp work
    exact ⟨middle, tables, started, seen, same⟩
  | thrown exception =>
    obtain ⟨_, _, -, thrown⟩ := bind_eq_ok.mp ran
    cases thrown
  | exhausted => cases ran

variable (linked : Linked state intended)
include linked

theorem Linked.popBlock (active : state.batchActive = true)
    (ran : (lmdbPopBlock env thread works).run state = (.ok popped, after)) :
    Linked after (intended.next env .popBlock) := by
  obtain ⟨middle, tables, started, seen, rfl⟩ := lmdbPopBlock_eq_ok ran
  cases linked with
  | quiet => cases active
  | bracket => cases active
  | batch current saved enabled writer brackets =>
    by_cases owned : writer = thread <;> simp [blockWtxnStart, owned] at started
    rw [← started] at seen ⊢
    cases seen
    exact .batch _ saved enabled thread brackets

/-- Outside a batch a pop leaves its transaction open. -/
theorem Linked.not_settled_of_popBlock (inactive : state.batchActive = false)
    (ran : (lmdbPopBlock env thread works).run state = (.ok popped, after)) :
    ¬ Settled after (intended.next env .popBlock) := by
  obtain ⟨middle, tables, started, seen, rfl⟩ := lmdbPopBlock_eq_ok ran
  cases linked with
  | quiet tables saved enabled writer =>
    cases works <;> simp [blockWtxnStart] at started
    rw [← started]
    intro settled
    cases (settled rfl rfl).1
  | bracket => simp [blockWtxnStart] at started
  | batch => cases inactive

/-- A call that succeeds, other than a pop outside a batch, keeps to the three states. -/
theorem Linked.perform {call : WriteCall} (enabled : intended.Enabled call.op)
    (inBatch : call.op = .popBlock → state.batchActive = true)
    (ran : (call.perform env).run state = (.ok (), after)) :
    Linked after (intended.next env call.op) := by
  obtain ⟨op, thread, works⟩ := call
  cases op with
  | batchStart =>
    obtain ⟨started, _, ran, same⟩ := bind_eq_ok.mp ran
    cases same
    exact linked.batchStart ran
  | batchStop => exact linked.batchStop enabled ran
  | batchAbort => exact linked.batchAbort enabled ran
  | wtxnStart => exact linked.wtxnStart ran
  | wtxnStop => exact linked.wtxnStop enabled ran
  | wtxnAbort => exact linked.wtxnAbort enabled ran
  | addBlock new => exact linked.addBlock ran
  | popBlock =>
    obtain ⟨popped, _, ran, same⟩ := bind_eq_ok.mp ran
    cases same
    exact linked.popBlock (inBatch rfl) ran

end Steps

end Memero
