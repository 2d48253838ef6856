import Memero.Database.WriteTxn
import Memero.Node.Run

/-!
# Runs of write operations

A run of successful write operations settles whenever no batch is active and no bracket is open,
exactly when it pops blocks inside batches only.
-/

namespace Memero

open List

variable {env : Env} {tables : ChainTables} {points : List WritePoint} {state : Lmdb}
  {intended : Intended}

/-- Every pop of a run is inside a batch. -/
def PopsInBatch (points : List WritePoint) : Prop :=
  ∀ point ∈ points, point.call.op = .popBlock → point.state.batchActive = true

/-- The states of a run are settled before every call and after the last one. -/
def SettledThroughout (points : List WritePoint) (state : Lmdb) (intended : Intended) : Prop :=
  (∀ point ∈ points, Settled point.state point.intended) ∧ Settled state intended

/-- A run that pops inside batches keeps to the three states. -/
theorem WriteRun.linked (run : WriteRun env tables points state intended)
    (pops : PopsInBatch points) :
    (∀ point ∈ points, Linked point.state point.intended) ∧ Linked state intended := by
  induction run with
  | opened batchTransactions => exact ⟨by simp, .quiet tables tables batchTransactions 0⟩
  | @call points state after intended call run enabled ran ih =>
    obtain ⟨before, linked⟩ := ih fun point member => pops point (mem_append_left _ member)
    have inBatch := pops ⟨state, intended, call⟩ (mem_append_right _ mem_cons_self)
    refine ⟨?_, linked.perform enabled inBatch ran⟩
    intro point member
    rcases mem_append.mp member with old | new
    · exact before point old
    · rw [mem_singleton.mp new]
      exact linked

/-- A run is settled throughout exactly when it pops blocks inside batches only. -/
theorem WriteRun.settled_iff (run : WriteRun env tables points state intended) :
    SettledThroughout points state intended ↔ PopsInBatch points := by
  constructor
  · intro settled
    induction run with
    | opened batchTransactions => exact fun _ member => by cases member
    | @call points state after intended call run enabled ran ih =>
      obtain ⟨before, last⟩ := settled
      have here := before ⟨state, intended, call⟩ (mem_append_right _ mem_cons_self)
      have pops := ih ⟨fun point member => before point (mem_append_left _ member), here⟩
      have linked := (run.linked pops).2
      intro point member isPop
      rcases mem_append.mp member with old | new
      · exact pops point old isPop
      · cases mem_singleton.mp new
        -- the last pop is inside a batch, since otherwise it would leave its transaction open
        obtain ⟨op, thread, works⟩ := call
        cases isPop
        obtain ⟨popped, _, popped_ok, same⟩ := Exec.bind_eq_ok.mp ran
        cases same
        by_contra outside
        exact linked.not_settled_of_popBlock (Bool.not_eq_true _ ▸ outside) popped_ok last
  · intro pops
    obtain ⟨before, linked⟩ := run.linked pops
    exact ⟨fun point member => (before point member).settled, linked.settled⟩

/-- The state a call leaves. -/
def WriteCall.after (env : Env) (call : WriteCall) (state : Lmdb) : Lmdb :=
  ((call.perform env).run state).2

/-- A call that succeeds continues a run. -/
theorem WriteRun.next (run : WriteRun env tables points state intended) (call : WriteCall)
    (enabled : intended.Enabled call.op) (returned : ((call.perform env).run state).1 = .ok ()) :
    WriteRun env tables (points ++ [⟨state, intended, call⟩]) (call.after env state)
      (intended.next env call.op) :=
  .call run enabled (Prod.ext returned rfl)

/-- The tables of a new chain. -/
def genesisTables : ChainTables :=
  ChainTables.ofLedger plainEnv [genesisEntry plainEnv mainnet]

/-- The genesis block is popped in a batch. -/
theorem WriteRun.settled_in_batch :
    ∃ points state intended, WriteRun plainEnv genesisTables points state intended ∧
      points.length = 3 ∧ (SettledThroughout points state intended ↔ PopsInBatch points) := by
  have opened : WriteRun plainEnv genesisTables [] _ _ := .opened true
  have started := opened.next ⟨.batchStart, 0, true⟩ trivial (by decide +kernel)
  have popped := started.next ⟨.popBlock, 0, true⟩ trivial (by decide +kernel)
  have stopped := popped.next ⟨.batchStop, 0, true⟩ rfl (by decide +kernel)
  exact ⟨_, _, _, stopped, rfl, stopped.settled_iff⟩

/-- The genesis block is popped outside a batch: the transaction stays open and the pop is not
committed. -/
theorem WriteRun.pop_left_open :
    ∃ points state intended, WriteRun plainEnv genesisTables points state intended ∧
      state.batchActive = false ∧ intended.brackets = 0 ∧ state.writeTxn = true ∧
      state.committed ≠ intended.current := by
  have opened : WriteRun plainEnv genesisTables [] _ _ := .opened true
  have popped := opened.next ⟨.popBlock, 0, true⟩ trivial (by decide +kernel)
  exact ⟨_, _, _, popped, by decide +kernel, rfl, by decide +kernel, by decide +kernel⟩

end Memero
