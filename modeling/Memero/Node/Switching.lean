import Memero.Node.Invariant

/-!
# Pops and reorganisations keep the invariant

Popping a block of a valid ledger gives the ledger below it, and the functions that switch
between chains only pop and add blocks. So does what they do when they fail part way.
-/

namespace Memero

open ChainTables

open Exec

open ChainTables (ofLedger)
open Node (Beside)

section Switching

variable {env : Env} {extra : Transaction → Prop} {network : Network} {live : Bool → Prop}
  {batch : Option Database}

/-! ## Popping -/

variable {below : Ledger} {entry : Entry} {before : Node}

theorem Accepted.minerRegular (accepted : Accepted env extra below entry) :
    Regular entry.block.minerTx := by
  obtain ⟨version, height, inputs⟩ := accepted.minerCoinbase
  simp [Regular, version, txVersion, Transaction.isCoinbase,
    Transaction.hasGenInput, inputs, TxIn.keyImage?]

/-- `pop_block` on a ledger with an accepted top. -/
theorem Accepted.popBlock_run (accepted : Accepted env extra below entry) :
    (popBlock env).run (ofLedger env (below ++ [entry])) =
      (.ok (entry.block, entry.txs.reverse), ofLedger env below) := by
  rw [ofLedger_append]
  exact popBlock_pushBlock (ofLedger_aligned env below)
    accepted.fresh.sizes accepted.minerRegular
    fun tx member => (accepted.txs tx member).admitted.regular

/-- The chain tables hold a valid ledger. -/
def Held (env : Env) (extra : Transaction → Prop) (network : Network) (chain : ChainTables) :
    Prop :=
  ∃ ledger, Valid env extra network ledger ∧ chain = ofLedger env ledger

theorem Held.popBlock_ensures {chain : ChainTables} (held : Held env extra network chain)
    (more : 1 < chain.height) :
    (popBlock env).Ensures chain (fun _ => Held env extra network) fun _ => False := by
  obtain ⟨ledger, valid, rfl⟩ := held
  rw [ofLedger_height] at more
  obtain ⟨below, entry, rfl, valid, accepted⟩ := valid.top more
  unfold Ensures
  rw [accepted.popBlock_run]
  exact ⟨below, valid, rfl⟩

theorem returnPopped_ensures {node : Node} (kept : Beside env extra before node)
    (aligned : before.chain.Aligned) {txs : List Transaction}
    (recorded : ∀ tx ∈ txs, Recorded env extra tx) :
    (returnPopped env txs).Ensures node (fun _ => Beside env extra before) fun _ => False := by
  induction txs generalizing node with
  | nil => exact kept
  | cons tx rest ih =>
    have others : ∀ other ∈ rest, Recorded env extra other :=
      fun other member => recorded other (List.mem_cons_of_mem _ member)
    simp only [returnPopped, forEach, ensures_bind, ensures_ite]
    refine ⟨fun _ => ih kept others, fun spends => ?_⟩
    rcases recorded tx (by simp) with miner | admitted
    · exact absurd miner spends
    · exact (poolAddTx_ensures kept aligned (fun _ _ => ⟨rfl, admitted⟩) admitted.typed).mono
        (fun _ _ next => ih next others) fun _ => id

/-- A pop keeps the invariant and clears the table of outputs, or throws and leaves it. -/
theorem popBlockFromBlockchain_ensures (inv : before.Inv env extra network live batch) :
    (popBlockFromBlockchain env).Ensures before
      (fun _ after => after.Inv env extra network live batch ∧ after.scanTable = [])
      fun after => after.Inv env extra network live batch ∧ after.scanTable = before.scanTable := by
  unfold popBlockFromBlockchain
  rw [ensures_get_bind, ensures_ite]
  refine ⟨fun _ => ⟨inv, rfl⟩, fun more => ?_⟩
  have tall : 1 < before.chain.height := Nat.lt_of_not_le more
  have recorded := popBlock_ensures env
    (⟨inv.chain.stored, tall, inv.chain.aligned⟩ :
      before.chain.Keeping (Recorded env extra) (1 + 1))
  have held : (popBlock env).Ensures before.chain
      (fun _ after => live before.batchSuccess → Held env extra network after)
      fun _ => ¬ live before.batchSuccess := by
    by_cases alive : live before.batchSuccess
    · obtain ⟨ledger, valid, holds, -⟩ := inv.sound alive
      have held : Held env extra network before.chain := ⟨ledger, valid, holds⟩
      exact (held.popBlock_ensures tall).mono (fun _ _ held _ => held) fun _ => False.elim
    · exact .intro (fun _ _ _ isAlive => absurd isAlive alive) fun _ _ _ => alive
  rw [ensures_bind, onChain, ensures_zoom]
  refine (recorded.and held).mono ?_ ?_
  · rintro popped chain ⟨⟨keeping, returned⟩, held⟩
    have start : Beside env extra { before with chain := chain } { before with chain := chain } :=
      ⟨inv.pool, rfl, rfl, rfl, rfl, rfl, rfl⟩
    rw [ensures_bind]
    refine (returnPopped_ensures start keeping.aligned returned).mono ?_ fun _ => False.elim
    intro done node kept
    rw [ensures_modify_bind, ensures_bind, onPool, ensures_zoom]
    refine (onBlockchainChange_maintains _ kept.pool).mono ?_ fun _ => False.elim
    intro changed pool holds
    refine ⟨⟨holds, ?_, by simp, ?_, kept.batch.trans inv.batch⟩, rfl⟩
    · change node.chain.Keeping _ _
      rw [kept.chain]
      exact keeping
    · intro alive
      obtain ⟨ledger, valid, same⟩ := held (kept.batchSuccess ▸ alive)
      exact ⟨ledger, valid, kept.chain.trans same, Agrees.nil⟩
  · rintro chain ⟨keeping, notLive⟩
    exact ⟨⟨inv.pool, keeping, inv.longhash, fun alive => absurd alive notLive, inv.batch⟩, rfl⟩

theorem popBlockFromBlockchain_keeps :
    Keeps (Node.Inv env extra network live batch) (popBlockFromBlockchain env) :=
  fun _ inv => (popBlockFromBlockchain_ensures inv).mono (fun _ _ => And.left) fun _ => And.left

theorem popUntilTop_keeps (target : Hash) (fuel : Nat) (disconnected : List Block) :
    Keeps (Node.Inv env extra network live batch) (popUntilTop env target fuel disconnected) := by
  induction fuel generalizing disconnected with
  | zero => exact .exhaust
  | succ fuel ih =>
    refine (Keeps.reads _).bind fun topHash => .ite (fun _ => .pure _) fun _ => ?_
    exact popBlockFromBlockchain_keeps.bind fun popped => ih _

theorem popUntilHeight_keeps (height fuel : Nat) :
    Keeps (Node.Inv env extra network live batch) (popUntilHeight env height fuel) := by
  induction fuel with
  | zero => exact .exhaust
  | succ fuel ih =>
    refine Keeps.get.bind fun node => .ite (fun _ => .pure _) fun _ => ?_
    exact popBlockFromBlockchain_keeps.bind fun popped => ih

/-! ## Changes the invariant does not see -/

theorem updateBvc_keeps (change : BlockVerificationContext → BlockVerificationContext) :
    Keeps (Node.Inv env extra network live batch) (updateBvc change) :=
  fun _ inv => { inv with }

theorem failBlock_keeps : Keeps (Node.Inv env extra network live batch) failBlock :=
  (updateBvc_keeps _).bind fun _ => .pure _

theorem setAltBlocks_keeps (change : AltBlocks → AltBlocks) :
    Keeps (Node.Inv env extra network live batch)
      (modify fun node => { node with altBlocks := change node.altBlocks } : NodeM Unit) :=
  fun _ inv => { inv with }

theorem removeAltBlock_keeps (id : Hash) :
    Keeps (Node.Inv env extra network live batch) (removeAltBlock id) :=
  Keeps.get.bind fun _ =>
    .ite (fun _ => setAltBlocks_keeps (·.remove id)) fun _ => .throw _

theorem addBlockAsInvalid_keeps (bei : BlockExtendedInfo) (id : Hash) :
    Keeps (Node.Inv env extra network live batch) (addBlockAsInvalid bei id) :=
  fun _ inv => (addBlockAsInvalid_maintains bei id _ inv.beside).mono
    (fun _ _ kept => inv.of_beside kept) fun _ => False.elim

theorem withLocalBvc_keeps {α : Type} {body : NodeM α}
    (kept : Keeps (Node.Inv env extra network live batch) body) :
    Keeps (Node.Inv env extra network live batch) (withLocalBvc body) := by
  refine Keeps.get.bind fun before => (updateBvc_keeps _).bind fun _ => ?_
  refine (Keeps.tryCatch kept fun exception =>
    (updateBvc_keeps _).bind fun _ => .throw _).bind fun result => ?_
  exact Keeps.get.bind fun after => (updateBvc_keeps _).bind fun _ => .pure _

/-! ## Switching -/

variable (binding : env.Binding) (dead : ¬ live false)

include binding dead

theorem tryAddBlock_keeps (bl : Block) :
    Keeps (Node.Inv env extra network live batch) (tryAddBlock env bl) :=
  (withLocalBvc_keeps (handleBlockToMainChain_keeps binding dead bl)).bind fun _ => .pure _

theorem readdBlocks_keeps (blocks : List Block) :
    Keeps (Node.Inv env extra network live batch) (readdBlocks env blocks) := by
  induction blocks with
  | nil => exact .pure _
  | cons bl rest ih =>
    exact (tryAddBlock_keeps binding dead bl).bind fun added =>
      .ite (fun _ => ih) fun _ => .pure _

theorem rollbackBlockchainSwitching_keeps (originalChain : List Block) (height : Nat) :
    Keeps (Node.Inv env extra network live batch)
      (rollbackBlockchainSwitching env originalChain height) := by
  refine Keeps.get.bind fun node => .ite (fun _ => .pure _) fun _ => ?_
  exact (popUntilHeight_keeps _ _).bind fun _ => readdBlocks_keeps binding dead originalChain

theorem connectBlocks_keeps (altChain : List BlockExtendedInfo) :
    Keeps (Node.Inv env extra network live batch) (connectBlocks env altChain) := by
  induction altChain with
  | nil => exact .pure _
  | cons bei rest ih =>
    exact (tryAddBlock_keeps binding dead bei.bl).bind fun added =>
      .ite (fun _ => ih) fun _ => .pure _

variable {pushAlternative : Block → Hash → NodeM Bool}

section

variable (pushed : ∀ bl id, Keeps (Node.Inv env extra network live batch) (pushAlternative bl id))
  (altChain : List BlockExtendedInfo)
include pushed

theorem switchToAlternativeBlockchain_keeps :
    Keeps (Node.Inv env extra network live batch)
      (switchToAlternativeBlockchain env pushAlternative altChain) := by
  cases altChain with
  | nil => exact .pure _
  | cons front rest =>
    refine Keeps.get.bind fun node => .ite (fun _ => .pure _) fun _ => ?_
    refine (popUntilTop_keeps _ _ _).bind fun disconnected => Keeps.get.bind
      fun split => (connectBlocks_keeps binding dead _).bind fun failed => .ite ?_ ?_
    · intro connected
      refine (Keeps.forEach fun bl _ => ?_).bind fun _ =>
        (Keeps.forEach fun bei _ => removeAltBlock_keeps _).bind fun _ => .pure _
      exact (withLocalBvc_keeps (pushed bl _)).bind fun _ => .pure _
    · intro remaining
      refine (rollbackBlockchainSwitching_keeps binding dead _ _).bind fun _ =>
        (Keeps.forEach fun bei _ => ?_).bind fun _ => .pure _
      exact (addBlockAsInvalid_keeps _ _).bind fun _ => removeAltBlock_keeps _

theorem storeAlternative_keeps (bei : BlockExtendedInfo) (mainChainCumulativeDifficulty : Nat)
    (id : Hash) :
    Keeps (Node.Inv env extra network live batch)
      (storeAlternative env pushAlternative altChain bei mainChainCumulativeDifficulty id) := by
  refine Keeps.get.bind fun node => .ite (fun _ => .pure _) fun _ => ?_
  refine (setAltBlocks_keeps (·.put id bei)).bind fun _ => .ite (fun _ => ?_) fun _ => .pure _
  refine (switchToAlternativeBlockchain_keeps binding dead pushed _).bind fun switched =>
    .ite (fun _ => ?_) fun _ => failBlock_keeps
  exact (updateBvc_keeps _).bind fun _ => .pure _

end

theorem handleAlternativeBlock_keeps (fuel : Nat) (b : Block) (id : Hash) :
    Keeps (Node.Inv env extra network live batch) (handleAlternativeBlock env fuel b id) := by
  induction fuel generalizing b id with
  | zero => exact .exhaust
  | succ fuel ih =>
    refine .ite (fun _ => failBlock_keeps) fun _ => Keeps.get.bind fun node =>
      .ite (fun _ => ?_) fun _ => (updateBvc_keeps _).bind fun _ => .pure _
    cases collectAltChain node.altBlocks (node.altBlocks.length + 1) b.prevId [] with
    | none => exact .exhaust
    | some altChain =>
      refine (Keeps.reads _).bind fun connected => ?_
      cases connected with
      | none => exact .pure _
      | some timestamps =>
        refine (Keeps.reads _).bind fun prevHeight => (Keeps.reads _).bind
          fun coins => .ite (fun _ => failBlock_keeps) fun _ =>
            (Keeps.reads _).bind fun difficulty => .ite (fun _ => .pure _) fun _ =>
              .ite (fun _ => (updateBvc_keeps _).bind fun _ => .pure _) fun _ =>
                .ite (fun _ => failBlock_keeps) fun _ => ?_
        refine (Keeps.reads _).bind fun mainCumulative => (Keeps.reads _).bind
          fun cumulative => Keeps.get.bind fun node => ?_
        exact storeAlternative_keeps binding dead ih _ _ _ _

/-- `add_new_block` keeps the invariant, whatever the block. -/
theorem addNewBlock_keeps (fuel : Nat) (bl : Block) :
    Keeps (Node.Inv env extra network live batch) (addNewBlock env fuel bl) := by
  refine (updateBvc_keeps _).bind fun _ => .tryCatch ?_ fun _ => failBlock_keeps
  refine Keeps.get.bind fun node =>
    .ite (fun _ => (updateBvc_keeps _).bind fun _ => .pure _) fun _ => ?_
  refine (Keeps.reads _).bind fun tail => .ite (fun _ => ?_) fun _ => ?_
  · exact handleAlternativeBlock_keeps binding dead fuel bl _
  · exact handleBlockToMainChain_keeps binding dead bl

end Switching

end Memero
