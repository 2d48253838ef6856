import Memero.Wallet.Blocks

/-!
# Scanning

Blocks are processed one after another, each at the height that the chain of the wallet has reached.
This is what `process_parsed_blocks` does with the blocks that are new, and behind a detachment with
those that replace what was there.
-/

namespace Memero

open List WalletSetup

open Exec (bind_eq_ok)

/-! ## Scanning -/

namespace WalletSetup

variable (setup : WalletSetup) (memory : Nat → Nat → Nat → ScanMemory)

/-- Blocks are processed, each at the height that the chain of the wallet has reached. -/
def scanBlocks : List BlockEntry → WalletM Unit
  | [] => pure ()
  | entry :: rest => do
      let w ← Exec.get
      setup.processNewBlockchainEntry (memory w.blockchain.size) entry w.blockchain.size
      scanBlocks rest

theorem scanBlocks_append (first second : List BlockEntry) (w : Wallet) :
    (setup.scanBlocks memory (first ++ second)).run w =
      (setup.scanBlocks memory first >>= fun _ => setup.scanBlocks memory second).run w := by
  induction first generalizing w with
  | nil => rfl
  | cons entry rest ih =>
    simp only [cons_append, scanBlocks, Exec.bind_run, Exec.get_run]
    rcases (setup.processNewBlockchainEntry (memory w.blockchain.size) entry
      w.blockchain.size).run w with ⟨outcome, after⟩
    cases outcome with
    | ok value => exact ih after
    | thrown error => rfl
    | exhausted => rfl

/-- Every call, in the state that the earlier ones lead to, meets a condition. -/
def CallsMeet (condition : (Nat → ScanMemory) → Wallet → TxCall → Prop)
    (memory : Nat → Nat → ScanMemory) : List (Nat × TxCall) → Wallet → Prop
  | [], _ => True
  | item :: rest, w => condition (memory item.1) w item.2 ∧
      ∀ after, (setup.processNewTransaction item.2 (memory item.1)).run w = (.ok (), after) →
        CallsMeet condition memory rest after

/-- Every transaction of the blocks that are not skipped, in the state that the earlier ones lead to,
meets a condition. -/
def BlocksMeet (condition : (Nat → ScanMemory) → Wallet → TxCall → Prop) :
    List BlockEntry → Wallet → Prop
  | [], _ => True
  | entry :: rest, w =>
    (setup.shouldSkipBlock entry.block w.blockchain.size = false →
      setup.CallsMeet condition (memory w.blockchain.size)
        (setup.blockCalls entry w.blockchain.size) w) ∧
    ∀ after, (setup.processNewBlockchainEntry (memory w.blockchain.size) entry
      w.blockchain.size).run w = (.ok (), after) → BlocksMeet condition rest after

end WalletSetup

/-- The fields of the transactions of a block fit their types. -/
def BlockEntry.InRange (entry : BlockEntry) : Prop :=
  entry.block.minerTx.InRange ∧ ∀ tx ∈ entry.txes, tx.InRange

section Runs

variable {setup : WalletSetup} {memory : Nat → Nat → Nat → ScanMemory}
  {condition : (Nat → ScanMemory) → Wallet → TxCall → Prop} {holds : Wallet → Prop}
variable {w after : Wallet} {height : Nat} {item : Nat × TxCall}

/-- What every call keeps, a list of calls keeps. -/
theorem runCalls_keep {memory : Nat → Nat → ScanMemory} {calls : List (Nat × TxCall)}
    (step : ∀ item ∈ calls, ∀ w after, holds w → condition (memory item.1) w item.2 → (setup.processNewTransaction item.2 (memory item.1)).run w = (.ok (), after) → holds after)
    (start : holds w) (meet : setup.CallsMeet condition memory calls w)
    (ran : (setup.runCalls memory calls).run w = (.ok (), after)) : holds after := by
  induction calls generalizing w with
  | nil =>
    cases ran
    exact start
  | cons item rest ih =>
    obtain ⟨_, middle, first, others⟩ := bind_eq_ok.mp ran
    exact ih (fun other member => step other (mem_cons_of_mem _ member))
      (step item mem_cons_self w middle start meet.1 first) (meet.2 middle first) others

theorem mem_txCalls {b : Block} {i : Nat} {txids : List Hash} {txes : List Transaction}
    {oIndices : List (List Nat)} (member : item ∈ txCalls b height i txids txes oIndices) :
    ∃ txid tx indices, tx ∈ txes ∧
      item.2 = blockCall b height false txid tx indices := by
  induction txids generalizing i txes oIndices with
  | nil => cases member
  | cons txid txids ih =>
    cases txes with
    | nil => cases member
    | cons tx txes =>
      cases oIndices with
      | nil => cases member
      | cons indices oIndices =>
        rcases mem_cons.mp member with rfl | later
        · exact ⟨txid, tx, indices, mem_cons_self, rfl⟩
        · obtain ⟨txid, tx, indices, isTx, same⟩ := ih later
          exact ⟨txid, tx, indices, mem_cons_of_mem _ isTx, same⟩

/-- The calls for a block are for its transactions, at its height. -/
theorem mem_blockCalls {entry : BlockEntry} (range : entry.InRange)
    (member : item ∈ setup.blockCalls entry height) :
    item.2.tx.InRange ∧ item.2.height = height ∧ item.2.pool = false := by
  rcases mem_cons.mp member with rfl | later
  · exact ⟨range.1, rfl, rfl⟩
  · obtain ⟨txid, tx, indices, isTx, same⟩ := mem_txCalls later
    rw [same]
    exact ⟨range.2 tx isTx, rfl, rfl⟩

/-- What holds between blocks, if something that holds within a block at each height follows from it,
is kept by every call, and gives it back with the hash of the block. -/
theorem scanBlocks_keep (holds : Wallet → Prop) (within : Nat → Wallet → Prop)
    (opened : ∀ w, holds w → within w.blockchain.size w)
    (step : ∀ memory call w after, call.tx.InRange → call.pool = false → within call.height w → condition memory w call → (setup.processNewTransaction call memory).run w = (.ok (), after) → within call.height after)
    (closed : ∀ height w hash, within height w → holds { w with blockchain := w.blockchain.pushBack hash })
    {entries : List BlockEntry} (range : ∀ entry ∈ entries, entry.InRange) (start : holds w)
    (meet : setup.BlocksMeet memory condition entries w)
    (ran : (setup.scanBlocks memory entries).run w = (.ok (), after)) : holds after := by
  induction entries generalizing w with
  | nil =>
    cases ran
    exact start
  | cons entry rest ih =>
    rw [WalletSetup.scanBlocks, Exec.get_bind_run] at ran
    obtain ⟨_, next, first, others⟩ := bind_eq_ok.mp ran
    refine ih (fun other member => range other (mem_cons_of_mem _ member)) ?_
      (meet.2 next first) others
    obtain ⟨middle, rfl, processed⟩ := processNewBlockchainEntry_ok first
    apply closed w.blockchain.size
    rcases processed with ⟨-, rfl⟩ | ⟨scanned, calls⟩
    · exact opened _ start
    · refine runCalls_keep (fun item member before behind inside good done => ?_) (opened w start)
        (meet.1 scanned) calls
      obtain ⟨fits, height, chain⟩ := mem_blockCalls (range entry mem_cons_self) member
      rw [← height] at inside ⊢
      exact step _ item.2 before behind fits chain inside good done

end Runs

/-! ## The chain of the wallet -/

section Chain

variable {setup : WalletSetup} {call : TxCall} {w after recorded : Wallet}
  {accepted : List (Nat × TxScanInfo)}

theorem RecordSteps.blockchain (steps : RecordSteps setup call accepted w after) :
    after.blockchain = w.blockchain := by
  induction steps with
  | nil => rfl
  | cons first _ ih =>
    rw [ih]
    cases first <;> rfl

/-- A transaction leaves the chain to the block that it is in. -/
theorem TxCall.Processed.blockchain {memory : Nat → ScanMemory}
    (processed : call.Processed setup memory w after accepted recorded) :
    after.blockchain = w.blockchain := by
  have marked : ∀ (inputs : List TxIn) (w : Wallet),
      (inputs.foldl (Wallet.spend call) w).blockchain = w.blockchain := by
    intro inputs
    induction inputs with
    | nil => exact fun _ => rfl
    | cons input rest ih =>
      intro w
      obtain ⟨transfers, same, -⟩ := w.spend_eq call input
      exact (ih _).trans (by rw [same])
  rw [processed.filed.others]
  calc (recorded.spendAll call).blockchain = recorded.blockchain := marked _ _
    _ = (w.started setup call).blockchain := processed.steps.blockchain
    _ = w.blockchain := by rw [Wallet.started_eq]

theorem HashChain.size_pushBack (chain : HashChain) (hash : Hash) :
    (chain.pushBack hash).size = chain.size + 1 := by
  simp only [HashChain.size, HashChain.pushBack, length_append, length_singleton]
  omega

end Chain

end Memero
