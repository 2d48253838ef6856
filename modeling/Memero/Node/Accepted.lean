import Memero.Blockchain.Scan
import Memero.Database.Stored
import Memero.Database.Undo
import Memero.Node.Core
import Memero.Pool.Invariant

/-!
# Accepted blocks

What a transaction has passed before the pool takes it, what a block has passed before it
is on the main chain, and the ledgers that grow from the genesis block by such blocks. The
statements of this development about the main chain are about these ledgers, and the
modules after this one show that the node's tables hold no others.
-/

namespace Memero

open List Nat

/-- What is assumed of the hash functions: no two different objects with the same hash occur.
The transaction hash covers a confidential transaction whole. -/
structure Env.Binding (env : Env) : Prop where
  transaction : ∀ a b : Transaction, a.version = txVersion → b.version = txVersion →
    a.ringct.type = .clsag → b.ringct.type = .clsag →
      env.getTransactionHash a = env.getTransactionHash b → a = b
  inputs : ∀ a b : Transaction,
    env.getTransactionPrefixHash a = env.getTransactionPrefixHash b → a.vin = b.vin
  mining : ∀ a b : Block, env.getBlockHash a = env.getBlockHash b →
    env.getMiningHash a = env.getMiningHash b

/-! ## Transactions -/

theorem keyImages_nodup_of_semantic {env : Env} {tx : Transaction} {txFromBlock : Bool}
    (passed : env.checkRingctSemantic tx txFromBlock = true) : tx.keyImages.Nodup := by
  simp only [Env.checkRingctSemantic, Bool.and_eq_true] at passed
  have unique := passed.1.1.2
  simp only [checkRingctInputsKeyimagesDiff, rule8, decide_eq_true_eq] at unique
  rw [← (dedup_sublist tx.keyImages).eq_of_length unique]
  exact nodup_dedup _

/-- A transaction that has passed the checks on first arrival, and `extra`. -/
structure Admitted (env : Env) (extra : Transaction → Prop) (id : Hash) (tx : Transaction) :
    Prop where
  hash : env.getTransactionHash tx = id
  version : tx.version = txVersion
  semantic : ∃ txFromBlock, env.checkRingctSemantic tx txFromBlock = true
  amounts : ∃ rangeMemory balanceMemory, env.verifyAmounts tx rangeMemory balanceMemory = true
  extra : extra tx

namespace Admitted

variable {env : Env} {extra : Transaction → Prop} {id : Hash} {tx : Transaction}

theorem type (admitted : Admitted env extra id tx) : tx.ringct.type = .clsag := by
  obtain ⟨rangeMemory, balanceMemory, verified⟩ := admitted.amounts
  unfold Env.verifyAmounts maybeSizeCheckedRctData at verified
  by_contra other
  simp [other] at verified

theorem unique (binding : env.Binding) {other : Transaction}
    (admitted : Admitted env extra id tx) (otherAdmitted : Admitted env extra id other) :
    other = tx :=
  binding.transaction other tx otherAdmitted.version admitted.version otherAdmitted.type
    admitted.type (otherAdmitted.hash.trans admitted.hash.symm)

variable (admitted : Admitted env extra id tx)
include admitted

theorem supported : checkInputsTypesSupported tx = true := by
  obtain ⟨txFromBlock, passed⟩ := admitted.semantic
  simp only [Env.checkRingctSemantic, Bool.and_eq_true] at passed
  exact passed.1.1.1.1.1.1.2

theorem distinct : tx.keyImages.Nodup := by
  obtain ⟨txFromBlock, passed⟩ := admitted.semantic
  exact keyImages_nodup_of_semantic passed

theorem typed : ∃ inputs, tx.vin.mapM TxIn.fromKey? = some inputs := by
  obtain ⟨txFromBlock, passed⟩ := admitted.semantic
  simp only [Env.checkRingctSemantic, Bool.and_eq_true] at passed
  exact Option.isSome_iff_exists.mp passed.2

theorem noGenInput : tx.hasGenInput = false := by
  have supported := admitted.supported
  simp only [checkInputsTypesSupported, all_eq_true] at supported
  rw [Transaction.hasGenInput, any_eq_false]
  intro input member
  have typed := supported input member
  cases input with
  | gen height => cases typed
  | fromKey input => simp [TxIn.keyImage?]

theorem notCoinbase : tx.isCoinbase = false := by
  have none := admitted.noGenInput
  unfold Transaction.isCoinbase
  split
  · rename_i vin
    simp [Transaction.hasGenInput, vin, TxIn.keyImage?] at none
  · rfl

theorem regular : ChainTables.Regular tx := by
  unfold ChainTables.Regular
  rw [admitted.notCoinbase, admitted.noGenInput]
  simp

end Admitted

/-- What the transaction tables hold: miner transactions and admitted ones. -/
def Recorded (env : Env) (extra : Transaction → Prop) (tx : Transaction) : Prop :=
  tx.isCoinbase = true ∨ Admitted env extra (env.getTransactionHash tx) tx

/-! ## Blocks -/

open ChainTables (ofLedger)

/-- A transaction that `handle_block_to_main_chain` has checked against the chain `below`. -/
structure Checked (env : Env) (extra : Transaction → Prop) (below : Ledger)
    (tx : Transaction) : Prop where
  admitted : Admitted env extra (env.getTransactionHash tx) tx
  inputs : ∃ uninit used, (ofLedger env below).checkRingctInputs env [] uninit tx = .ok (some used)
  outputs : env.checkRingctOutputs tx = true

/-- A block that `handle_block_to_main_chain` has added to the chain `below`. -/
structure Accepted (env : Env) (extra : Transaction → Prop) (below : Ledger) (entry : Entry) :
    Prop where
  fresh : (ofLedger env below).BlockFresh env entry
  parent : (ofLedger env below).topBlockHash = .ok entry.block.prevId
  timely : ∃ now, (ofLedger env below).checkBlockTimestamp now entry.block = .ok true
  work : ∃ difficulty,
    (ofLedger env below).getDifficultyForNextBlock env.fixedDifficulty = .ok difficulty ∧
      difficulty ≠ 0 ∧ checkHash (env.getMiningHash entry.block) difficulty = true ∧
        (ofLedger env below).mainCumulativeDifficulty difficulty = .ok entry.cumulativeDifficulty
  coinbase : ∃ coinbase coinsBefore,
    env.prevalidateMinerTransaction entry.block below.length = some coinbase ∧
      (ofLedger env below).getBlockAlreadyGeneratedCoins (below.length - 1) = .ok coinsBefore ∧
      (validateMinerTransaction (getBlockHeight entry.block) coinbase entry.weight
        (sum64 (entry.txs.map getTxFee)) coinsBefore).isSome = true ∧
      entry.alreadyGeneratedCoins = Word.add 64 coinsBefore (getBlockReward coinsBefore)
  weight : entry.weight = (entry.txs.map env.getTransactionWeight).foldl (Word.add 64)
    (env.getTransactionWeight entry.block.minerTx)
  hashes : entry.block.txHashes = entry.txs.map env.getTransactionHash
  txs : ∀ tx ∈ entry.txs, Checked env extra below tx

/-- The entry of the genesis block. -/
def genesisEntry (env : Env) (network : Network) : Entry :=
  { block := generateGenesisBlock network
    txs := []
    weight := env.getTransactionWeight network.genesisTx
    longTermBlockWeight := getBlockSizeBound 0
    cumulativeDifficulty := 1
    alreadyGeneratedCoins := getBlockReward 0 }

/-- The ledgers that accepted blocks build on the genesis block. -/
inductive Valid (env : Env) (extra : Transaction → Prop) (network : Network) :
    Ledger → Prop where
  | genesis : Valid env extra network [genesisEntry env network]
  | extend {below : Ledger} {entry : Entry} (valid : Valid env extra network below)
      (accepted : Accepted env extra below entry) : Valid env extra network (below ++ [entry])

namespace Valid

variable {env : Env} {extra : Transaction → Prop} {network : Network} {ledger : Ledger}
variable (valid : Valid env extra network ledger)
include valid

theorem ne_nil : ledger ≠ [] := by
  cases valid with
  | genesis => simp
  | extend => simp

/-- A ledger of more than one block has an accepted top. -/
theorem top (more : 1 < ledger.length) :
    ∃ below entry, ledger = below ++ [entry] ∧ Valid env extra network below ∧
      Accepted env extra below entry := by
  cases valid with
  | genesis => exact absurd more (by simp)
  | extend valid accepted => exact ⟨_, _, rfl, valid, accepted⟩

/-- Every block above the genesis block was accepted on the blocks below it. -/
theorem accepted {height : Nat} {entry : Entry} (positive : 0 < height)
    (found : ledger[height]? = some entry) : Accepted env extra (ledger.take height) entry := by
  induction valid with
  | genesis =>
    rw [getElem?_eq_none (by simpa using succ_le_of_lt positive)] at found
    cases found
  | @extend below top valid accepted ih =>
    rcases lt_trichotomy height below.length with lower | same | higher
    · rw [getElem?_append_left lower] at found
      rw [take_append_of_le_length (le_of_lt lower)]
      exact ih found
    · rw [same, getElem?_append_right (le_refl _)] at found
      simp only [Nat.sub_self] at found
      cases found
      rw [same, take_left]
      exact accepted
    · rw [getElem?_eq_none (by simpa using succ_le_of_lt higher)] at found
      cases found

/-- The lower blocks of a valid ledger. -/
theorem take {count : Nat} (positive : 0 < count) :
    Valid env extra network (ledger.take count) := by
  induction valid with
  | genesis =>
    rw [take_of_length_le (by simpa using succ_le_of_lt positive)]
    exact .genesis
  | @extend below top valid accepted ih =>
    rcases lt_or_ge below.length count with all | some
    · rw [take_of_length_le (by simpa using succ_le_of_lt all)]
      exact .extend valid accepted
    · rw [take_append_of_le_length some]
      exact ih

end Valid

theorem Accepted.minerCoinbase {env : Env} {extra : Transaction → Prop} {below : Ledger}
    {entry : Entry} (accepted : Accepted env extra below entry) :
    entry.block.minerTx.version = txVersion ∧
      ∃ height, entry.block.minerTx.vin = [.gen height] := by
  obtain ⟨coinbase, coinsBefore, prevalidated, -⟩ := accepted.coinbase
  have checked := Env.minerChecked_of_prevalidate prevalidated
  exact ⟨checked.version, below.length, checked.inputs⟩

end Memero
