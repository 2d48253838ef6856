import Memero.Blockchain.Rings
import Memero.Node.EmptyBlocks

/-!
# The output distribution

`block_info` holds a running count of the outputs with amount zero, from which a wallet
computes the distribution of outputs over the blocks. The count of a block with a major version
below four starts from zero, and no check excludes such blocks. So the counts are right exactly
if such a block only occurs below the first output with amount zero.
-/

namespace Memero

open List Nat

open ChainTables (ofLedger)

namespace ChainTables

/-! ## Counting outputs -/

/-- The number of outputs with amount zero created up to a height. -/
def zeroOutputsUpTo (db : ChainTables) (height : Nat) : Nat :=
  (db.outputAmounts.filter fun row => row.1 = 0 ∧ row.2.data.height ≤ height).length

/-- Whether the outputs of a transaction are stored under amount zero whatever they hold. -/
def storesZero (tx : Transaction) : Bool :=
  tx.hasGenInput && decide (tx.version = 2)

/-- The outputs of a transaction that are stored under amount zero. -/
def zeroOutputs (tx : Transaction) (outs : List TxOut) : Nat :=
  if storesZero tx then outs.length else (outs.filter (·.amount = 0)).length

theorem storedOutput_amount (env : Env) (tx : Transaction) (index : Nat) (out : TxOut) :
    (storedOutput env tx index out).1.amount = if storesZero tx then 0 else out.amount := by
  by_cases miner : tx.hasGenInput = true ∧ tx.version = 2
  · simp [storedOutput, storesZero, miner]
  · have other : storesZero tx = false := by
      rw [storesZero, Bool.and_eq_false_iff, decide_eq_false_iff_not]
      by_cases gen : tx.hasGenInput = true
      · exact .inr fun version => miner ⟨gen, version⟩
      · exact .inl (Bool.not_eq_true _ ▸ gen)
    rw [storedOutput, if_neg miner, other]
    split <;> rfl

theorem pushOutput_getNumOutputs (db : ChainTables) (txHash : Hash) (out : TxOut)
    (localIndex unlockHeight : Nat) (commitment : Option EcPoint) (amount : Nat) :
    (db.pushOutput txHash out localIndex unlockHeight commitment).getNumOutputs amount =
      db.getNumOutputs amount + if out.amount = amount then 1 else 0 := by
  unfold getNumOutputs pushOutput Table.put
  by_cases same : out.amount = amount <;> simp [same]

theorem pushOutputs_getNumOutputs (env : Env) (tx : Transaction) (txHash : Hash) (index : Nat)
    (outs : List TxOut) (db : ChainTables) :
    (pushOutputs env tx txHash index outs db).getNumOutputs 0 =
      db.getNumOutputs 0 + zeroOutputs tx outs := by
  induction outs generalizing index db with
  | nil => simp [pushOutputs, zeroOutputs]
  | cons out rest ih =>
    rw [pushOutputs, ih, pushOutput_getNumOutputs, storedOutput_amount]
    unfold zeroOutputs
    by_cases miner : storesZero tx
    · simp only [miner, if_true, length_cons]
      omega
    · by_cases zero : out.amount = 0 <;> simp [miner, zero]
      omega

theorem pushTransaction_getNumOutputs (env : Env) (tx : Transaction) (txHash : Hash)
    (db : ChainTables) :
    (db.pushTransaction env tx txHash).getNumOutputs 0 =
      db.getNumOutputs 0 + zeroOutputs tx tx.vout :=
  pushOutputs_getNumOutputs env tx txHash 0 tx.vout (db.indexTransaction tx txHash)

theorem pushTransactions_getNumOutputs (env : Env) (txs : List (Hash × Transaction))
    (db : ChainTables) :
    (db.pushTransactions env txs).getNumOutputs 0 =
      db.getNumOutputs 0 + (txs.map fun item => zeroOutputs item.2 item.2.vout).sum := by
  induction txs generalizing db with
  | nil => rfl
  | cons item rest ih =>
    rw [pushTransactions, ih, pushTransaction_getNumOutputs, map_cons, sum_cons]
    omega

variable {height : Nat}

/-- The outputs of a block are created at its height. -/
theorem pushBlock_zeroOutputsUpTo (env : Env) (entry : Entry) {db : ChainTables}
    (below : height < db.height) :
    (db.pushBlock env entry).zeroOutputsUpTo height = db.zeroOutputsUpTo height := by
  have filled : (db.fillBlock env entry).zeroOutputsUpTo height = db.zeroOutputsUpTo height ∧
      height < (db.fillBlock env entry).height := by
    refine fillBlock_induction (P := fun after =>
      after.zeroOutputsUpTo height = db.zeroOutputsUpTo height ∧ height < after.height) ?_ ?_
        env entry ⟨rfl, below⟩
    · intro middle after rows blocks kept
      refine ⟨?_, ?_⟩
      · unfold zeroOutputsUpTo
        rw [rows]
        exact kept.1
      · unfold ChainTables.height
        rw [blocks]
        exact kept.2
    · intro middle txHash out localIndex unlockHeight commitment kept
      refine ⟨?_, kept.2⟩
      have above : ¬ (out.amount = 0 ∧
          (middle.newOutKey out unlockHeight commitment).data.height ≤ height) :=
        fun row => Nat.not_le_of_lt kept.2 row.2
      rw [← kept.1]
      unfold zeroOutputsUpTo pushOutput Table.put
      rw [filter_cons_of_neg (by simpa using above)]
  exact filled.1

theorem zeroOutputsUpTo_eq_getNumOutputs (env : Env) {ledger : Ledger}
    (top : ledger.length ≤ height + 1) :
    (ofLedger env ledger).zeroOutputsUpTo height = (ofLedger env ledger).getNumOutputs 0 := by
  have ascending := ofLedger_ascending env ledger
  unfold zeroOutputsUpTo getNumOutputs
  congr 1
  apply filter_congr
  intro row member
  have low : row.2.data.height ≤ height := by
    have bounded := ascending.bounded row member
    omega
  simp [low]

/-- The outputs up to a height are those of the chain up to that height. -/
theorem zeroOutputsUpTo_eq_take (env : Env) (ledger : Ledger) (height : Nat) :
    (ofLedger env ledger).zeroOutputsUpTo height =
      (ofLedger env (ledger.take (height + 1))).getNumOutputs 0 := by
  induction ledger using reverseRecOn with
  | nil => simp [zeroOutputsUpTo, getNumOutputs, empty]
  | append_singleton rest entry ih =>
    rcases lt_or_ge height rest.length with lower | higher
    · rw [ofLedger_append, pushBlock_zeroOutputsUpTo env entry (by rwa [ofLedger_height]), ih,
        take_append_of_le_length lower]
    · have all : (rest ++ [entry]).length ≤ height + 1 := by simpa using higher
      rw [zeroOutputsUpTo_eq_getNumOutputs env all, take_of_length_le all]

end ChainTables

/-! ## Accepted blocks -/

section Accepted

variable {env : Env} {extra : Transaction → Prop} {network : Network}
variable {entry : Entry}

theorem Accepted.getNumOutputs {below : Ledger} (accepted : Accepted env extra below entry) :
    (ofLedger env (below ++ [entry])).getNumOutputs 0 =
      (ofLedger env below).getNumOutputs 0 + numRctOuts entry.block entry.txs := by
  obtain ⟨version, height, inputs⟩ := accepted.minerCoinbase
  have miner : ChainTables.zeroOutputs entry.block.minerTx entry.block.minerTx.vout =
      entry.block.minerTx.vout.length := by
    simp [ChainTables.zeroOutputs, ChainTables.storesZero, Transaction.hasGenInput, inputs,
      TxIn.keyImage?, version, txVersion]
  have second : (entry.block.txHashes.zip entry.txs).map Prod.snd = entry.txs :=
    map_snd_zip (le_of_eq accepted.fresh.sizes.symm)
  have others : ((entry.block.txHashes.zip entry.txs).map fun item =>
      ChainTables.zeroOutputs item.2 item.2.vout) =
        entry.txs.map fun tx => (tx.vout.filter (·.amount = 0)).length := by
    calc _ = ((entry.block.txHashes.zip entry.txs).map Prod.snd).map fun tx =>
          ChainTables.zeroOutputs tx tx.vout := by
            rw [map_map]
            rfl
      _ = entry.txs.map fun tx => ChainTables.zeroOutputs tx tx.vout := by rw [second]
      _ = _ := by
          apply map_congr_left
          intro tx member
          have regular := (accepted.txs tx member).admitted.noGenInput
          simp [ChainTables.zeroOutputs, ChainTables.storesZero, regular]
  rw [ChainTables.ofLedger_append]
  change ((ofLedger env below).fillBlock env entry).getNumOutputs 0 = _
  rw [ChainTables.fillBlock, ChainTables.pushTransactions_getNumOutputs,
    ChainTables.pushTransaction_getNumOutputs, miner, others, numRctOuts,
    if_pos (show entry.block.minerTx.version = 2 from version), add_assoc]

/-- The genesis block has no output with amount zero. -/
theorem genesis_getNumOutputs : (ofLedger env [genesisEntry env network]).getNumOutputs 0 = 0 := by
  change (ChainTables.pushTransaction env network.genesisTx
    (env.getTransactionHash network.genesisTx) .empty).getNumOutputs 0 = 0
  rfl

/-- The recorded count of a block. -/
def ChainTables.recordedRct (db : ChainTables) (height : Nat) : Nat :=
  (db.blockInfo[height]?.map (·.cumRct)).getD 0

variable {ledger : Ledger}

theorem Valid.zeroOutputsUpTo_zero (valid : Valid env extra network ledger) :
    (ofLedger env ledger).zeroOutputsUpTo 0 = 0 := by
  have first : ledger.take 1 = [genesisEntry env network] := by
    have found := valid.first
    cases ledger with
    | nil => cases found
    | cons entry rest =>
      cases found
      rfl
  rw [ChainTables.zeroOutputsUpTo_eq_take, first]
  exact genesis_getNumOutputs

variable {height : Nat}

theorem Valid.zeroOutputsUpTo_succ (valid : Valid env extra network ledger)
    (found : ledger[height + 1]? = some entry) :
    (ofLedger env ledger).zeroOutputsUpTo (height + 1) =
      (ofLedger env ledger).zeroOutputsUpTo height + numRctOuts entry.block entry.txs := by
  have accepted := valid.accepted (succ_pos height) found
  have grown : ledger.take (height + 1 + 1) = ledger.take (height + 1) ++ [entry] := by
    rw [take_add_one, found]
    rfl
  rw [ChainTables.zeroOutputsUpTo_eq_take, ChainTables.zeroOutputsUpTo_eq_take, grown]
  exact accepted.getNumOutputs

theorem Valid.recordedRct_zero (valid : Valid env extra network ledger) :
    (ofLedger env ledger).recordedRct 0 = 0 := by
  unfold ChainTables.recordedRct
  rw [ChainTables.ofLedger_blockInfo_getElem? env valid.first]
  rfl

/-- The count of a block continues the count below it, unless its major version is below
four. -/
theorem recordedRct_succ (found : ledger[height + 1]? = some entry) :
    (ofLedger env ledger).recordedRct (height + 1) = numRctOuts entry.block entry.txs +
      if entry.block.majorVersion < 4 then 0 else (ofLedger env ledger).recordedRct height := by
  have bound : height + 1 < ledger.length := (List.getElem?_eq_some_iff.mp found).1
  have lower : ledger[height]? = some ledger[height] := getElem?_eq_getElem (by omega)
  have length : (ledger.take (height + 1)).length = height + 1 := by
    rw [length_take, min_eq_left (le_of_lt bound)]
  have same := ChainTables.fillBlock_sameBlocks env (ofLedger env (ledger.take (height + 1))) entry
  have previous : (ofLedger env (ledger.take (height + 1))).recordedRct height =
      (ofLedger env ledger).recordedRct height := by
    have located : (ledger.take (height + 1))[height]? = some ledger[height] := by
      rw [getElem?_take_of_lt (lt_succ_self height), lower]
    unfold ChainTables.recordedRct
    rw [ChainTables.ofLedger_blockInfo_getElem? env located,
      ChainTables.ofLedger_blockInfo_getElem? env lower, take_take, min_eq_left (le_succ height)]
  have continued : ((ofLedger env (ledger.take (height + 1))).fillBlock env entry).previousRct
      entry.block =
        if entry.block.majorVersion < 4 then 0 else (ofLedger env ledger).recordedRct height := by
    unfold ChainTables.previousRct
    rw [same.height, same.2.1, ChainTables.ofLedger_height, length, ← previous]
    simp only [succ_ne_zero, false_or]
    rfl
  rw [← continued]
  unfold ChainTables.recordedRct
  rw [ChainTables.ofLedger_blockInfo_getElem? env found]
  rfl

end Accepted

/-! ## The distribution -/

/-- The recorded counts are the numbers of outputs with amount zero, do not decrease, and the
last one counts all of them. -/
structure DistributionExact (db : ChainTables) : Prop where
  counts : ∀ heights : List Nat, (∀ height ∈ heights, height < db.height) →
    db.getBlockCumulativeRctOutputs heights = .ok (heights.map db.zeroOutputsUpTo)
  ascending : ∀ lower upper first second, lower ≤ upper →
    db.getBlockCumulativeRctOutputs [lower, upper] = .ok [first, second] → first ≤ second
  whole : db.getBlockCumulativeRctOutputs [db.height - 1] = .ok [db.getNumOutputs 0]

variable {env : Env} {ledger : Ledger}

theorem getBlockCumulativeRctOutputs_eq {heights : List Nat}
    (known : ∀ height ∈ heights, height < ledger.length) :
    (ofLedger env ledger).getBlockCumulativeRctOutputs heights =
      .ok (heights.map (ofLedger env ledger).recordedRct) := by
  have inside : ¬ heights.any ((ofLedger env ledger).height ≤ ·) = true := by
    rw [ChainTables.ofLedger_height, any_eq_true]
    rintro ⟨height, member, above⟩
    exact Nat.not_lt_of_le (of_decide_eq_true above) (known height member)
  unfold ChainTables.getBlockCumulativeRctOutputs
  rw [if_neg inside]
  clear inside
  induction heights with
  | nil => rfl
  | cons height rest ih =>
    have others := ih fun other member => known other (mem_cons_of_mem _ member)
    have row := ChainTables.ofLedger_blockInfo_getElem? env
      (getElem?_eq_getElem (known height mem_cons_self))
    have read : ((ofLedger env ledger).getBlockInfo height).map (·.cumRct) =
        .ok ((ofLedger env ledger).recordedRct height) := by
      unfold ChainTables.getBlockInfo ChainTables.recordedRct
      rw [row]
      rfl
    rw [mapM_cons, read, others]
    rfl

theorem zeroOutputsUpTo_mono (db : ChainTables) {lower upper : Nat} (le : lower ≤ upper) :
    db.zeroOutputsUpTo lower ≤ db.zeroOutputsUpTo upper := by
  apply List.Sublist.length_le
  apply monotone_filter_right
  intro row counted
  simp only [decide_eq_true_eq] at counted ⊢
  exact ⟨counted.1, le_trans counted.2 le⟩

theorem zeroOutputsUpTo_eq_zero_iff {db : ChainTables} {height : Nat} :
    db.zeroOutputsUpTo height = 0 ↔
      ∀ row ∈ db.outputAmounts, row.1 = 0 → height < row.2.data.height := by
  unfold ChainTables.zeroOutputsUpTo
  simp

/-- The counts are right at every height exactly if they are never started again. -/
theorem Valid.recordedRct_eq_iff {extra : Transaction → Prop} {network : Network}
    (valid : Valid env extra network ledger) :
    (∀ height < ledger.length,
        (ofLedger env ledger).recordedRct height = (ofLedger env ledger).zeroOutputsUpTo height) ↔
      ∀ height entry, ledger[height + 1]? = some entry → entry.block.majorVersion < 4 →
        (ofLedger env ledger).zeroOutputsUpTo height = 0 := by
  constructor
  · intro exact_counts height entry found old
    have bound := (List.getElem?_eq_some_iff.mp found).1
    have counted := exact_counts (height + 1) bound
    rw [recordedRct_succ found, if_pos old, valid.zeroOutputsUpTo_succ found] at counted
    omega
  · intro fresh height bound
    induction height with
    | zero => rw [valid.recordedRct_zero, valid.zeroOutputsUpTo_zero]
    | succ height ih =>
      have found : ledger[height + 1]? = some ledger[height + 1] :=
        getElem?_eq_getElem bound
      have lower := ih (lt_of_succ_lt bound)
      rw [recordedRct_succ found, valid.zeroOutputsUpTo_succ found]
      split
      · rename_i old
        rw [fresh height _ found old]
        exact add_comm _ _
      · rw [lower]
        exact add_comm _ _

/-- The second empty block with major version three. -/
def oldVersionEntry : Entry :=
  { emptyEntry 2 (bootstrapWork 2) with block := { emptyBlock 2 with majorVersion := 3 } }

theorem oldVersionEntry_accepted :
    Accepted (numberedEnv [] 0) (fun _ => True)
      (emptyLedger (numberedEnv [] 0) mainnet bootstrapWork 1) oldVersionEntry := by
  constructor
  case fresh =>
    exact ChainTables.blockFresh_of_addBlock (ChainTables.ofLedger_aligned _ _) (by decide +kernel)
  case parent => exact timedLedger_topBlockHash (numberedEnv_easy _ _) blockTime_rising 1
  case timely => exact ⟨blockTime 2, by decide +kernel⟩
  case work =>
    refine ⟨bootstrapDifficulty, ?_, by decide, by decide, by decide +kernel⟩
    exact getDifficultyForNextBlock_bootstrap (cons_ne_nil _ _) (by decide)
  case coinbase =>
    refine ⟨{ height := 2, amounts := [getBlockReward (emission 1)] }, emission 1, ?_, ?_, ?_, ?_⟩ <;>
      decide +kernel
  case weight => rfl
  case hashes => rfl
  case txs => exact fun tx member => by cases member

end Memero
