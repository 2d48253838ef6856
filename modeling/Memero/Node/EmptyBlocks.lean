import Memero.Blockchain.AltDifficulty
import Memero.Node.Verification

/-!
# Chains of empty blocks

Blocks without transactions on the genesis block, at rising times. Such a block is accepted
as long as the difficulty of the next block can be computed, in an environment where hashing
is easy. Most chains used later are six targets apart: long enough for outputs to become
spendable and for the difficulty to fall. No step of their construction evaluates a block.
-/

namespace Memero

open List Nat ChainTables Table

open ChainTables (ofLedger)

/-- An environment in which every block has enough work and in which the hash of a block is its
time, the hash of a miner transaction its unlock height. -/
structure Env.Easy (env : Env) : Prop where
  fixedDifficulty : env.fixedDifficulty = 0
  mining : ∀ b, env.getMiningHash b = 0
  blockHash : ∀ b, env.getBlockHash b = b.timestamp
  minerHash : ∀ tx : Transaction, tx.ringct.type = .null →
    env.getTransactionHash tx = tx.unlockHeight
  weight : ∀ tx, env.getTransactionWeight tx = 100
  point : env.isValidPoint (identity + 1) = true

/-! ## Blocks -/

/-- The time of the block at a height. -/
def blockTime (height : Nat) : Nat :=
  6 * difficultyTargetInSeconds * height

/-- Times that start with the genesis block and rise with the height. -/
structure Rising (time : Nat → Nat) : Prop where
  zero : time 0 = 0
  strict : StrictMono time

theorem blockTime_rising : Rising blockTime where
  zero := rfl
  strict := fun lower upper below =>
    Nat.mul_lt_mul_of_pos_left below (show 0 < 6 * difficultyTargetInSeconds by decide)

/-- The miner transaction at a height. The one of the first block has an output for every
member of a ring. -/
def emptyMinerTx (height : Nat) : Transaction :=
  { version := txVersion
    unlockHeight := height + coinbaseUnlockTime
    vin := [.gen height]
    vout :=
      { amount := getBlockReward (emission (height - 1)), outputPublicKey := identity + 1 } ::
        List.replicate (if height = 1 then mixin else 0)
          { amount := 0, outputPublicKey := identity + 1 }
    extra := []
    ringct :=
      { type := .null
        ecdhEncryptedData := []
        outputCommits := []
        fee := 0
        p := { bulletproofs := [], clsags := [], pseudoInputCommits := [] } } }

/-- The block at a height; `time` gives the time at a height. -/
def timedBlock (time : Nat → Nat) (height : Nat) : Block :=
  { majorVersion := constantHfVersion
    minorVersion := constantHfVersion
    timestamp := time height
    prevId := time (height - 1)
    nonce := 0
    minerTx := emptyMinerTx height
    txHashes := [] }

/-- The entry of the block at a height. -/
def timedEntry (time : Nat → Nat) (height cumulativeDifficulty : Nat) : Entry :=
  { block := timedBlock time height
    txs := []
    weight := 100
    longTermBlockWeight := getBlockSizeBound height
    cumulativeDifficulty := cumulativeDifficulty
    alreadyGeneratedCoins := emission height }

/-- The genesis block with `count` empty blocks on it; `work` gives the cumulative difficulty
at a height. -/
def timedLedger (env : Env) (network : Network) (time work : Nat → Nat) (count : Nat) : Ledger :=
  genesisEntry env network ::
    (List.range count).map fun height => timedEntry time (height + 1) (work (height + 1))

/-- The block at a height, six targets after the one below. -/
def emptyBlock (height : Nat) : Block :=
  timedBlock blockTime height

/-- The entry of the block six targets after the one below. -/
def emptyEntry (height cumulativeDifficulty : Nat) : Entry :=
  timedEntry blockTime height cumulativeDifficulty

/-- The genesis block with `count` empty blocks on it, six targets apart. -/
def emptyLedger (env : Env) (network : Network) (work : Nat → Nat) (count : Nat) : Ledger :=
  timedLedger env network blockTime work count

section Ledger

variable {env : Env} {network : Network} {time work : Nat → Nat}
variable (count : Nat)

theorem timedLedger_succ :
    timedLedger env network time work (count + 1) =
      timedLedger env network time work count ++ [timedEntry time (count + 1) (work (count + 1))] := by
  simp [timedLedger, range_succ]

@[simp] theorem timedLedger_length :
    (timedLedger env network time work count).length = count + 1 := by
  simp [timedLedger]

/-- Values that follow from the height alone. -/
theorem timedLedger_map {α : Type} (read : Entry → α) (value : Nat → α)
    (genesis : read (genesisEntry env network) = value 0)
    (above : ∀ height, read (timedEntry time (height + 1) (work (height + 1))) = value (height + 1))
    (count : Nat) :
    (timedLedger env network time work count).map read = (List.range (count + 1)).map value := by
  rw [timedLedger, range_succ_eq_map, map_cons, map_cons, map_map, map_map]
  congr 1
  exact map_congr_left fun height _ => above height

theorem timedLedger_timestamps (genesis : time 0 = 0) (count : Nat) :
    (ofLedger env (timedLedger env network time work count)).blockInfo.map (·.timestamp) =
      (List.range (count + 1)).map time := by
  rw [ofLedger_blockInfo_map env _ _ (·.block.timestamp) fun _ _ => rfl]
  exact timedLedger_map _ _ genesis.symm (fun _ => rfl) count

theorem timedLedger_difficulties (genesis : work 0 = 1) (count : Nat) :
    (ofLedger env (timedLedger env network time work count)).blockInfo.map (·.diff) =
      (List.range (count + 1)).map work := by
  rw [ofLedger_blockInfo_map env _ _ (·.cumulativeDifficulty) fun _ _ => rfl]
  exact timedLedger_map _ _ genesis.symm (fun _ => rfl) count

theorem timedLedger_coins :
    (ofLedger env (timedLedger env network time work count)).blockInfo.map (·.coins) =
      (List.range (count + 1)).map emission := by
  rw [ofLedger_blockInfo_map env _ _ (·.alreadyGeneratedCoins) fun _ _ => rfl]
  exact timedLedger_map _ _ rfl (fun _ => rfl) count

/-- A value of the top row of `block_info`. -/
theorem timedLedger_top {α : Type} (read : BlockInfo → α) (value : Nat → α) (count : Nat)
    (rows : (ofLedger env (timedLedger env network time work count)).blockInfo.map read =
      (List.range (count + 1)).map value) :
    ((ofLedger env (timedLedger env network time work count)).getBlockInfo count).map read =
      .ok (value count) := by
  have row := congrArg (·[count]?) rows
  simp only [getElem?_map, getElem?_range (lt_succ_self count)] at row
  unfold getBlockInfo
  obtain ⟨info, found, same⟩ := Option.map_eq_some_iff.mp row
  rw [found, ← same]
  rfl

end Ledger

/-! ## Tables -/

section Tables

variable {env : Env} (easy : env.Easy) {network : Network} {time work : Nat → Nat}
  (rising : Rising time)

include easy rising

variable (count : Nat)

theorem timedLedger_topBlockHash :
    (ofLedger env (timedLedger env network time work count)).topBlockHash = .ok (time count) := by
  have rows : (ofLedger env (timedLedger env network time work count)).blockInfo.map (·.hash) =
      (List.range (count + 1)).map time := by
    rw [ofLedger_blockInfo_map env _ _ (fun entry => env.getBlockHash entry.block) fun _ _ => rfl]
    exact timedLedger_map _ _ ((easy.blockHash _).trans rising.zero.symm) (fun _ => easy.blockHash _)
      count
  unfold topBlockHash
  rw [ofLedger_height, timedLedger_length]
  exact timedLedger_top _ _ count rows

theorem timedLedger_parent :
    (ofLedger env (timedLedger env network time work count)).blockHeights.find (time count) =
      some count := by
  cases count with
  | zero =>
    change (ofLedger env ([] ++ [genesisEntry env network])).blockHeights.find _ = _
    rw [ofLedger_append, pushBlock_blockHeights, easy.blockHash, rising.zero]
    exact find_put_self _ _ _
  | succ count =>
    rw [timedLedger_succ, ofLedger_append, pushBlock_blockHeights,
      easy.blockHash, ofLedger_height, timedLedger_length]
    exact find_put_self _ _ _

theorem timedLedger_blockExists {count height : Nat} (above : count < height) :
    (ofLedger env (timedLedger env network time work count)).blockExists (time height) =
      false := by
  unfold blockExists
  rw [has_eq_false]
  have different : ∀ other, other < height → time other ≠ time height :=
    fun other lower same => Nat.ne_of_lt lower (rising.strict.injective same)
  induction count with
  | zero =>
    change (ofLedger env ([] ++ [genesisEntry env network])).blockHeights.find _ = _
    rw [ofLedger_append, pushBlock_blockHeights, easy.blockHash]
    exact find_put_of_ne _ _ fun same => different 0 above (rising.zero.trans same)
  | succ count ih =>
    rw [timedLedger_succ, ofLedger_append, pushBlock_blockHeights, easy.blockHash]
    exact (find_put_of_ne _ _ (different (count + 1) above)).trans (ih (lt_of_succ_lt above))

omit rising in
theorem timedLedger_txExists {count height : Nat} (above : count < height) :
    (ofLedger env (timedLedger env network time work count)).txExists
      (height + coinbaseUnlockTime) = false := by
  unfold txExists
  rw [has_eq_false]
  have different : ∀ other, other < height →
      other + coinbaseUnlockTime ≠ height + coinbaseUnlockTime :=
    fun other lower same => Nat.ne_of_lt lower (Nat.add_right_cancel same)
  induction count with
  | zero =>
    change (pushTransaction env network.genesisTx
      (env.getTransactionHash network.genesisTx) .empty).txIndices.find _ = _
    rw [easy.minerHash _ rfl]
    exact find_put_of_ne _ _ (different 0 above)
  | succ count ih =>
    rw [timedLedger_succ, ofLedger_append]
    change (pushTransaction env (emptyMinerTx (count + 1))
      (env.getTransactionHash (emptyMinerTx (count + 1))) _).txIndices.find _ = _
    rw [pushTransaction_txIndices, easy.minerHash _ rfl]
    exact (find_put_of_ne _ _ (different (count + 1) above)).trans (ih (lt_of_succ_lt above))

end Tables

/-! ## Acceptance -/

theorem median_le {values : List Nat} {bound : Nat} (below : ∀ value ∈ values, value ≤ bound) :
    median values ≤ bound := by
  unfold median
  rw [getD_eq_getElem?_getD]
  cases found : (values.insertionSort (· ≤ ·))[values.length / 2]? with
  | none => exact zero_le _
  | some value =>
    have member := mem_of_getElem? found
    exact below value ((perm_insertionSort _ values).mem_iff.mp member)

variable {env : Env} {network : Network}

/-- Points that are all valid are returned. -/
theorem Env.arePointsSafe_eq {points : List EcPoint}
    (valid : ∀ point ∈ points, env.isValidPoint point = true) :
    env.arePointsSafe points = some points := by
  unfold Sodium.arePointsSafe
  induction points with
  | nil => rfl
  | cons point rest ih =>
    have others := ih fun other member => valid other (mem_cons_of_mem _ member)
    simp [Sodium.maybeSafePoint, valid point mem_cons_self, others]

section Acceptance

variable {env : Env} (easy : env.Easy) {network : Network} {time work : Nat → Nat}
  (rising : Rising time)

include rising

variable {count : Nat} {extra : Transaction → Prop}

/-- A block is on time if the clock is not far behind it. -/
theorem timedBlock_timely {now : Nat} (fits : now + blockFutureTimeLimit < 2 ^ 64)
    (reached : time (count + 1) ≤ now + blockFutureTimeLimit) :
    (ofLedger env (timedLedger env network time work count)).checkBlockTimestamp now
      (timedBlock time (count + 1)) = .ok true := by
  unfold checkBlockTimestamp
  have early : ¬ now + blockFutureTimeLimit < (timedBlock time (count + 1)).timestamp :=
    Nat.not_lt_of_le reached
  rw [Word.add_of_lt fits, if_neg early, ofLedger_height, timedLedger_length]
  split
  · rfl
  · rename_i tall
    have known : count + 1 - timestampCheckWindow + timestampCheckWindow ≤
        (ofLedger env (timedLedger env network time work count)).blockInfo.length := by
      have aligned := ofLedger_aligned env (timedLedger env network time work count)
      rw [aligned, ofLedger_blocks, length_map, timedLedger_length]
      exact Nat.le_of_eq (Nat.sub_add_cancel (Nat.le_of_not_lt tall))
    rw [readRange_timestamps known, timedLedger_timestamps rising.zero]
    have below : median ((((List.range (count + 1)).map time).drop
        (count + 1 - timestampCheckWindow)).take timestampCheckWindow) ≤ time (count + 1) := by
      apply median_le
      intro value member
      obtain ⟨height, listed, rfl⟩ :=
        mem_map.mp (mem_of_mem_drop (mem_of_mem_take member))
      exact rising.strict.monotone (le_of_lt (mem_range.mp listed))
    exact congrArg Except.ok (by
      rw [checkBlockTimestampMedian, Bool.not_eq_true', decide_eq_false_iff_not]
      exact Nat.not_lt_of_le below)

omit rising

include easy

theorem timedBlock_prevalidated (small : count + 1 + coinbaseUnlockTime < 2 ^ 64) :
    env.prevalidateMinerTransaction (timedBlock time (count + 1)) (count + 1) =
      some { height := count + 1, amounts := (emptyMinerTx (count + 1)).vout.map (·.amount) } := by
  have points : env.checkTxOutputPoints (emptyMinerTx (count + 1)) =
      some ((emptyMinerTx (count + 1)).vout.map (·.outputPublicKey)) := by
    apply Env.arePointsSafe_eq
    intro point member
    obtain ⟨out, listed, rfl⟩ := mem_map.mp member
    rcases mem_cons.mp listed with rfl | other
    · exact easy.point
    · rw [eq_of_mem_replicate other]
      exact easy.point
  have bounded : ((emptyMinerTx (count + 1)).vout.map (·.amount)).sum ≤ 2 ^ 64 - 1 := by
    have reward := getBlockReward_le (emission count)
    have supply : moneySupply ≤ 2 ^ 64 - 1 := by decide
    simp only [emptyMinerTx, List.map_cons, List.map_replicate, List.sum_cons,
      List.sum_replicate, Nat.add_sub_cancel, smul_eq_mul]
    omega
  have locked : rule20 (count + 1) (count + 1 + coinbaseUnlockTime) = true := by
    rw [rule20, Word.add_of_lt small]
    exact beq_self_eq_true _
  have fits : rule24 ((emptyMinerTx (count + 1)).vout.map (·.amount)) = some _ := if_pos bounded
  have version : (emptyMinerTx (count + 1)).version = 2 := rfl
  have type : (emptyMinerTx (count + 1)).ringct.type = .null := rfl
  have inputs : (emptyMinerTx (count + 1)).vin = [.gen (count + 1)] := rfl
  have unlock : (emptyMinerTx (count + 1)).unlockHeight = count + 1 + coinbaseUnlockTime := rfl
  have parsed : env.maybeCoinbaseTx (emptyMinerTx (count + 1)) =
      some { height := count + 1, amounts := (emptyMinerTx (count + 1)).vout.map (·.amount) } := by
    simp [Env.maybeCoinbaseTx, version, type, inputs, unlock, points, fits, locked]
  have miner : (timedBlock time (count + 1)).minerTx = emptyMinerTx (count + 1) := rfl
  unfold Env.prevalidateMinerTransaction
  rw [miner, parsed]
  exact if_pos rfl

include rising

/-- An empty block is accepted if the difficulty of the next block is known. -/
theorem timedEntry_accepted (small : time (count + 1) + blockFutureTimeLimit < 2 ^ 64)
    (genesis : work 0 = 1) {difficulty : Nat}
    (next : (ofLedger env (timedLedger env network time work count)).getDifficultyForNextBlock 0 = .ok difficulty)
    (nonzero : difficulty ≠ 0) (total : work (count + 1) = Word.add 128 difficulty (work count)) :
    Accepted env extra (timedLedger env network time work count)
      (timedEntry time (count + 1) (work (count + 1))) := by
  have unlock : count + 1 + coinbaseUnlockTime < 2 ^ 64 := by
    have least := rising.strict.le_apply (x := count + 1)
    simp only [blockFutureTimeLimit, coinbaseUnlockTime] at small ⊢
    omega
  have minerHash : env.getTransactionHash (emptyMinerTx (count + 1)) =
      count + 1 + coinbaseUnlockTime := easy.minerHash _ rfl
  have height : (ofLedger env (timedLedger env network time work count)).height = count + 1 := by
    rw [ofLedger_height, timedLedger_length]
  constructor
  case fresh =>
    constructor
    case sizes => rfl
    case miner =>
      refine ⟨nodup_nil, fun image member => ?_, ?_, fun _ version => ?_⟩
      · cases member
      · exact minerHash ▸ timedLedger_txExists easy (lt_succ_self count)
      · exact absurd version (show (2 : Nat) ≠ 1 by decide)
    case txs => trivial
    case new =>
      rw [easy.blockHash]
      exact timedLedger_blockExists easy rising (lt_succ_self count)
    case parent =>
      intro _
      rw [height]
      exact timedLedger_parent easy rising count
  case parent => exact timedLedger_topBlockHash easy rising count
  case timely => exact ⟨time (count + 1), timedBlock_timely rising small (le_add_right _ _)⟩
  case work =>
    refine ⟨difficulty, by rw [easy.fixedDifficulty]; exact next, nonzero, ?_, ?_⟩
    · simp [easy.mining, checkHash]
    · unfold mainCumulativeDifficulty
      rw [height]
      have top := timedLedger_top _ _ count (@timedLedger_difficulties env network time work genesis count)
      change Except.map _ (Except.map _ _) = _
      rw [Nat.add_sub_cancel, top, Except.map, ← total]
      rfl
  case coinbase =>
    refine ⟨{ height := count + 1, amounts := (emptyMinerTx (count + 1)).vout.map (·.amount) },
      emission count, ?_, ?_, ?_, (add_reward_emission count).symm⟩
    · rw [timedLedger_length]
      exact timedBlock_prevalidated easy unlock
    · rw [timedLedger_length]
      exact timedLedger_top _ _ count (timedLedger_coins count)
    · have weight : rule6 (count + 1) 100 = true := by
        have least : 100 ≤ minimumBlockSizeBound := by decide
        exact decide_eq_true (le_trans least (le_max_left _ _))
      have balanced : rule19 ((emptyMinerTx (count + 1)).vout.map (·.amount)) 0 (emission count) =
          true := by
        have reward := getBlockReward_le (emission count)
        have supply := moneySupply_lt
        have fits : getBlockReward (emission count) < 2 ^ 64 := by omega
        have sum : ((emptyMinerTx (count + 1)).vout.map (·.amount)).sum =
            getBlockReward (emission count) := by
          simp [emptyMinerTx]
        rw [rule19, sum64_eq (sum ▸ fits), sum, Word.add_of_lt fits]
        exact beq_self_eq_true _
      change (if count + 1 = 0 then none else if ¬ rule6 (count + 1) 100 = true then none else
        if ¬ rule19 ((emptyMinerTx (count + 1)).vout.map (·.amount)) 0 (emission count) = true
        then none else some _ : Option CoinbaseTx).isSome = true
      simp [weight, balanced]
  case weight => exact (easy.weight _).symm
  case hashes => rfl
  case txs => exact fun tx member => by cases member

/-- A chain of empty blocks is valid if every difficulty on the way is known. -/
theorem timedLedger_valid (genesis : work 0 = 1)
    (small : time count + blockFutureTimeLimit < 2 ^ 64)
    (known : ∀ height < count, ∃ difficulty, (ofLedger env (timedLedger env network time work height)).getDifficultyForNextBlock 0 = .ok difficulty ∧ difficulty ≠ 0 ∧ work (height + 1) = Word.add 128 difficulty (work height)) :
    Valid env extra network (timedLedger env network time work count) := by
  induction count with
  | zero => exact .genesis
  | succ count ih =>
    have lower := rising.strict.monotone (le_succ count)
    obtain ⟨difficulty, next, nonzero, total⟩ := known count (lt_succ_self count)
    rw [timedLedger_succ]
    exact .extend
      (ih (Nat.lt_of_le_of_lt (Nat.add_le_add_right lower _) small)
        fun height below => known height (lt_succ_of_lt below))
      (timedEntry_accepted easy rising small genesis next nonzero total)

end Acceptance

@[simp] theorem emptyLedger_length {work : Nat → Nat} (count : Nat) :
    (emptyLedger env network work count).length = count + 1 :=
  timedLedger_length count

/-! ## The first blocks -/

/-- The cumulative difficulty while the difficulty is fixed. -/
def bootstrapWork (height : Nat) : Nat :=
  1 + bootstrapDifficulty * height

theorem getDifficultyForNextBlock_bootstrap {ledger : Ledger} (nonempty : ledger ≠ [])
    (low : ledger.length < lwmaStartHeight) :
    (ofLedger env ledger).getDifficultyForNextBlock 0 = .ok bootstrapDifficulty := by
  have height : (ofLedger env ledger).height = ledger.length := ofLedger_height env ledger
  have positive : 1 ≤ ledger.length := length_pos_of_ne_nil nonempty
  rw [getDifficultyForNextBlock_eq (ofLedger_aligned env ledger) (height ▸ positive), height]
  unfold nextDifficulty
  rw [if_neg (by simp), if_neg (ne_of_gt positive), if_pos low]
  rfl

variable {extra : Transaction → Prop}

/-- A chain of empty blocks below the height at which the difficulty starts to move. -/
theorem timedLedger_bootstrap_valid (easy : env.Easy) {time : Nat → Nat} (rising : Rising time)
    {count : Nat} (low : count < lwmaStartHeight)
    (small : time count + blockFutureTimeLimit < 2 ^ 64) :
    Valid env extra network (timedLedger env network time bootstrapWork count) := by
  refine timedLedger_valid easy rising rfl small fun height below => ?_
  refine ⟨bootstrapDifficulty, getDifficultyForNextBlock_bootstrap (cons_ne_nil _ _) ?_,
    by decide, ?_⟩
  · rw [timedLedger_length]
    exact lt_of_le_of_lt below low
  · have fits : bootstrapDifficulty + bootstrapWork height < 2 ^ 128 := by
      have high : height < 147 := lt_trans below low
      have value : bootstrapDifficulty = 1048576 := by decide
      simp only [bootstrapWork, value]
      omega
    rw [Word.add_of_lt fits, bootstrapWork, bootstrapWork]
    ring

theorem emptyLedger_bootstrap_valid (easy : env.Easy) {count : Nat}
    (low : count < lwmaStartHeight) :
    Valid env extra network (emptyLedger env network bootstrapWork count) := by
  refine timedLedger_bootstrap_valid easy blockTime_rising low ?_
  simp only [blockTime, difficultyTargetInSeconds, blockFutureTimeLimit, lwmaStartHeight,
    difficultyWindowInBlocks] at low ⊢
  omega

/-! ## Transactions on such a chain -/

/-- The hash of the first transaction of a list; the hashes of miner transactions are lower. -/
def firstNumber : Nat := 1000

/-- A number for every value, the position for the values of a list. -/
def numbering {α : Type} [DecidableEq α] [Encodable α] (items : List α) (item : α) : Nat :=
  if item ∈ items then items.idxOf item else items.length + Encodable.encode item

theorem numbering_injective {α : Type} [DecidableEq α] [Encodable α] {items : List α} {a b : α}
    (same : numbering items a = numbering items b) : a = b := by
  unfold numbering at same
  split at same <;> split at same
  · rename_i first _
    exact (idxOf_inj first).mp same
  · rename_i first _
    exact absurd (same ▸ idxOf_lt_length_of_mem first) (by simp)
  · rename_i second
    exact absurd (same ▸ idxOf_lt_length_of_mem second) (by simp)
  · exact Encodable.encode_injective (add_left_cancel same)

/-- `cyclicEnv` with hashes that number the transactions of a list, a bound for the pool and a
late clock. -/
def numberedEnv (txs : List Transaction) (poolWeight : Nat) : Env :=
  { cyclicEnv with
    getTransactionHash := fun tx =>
      if tx.ringct.type = .null then tx.unlockHeight else firstNumber + numbering txs tx
    getTransactionPrefixHash := fun tx => numbering (txs.map (·.vin)) tx.vin
    txpoolMaxWeight := poolWeight
    clock := fun reading => 1000000 + reading }

variable (txs : List Transaction) (poolWeight : Nat)

theorem numberedEnv_binding :
    (numberedEnv txs poolWeight).Binding where
  transaction := by
    intro a b _ _ first second same
    simp only [numberedEnv, first, second] at same
    exact numbering_injective (add_left_cancel same)
  inputs := fun _ _ same => numbering_injective same
  mining := plainEnv_binding.mining

theorem numberedEnv_easy :
    (numberedEnv txs poolWeight).Easy where
  fixedDifficulty := rfl
  mining := fun _ => rfl
  blockHash := fun _ => rfl
  minerHash := fun _ type => if_pos type
  weight := fun _ => rfl
  point := (by decide +kernel : cyclicEnv.isValidPoint (identity + 1) = true)

/-- A transaction with a ring at the given offsets and a signature that starts with `c1`. -/
def ringTx (image : EcPoint) (offsets : List Nat) (c1 : EcScalar) : Transaction :=
  { version := txVersion
    unlockHeight := 0
    vin := [.fromKey { amount := 0, outputRelativeOffsets := offsets, outputKeyImage := image }]
    vout := List.replicate 2 { amount := 0, outputPublicKey := identity + 1 }
    extra := []
    ringct :=
      { type := .clsag
        ecdhEncryptedData := [0, 0]
        outputCommits := [identity + 1, identity + 1]
        fee := 30000000
        p :=
          { bulletproofs := [sampleProof]
            clsags :=
              [{ s := List.replicate (mixin + 1) 1
                 c1 := c1
                 blindingFactorSurplusKeyImage := identity + 1 }]
            pseudoInputCommits := [identity + 60000002] } } }

/-- A chain on which the outputs of the first block can be spent. -/
def spendableLedger (env : Env) : Ledger :=
  emptyLedger env mainnet bootstrapWork 61

theorem spendableLedger_valid :
    Valid (numberedEnv txs poolWeight) extra mainnet
      (spendableLedger (numberedEnv txs poolWeight)) :=
  emptyLedger_bootstrap_valid (numberedEnv_easy _ _) (by decide)

end Memero
