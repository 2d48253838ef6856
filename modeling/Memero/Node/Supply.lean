import Memero.Node.Run

/-!
# The supply of coins

The coins recorded for a block follow the emission curve of the height, whatever the chain,
and the curve stays below the supply. The outputs of a miner transaction exceed the reward by
no more than the fees: the program compares sums that may have wrapped, but the sum of the
outputs is known not to, and wrapping only makes the other side smaller.
-/

namespace Memero

open List Nat ChainTables Word

open ChainTables (ofLedger)

/-! ## The chain that counts -/

/-- The tables of the main chain: those committed, and those of the active batch unless it has
failed, in which case it will be aborted. -/
def Node.MainChain (node : Node) (chain : ChainTables) : Prop :=
  (∃ tables, node.batch = some tables ∧ chain = tables.chain) ∨
    (node.batch = none ∨ node.batchSuccess = true) ∧ chain = node.chain

/-- Every call is allowed. -/
def anyCall : Node → Command → Prop :=
  fun _ _ => True

section Supply

variable {env : Env} {extra : Transaction → Prop} {network : Network}
variable {node : Node} {chain : ChainTables} {amounts : List Nat}

theorem Node.Between.held (between : node.Between env extra network) (main : node.MainChain chain) :
    Held env extra network chain := by
  rcases main with ⟨tables, active, rfl⟩ | ⟨trusted, rfl⟩
  · exact (between.busy tables active).2.held
  · cases active : node.batch with
    | none =>
      obtain ⟨ledger, valid, holds, -⟩ := (between.idle active).1.sound trivial
      exact ⟨ledger, valid, holds⟩
    | some tables =>
      have success : node.batchSuccess = true := by
        rcases trusted with none | success
        · rw [active] at none
          cases none
        · exact success
      obtain ⟨ledger, valid, holds, -⟩ := (between.busy tables active).1.sound success
      exact ⟨ledger, valid, holds⟩

theorem anyCall_supplied (node : Node) (command : Command) :
    command.Supplied env (fun _ => True) node := by
  cases command with
  | incoming blobs txRelay relayed => exact fun _ _ _ _ => trivial
  | _ => trivial

/-- A run with any calls leaves valid ledgers. -/
theorem Run.held (binding : env.Binding) (run : Run env network anyCall node)
    (main : node.MainChain chain) : Held env (fun _ => True) network chain :=
  (run.between binding fun node command _ => anyCall_supplied node command).held main

/-! ## The emission curve -/

/-- The coins generated up to a height. -/
def emission : Nat → Nat
  | 0 => getBlockReward 0
  | height + 1 => emission height + getBlockReward (emission height)

theorem getBlockReward_le (coins : Nat) : getBlockReward coins ≤ moneySupply - coins := by
  unfold getBlockReward
  rw [shiftRight_eq_div_pow]
  refine le_trans (div_le_self _ _) ?_
  split
  · exact zero_le _
  · exact le_refl _

theorem emission_le_moneySupply (height : Nat) : emission height ≤ moneySupply := by
  induction height with
  | zero => exact getBlockReward_le 0
  | succ height ih =>
    calc emission height + getBlockReward (emission height)
        ≤ emission height + (moneySupply - emission height) :=
          Nat.add_le_add_left (getBlockReward_le _) _
      _ = moneySupply := add_sub_of_le ih

theorem moneySupply_lt : moneySupply < 2 ^ 64 := by
  decide

/-- The 64-bit sum of the recorded coins and the reward is the sum. -/
theorem add_reward_emission (height : Nat) :
    add 64 (emission height) (getBlockReward (emission height)) = emission (height + 1) :=
  add_of_lt (lt_of_le_of_lt (emission_le_moneySupply (height + 1)) moneySupply_lt)

/-! ## Recorded coins -/

variable {ledger : Ledger}
variable {height : Nat} {entry : Entry}

theorem getBlockAlreadyGeneratedCoins_ofLedger {coins : Nat}
    (read : (ofLedger env ledger).getBlockAlreadyGeneratedCoins height = .ok coins) :
    ∃ entry, ledger[height]? = some entry ∧ entry.alreadyGeneratedCoins = coins := by
  have recorded := ofLedger_blockInfo_map env ledger (·.coins)
    (·.alreadyGeneratedCoins) fun _ _ => rfl
  have row : ((ofLedger env ledger).blockInfo.map (·.coins))[height]? = some coins := by
    unfold getBlockAlreadyGeneratedCoins getBlockInfo at read
    cases found : (ofLedger env ledger).blockInfo[height]? with
    | none => simp [found, Except.map] at read
    | some info => simpa [found, Except.map] using read
  rw [recorded, getElem?_map] at row
  exact Option.map_eq_some_iff.mp row

/-- The lowest block is the genesis block. -/
theorem Valid.first (valid : Valid env extra network ledger) :
    ledger[0]? = some (genesisEntry env network) := by
  induction valid with
  | genesis => rfl
  | extend valid accepted ih =>
    rw [getElem?_append_left (length_pos_of_ne_nil valid.ne_nil)]
    exact ih

/-- The coins recorded for a block depend only on its height. -/
theorem Valid.coins_eq_emission (valid : Valid env extra network ledger)
    (found : ledger[height]? = some entry) : entry.alreadyGeneratedCoins = emission height := by
  induction height generalizing entry with
  | zero =>
    rw [valid.first] at found
    cases found
    rfl
  | succ height ih =>
    have accepted := valid.accepted (succ_pos height) found
    obtain ⟨coinbase, coinsBefore, -, before, -, coins⟩ := accepted.coinbase
    have bound : height + 1 < ledger.length := (List.getElem?_eq_some_iff.mp found).1
    have length : (ledger.take (height + 1)).length - 1 = height := by
      rw [List.length_take, Nat.min_eq_left (Nat.le_of_lt bound), Nat.add_sub_cancel]
    rw [length] at before
    obtain ⟨previous, located, recorded⟩ := getBlockAlreadyGeneratedCoins_ofLedger before
    rw [getElem?_take_of_lt (lt_succ_self height)] at located
    rw [coins, ← recorded, ih located]
    exact add_reward_emission height

/-! ## Miner transactions -/

/-- The outputs of the miner transaction of a block. -/
def Entry.coinbaseOutputs (entry : Entry) : Nat :=
  (entry.block.minerTx.vout.map (·.amount)).sum

/-- The fees of the transactions of a block. -/
def Entry.fees (entry : Entry) : Nat :=
  (entry.txs.map getTxFee).sum

theorem foldl_add_le (amounts : List Nat) (start : Nat) :
    amounts.foldl (add 64) start ≤ start + amounts.sum := by
  induction amounts generalizing start with
  | nil => exact le_refl _
  | cons amount rest ih =>
    rw [sum_cons, ← add_assoc]
    exact Nat.le_trans (ih _) (Nat.add_le_add_right (Word.add_le _ _) _)

theorem foldl_add_eq {start : Nat} (fits : start + amounts.sum < 2 ^ 64) :
    amounts.foldl (add 64) start = start + amounts.sum := by
  induction amounts generalizing start with
  | nil => rfl
  | cons amount rest ih =>
    rw [sum_cons, ← add_assoc] at fits
    have small : add 64 start amount = start + amount :=
      add_of_lt (lt_of_le_of_lt (le_add_right _ _) fits)
    rw [foldl_cons, small, ih fits, sum_cons, add_assoc]

theorem sum64_le (amounts : List Nat) : sum64 amounts ≤ amounts.sum := by
  simpa [sum64] using foldl_add_le amounts 0

theorem sum64_eq (fits : amounts.sum < 2 ^ 64) : sum64 amounts = amounts.sum := by
  have whole := @foldl_add_eq amounts 0 (by simpa using fits)
  simpa [sum64] using whole

/-- An accepted miner transaction pays no more than the reward and the fees. -/
theorem Accepted.coinbaseOutputs_le {below : Ledger} (accepted : Accepted env extra below entry) :
    ∃ coinsBefore, (ofLedger env below).getBlockAlreadyGeneratedCoins (below.length - 1) =
      .ok coinsBefore ∧ entry.coinbaseOutputs ≤ getBlockReward coinsBefore + entry.fees := by
  obtain ⟨coinbase, coinsBefore, prevalidated, before, validated, -⟩ := accepted.coinbase
  have checked := Env.minerChecked_of_prevalidate prevalidated
  refine ⟨coinsBefore, before, ?_⟩
  have balanced : rule19 coinbase.amounts (sum64 (entry.txs.map getTxFee)) coinsBefore = true := by
    unfold validateMinerTransaction at validated
    by_contra unbalanced
    simp [unbalanced] at validated
  simp only [rule19, beq_iff_eq, sum64_eq checked.bounded] at balanced
  calc entry.coinbaseOutputs
      = coinbase.amounts.sum := by rw [checked.amounts]; rfl
    _ ≤ getBlockReward coinsBefore + sum64 (entry.txs.map getTxFee) :=
        balanced ▸ add_le _ _
    _ ≤ getBlockReward coinsBefore + entry.fees := Nat.add_le_add_left (sum64_le _) _

theorem Valid.coinbaseOutputs_le (valid : Valid env extra network ledger)
    (found : ledger[height + 1]? = some entry) :
    entry.coinbaseOutputs ≤ getBlockReward (emission height) + entry.fees := by
  have bound : height + 1 < ledger.length := (List.getElem?_eq_some_iff.mp found).1
  obtain ⟨coinsBefore, before, paid⟩ :=
    (valid.accepted (succ_pos height) found).coinbaseOutputs_le
  rw [List.length_take, Nat.min_eq_left (Nat.le_of_lt bound), Nat.add_sub_cancel] at before
  obtain ⟨previous, located, recorded⟩ := getBlockAlreadyGeneratedCoins_ofLedger before
  rw [getElem?_take_of_lt (lt_succ_self height)] at located
  rw [← recorded, valid.coins_eq_emission located] at paid
  exact paid

/-- All the miner outputs of a chain are covered by the emission and the fees. -/
theorem Valid.total_le (valid : Valid env extra network ledger) :
    (ledger.map Entry.coinbaseOutputs).sum ≤
      emission (ledger.length - 1) + (ledger.map Entry.fees).sum := by
  induction valid with
  | genesis =>
    have paid : 2 ^ 40 - 1 ≤ getBlockReward 0 := by decide
    simpa [genesisEntry, generateGenesisBlock, Network.genesisTx, Entry.coinbaseOutputs,
      Entry.fees, emission] using paid
  | @extend below entry valid accepted ih =>
    obtain ⟨height, length⟩ : ∃ height, below.length = height + 1 :=
      exists_eq_succ_of_ne_zero (by simpa using valid.ne_nil)
    have paid := (Valid.extend valid accepted).coinbaseOutputs_le
      (show (below ++ [entry])[height + 1]? = some entry by simp [← length])
    rw [length, Nat.add_sub_cancel] at ih
    simp only [List.map_append, List.map_cons, List.map_nil, List.sum_append, List.sum_cons, List.length_append, List.length_cons, List.length_nil, length,
      Nat.add_sub_cancel, emission]
    omega

end Supply

end Memero
