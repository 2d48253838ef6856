import Memero.Lib.Word
import Memero.Crypto.Ringct
import Mathlib.Data.List.Dedup

/-!
# Consensus rules

The numbered rules of `math/consensus` that the node applies to blocks and transactions,
with the emission curve, and `maybe_coinbase_tx` of
`math/blockchain/functional/coinbase_tx.cpp`. Amounts are 64-bit words: a sum that the
program keeps in 64 bits is reduced, the sum of rule 24 is kept in 128 bits and no list of
64-bit amounts that fits in memory reaches that bound.
-/

namespace Memero

open Option

/-! ## Emission -/

/-- `get_coin_amount`. -/
def coinAmount : Nat := 100000000000

/-- `get_money_supply`. -/
def moneySupply : Nat := coinAmount * 18400000

/-- `get_emission_speed_factor`. -/
def emissionSpeedFactor : Nat := 19

/-- `get_coinbase_unlock_time`. -/
def coinbaseUnlockTime : Nat := 60

/-- `get_block_reward`. -/
def getBlockReward (alreadyGeneratedCoins : Nat) : Nat :=
  let remaining :=
    if moneySupply ≤ alreadyGeneratedCoins then 0 else moneySupply - alreadyGeneratedCoins
  remaining >>> emissionSpeedFactor

/-! ## Sizes -/

/-- `get_minimum_block_size_bound`. -/
def minimumBlockSizeBound : Nat := 128 * 1024

/-- `get_block_size_bound`. -/
def getBlockSizeBound (height : Nat) : Nat :=
  max minimumBlockSizeBound height

/-- `rule_6_block_size_should_be_bounded_by_height`. -/
def rule6 (height blockSize : Nat) : Bool :=
  decide (blockSize ≤ getBlockSizeBound height)

/-! ## Inputs of a transaction -/

/-- `rule_7_ringct_input_decoys_offsets_should_not_be_zero_except_the_first_one`. -/
def rule7 (offsets : List Nat) : Bool :=
  offsets.tail.all (· ≠ 0)

/-- `rule_8_ringct_input_key_images_should_be_unique`. -/
def rule8 (xs : List KeyImage) : Bool :=
  decide (xs.dedup.length = xs.length)

/-- `are_ringct_input_types_valid`. -/
def areRingctInputTypesValid (xs : List TxIn) : Option (List TxinFromKey) :=
  xs.mapM TxIn.fromKey?

/-- `rule_18_ringct_input_key_images_should_be_sorted`: with `greater_equal` as the
order, sorted means strictly decreasing. -/
def rule18 : List KeyImage → Bool
  | [] => true
  | [_] => true
  | x :: y :: rest => !decide (x ≤ y) && rule18 (y :: rest)

theorem rule18_pairwise {xs : List KeyImage} (sorted : rule18 xs = true) : xs.Pairwise (· > ·) := by
  rw [← List.isChain_iff_pairwise]
  induction xs using rule18.induct with
  | case1 => exact .nil
  | case2 x => exact .singleton x
  | case3 x y rest ih =>
    simp only [rule18, Bool.and_eq_true, Bool.not_eq_true', decide_eq_false_iff_not] at sorted
    exact .cons_cons (Nat.lt_of_not_le sorted.1) (ih sorted.2)

/-- `rule_21_ringct_should_have_at_least_two_outputs`. -/
def rule21 (xs : List TxOut) : Bool :=
  decide (2 ≤ xs.length)

/-- `rule_25_ringct_should_have_at_least_one_input`. -/
def rule25 (xs : List TxIn) : Bool :=
  !xs.isEmpty

/-! ## Coinbase -/

/-- The sum of 64-bit amounts in 64 bits. -/
def sum64 (xs : List Nat) : Nat :=
  xs.foldl (Word.add 64) 0

/-- `rule_19_coinbase_tx_should_be_balanced`. -/
def rule19 (xs : List Nat) (fee alreadyGeneratedCoins : Nat) : Bool :=
  Word.add 64 (getBlockReward alreadyGeneratedCoins) fee == sum64 xs

/-- `rule_20_coinbase_outputs_are_locked_for_60_blocks`. -/
def rule20 (height unlockHeight : Nat) : Bool :=
  Word.add 64 height coinbaseUnlockTime == unlockHeight

/-- `rule_24_coinbase_output_amount_sum_should_not_overflow_amount_t`. -/
def rule24 (xs : List Nat) : Option Nat :=
  if xs.sum ≤ 2 ^ 64 - 1 then some xs.sum else none

/-- `coinbase_tx`. -/
structure CoinbaseTx where
  height : Nat
  amounts : List Nat
  deriving DecidableEq, Repr

namespace Env

variable (env : Env)

/-- `check_tx_output_points`. -/
def checkTxOutputPoints (tx : Transaction) : Option (List EcPoint) :=
  env.arePointsSafe (tx.vout.map (·.outputPublicKey))

/-- `check_ringct_points`. -/
def checkRingctPoints (tx : Transaction) : Bool :=
  (env.arePointsSafe tx.ringct.outputCommits).isSome &&
    (env.arePointsSafe tx.ringct.p.pseudoInputCommits).isSome

/-- `maybe_coinbase_tx`. -/
def maybeCoinbaseTx (tx : Transaction) : Option CoinbaseTx :=
  if tx.version ≠ 2 then
    none
  else if tx.ringct.type ≠ .null then
    none
  else
    match tx.vin with
    | [.gen height] =>
      if (env.checkTxOutputPoints tx).isNone then
        none
      else if (rule24 (tx.vout.map (·.amount))).isNone then
        none
      else if ¬ rule20 height tx.unlockHeight then
        none
      else
        some { height := height, amounts := tx.vout.map (·.amount) }
    | _ => none

/-- `prevalidate_miner_transaction`. -/
def prevalidateMinerTransaction (b : Block) (height : Nat) : Option CoinbaseTx :=
  if height = 0 then
    none
  else
    match env.maybeCoinbaseTx b.minerTx with
    | none => none
    | some coinbase => if coinbase.height = height then some coinbase else none

end Env

/-- What `prevalidate_miner_transaction` has found out about a miner transaction. -/
structure MinerChecked (env : Env) (tx : Transaction) (height : Nat) (coinbase : CoinbaseTx) :
    Prop where
  positive : height ≠ 0
  version : tx.version = 2
  inputs : tx.vin = [.gen height]
  points : (env.checkTxOutputPoints tx).isSome = true
  amounts : coinbase.amounts = tx.vout.map (·.amount)
  bounded : coinbase.amounts.sum < 2 ^ 64

theorem rule24_isSome {amounts : List Nat} (fits : (rule24 amounts).isSome = true) :
    amounts.sum < 2 ^ 64 := by
  unfold rule24 at fits
  split at fits
  · rename_i bounded
    exact Nat.lt_of_le_of_lt bounded (by decide)
  · cases fits

theorem Env.minerChecked_of_prevalidate {env : Env} {b : Block} {height : Nat}
    {coinbase : CoinbaseTx}
    (prevalidated : env.prevalidateMinerTransaction b height = some coinbase) :
    MinerChecked env b.minerTx height coinbase := by
  simp only [prevalidateMinerTransaction, ite_none_left_eq_some] at prevalidated
  obtain ⟨positive, prevalidated⟩ := prevalidated
  cases parsed : env.maybeCoinbaseTx b.minerTx with
  | none => simp [parsed] at prevalidated
  | some found =>
    simp only [parsed, ite_none_right_eq_some, some.injEq] at prevalidated
    obtain ⟨sameHeight, rfl⟩ := prevalidated
    simp only [maybeCoinbaseTx, ite_none_left_eq_some, not_not] at parsed
    obtain ⟨version, -, parsed⟩ := parsed
    split at parsed
    · rename_i inputHeight inputs
      simp only [ite_none_left_eq_some, some.injEq, Bool.not_eq_true, isNone_eq_false_iff] at parsed
      obtain ⟨points, fits, -, rfl⟩ := parsed
      exact ⟨positive, version, by rw [inputs, ← sameHeight], points, rfl, rule24_isSome fits⟩
    · cases parsed

/-- `validate_miner_transaction`. -/
def validateMinerTransaction (height : Nat) (tx : CoinbaseTx)
    (cumulativeBlockWeight fee alreadyGeneratedCoins : Nat) : Option CoinbaseTx :=
  if height = 0 then
    none
  else if ¬ rule6 height cumulativeBlockWeight then
    none
  else if ¬ rule19 tx.amounts fee alreadyGeneratedCoins then
    none
  else
    some tx

end Memero
