import Memero.Blockchain.Rings
import Memero.Node.EmptyBlocks

/-!
# Members of a ring

The checks on the members of a ring are made on the relative offsets: all of them but the first
are non-zero. That makes the members different as long as the running sums of the offsets stay
below `2 ^ 64`, and only then.
-/

namespace Memero

open List Nat ChainTables

open ChainTables (ofLedger)

/-! ## Distinct members -/

/-- The ring of an input consists of as many different outputs as the mixin asks for, in
increasing order. -/
structure RingDistinct (input : TxinFromKey) : Prop where
  size : (relativeOutputOffsetsToAbsolute input.outputRelativeOffsets).length = mixin + 1
  increasing : (relativeOutputOffsetsToAbsolute input.outputRelativeOffsets).Pairwise (· < ·)
  distinct : (relativeOutputOffsetsToAbsolute input.outputRelativeOffsets).Nodup

/-- Non-zero offsets with a small sum are few. -/
theorem length_le_of_rule7 {offsets : List Nat} (nonzero : rule7 offsets = true) :
    offsets.length ≤ offsets.sum + 1 := by
  cases offsets with
  | nil => exact zero_le _
  | cons first rest =>
    simp only [rule7, all_eq_true, decide_eq_true_eq] at nonzero
    have few : rest.length ≤ rest.sum :=
      length_le_sum_of_one_le rest fun offset member =>
        one_le_iff_ne_zero.mpr (nonzero offset member)
    simp only [length_cons, sum_cons]
    omega

variable {env : Env} {tx : Transaction} {input : TxinFromKey} {db : ChainTables}
  {scanTable : ScanTable} {uninit : Uninit}

theorem rule7_of_semantic {txFromBlock : Bool}
    (semantic : env.checkRingctSemantic tx txFromBlock = true)
    (member : TxIn.fromKey input ∈ tx.vin) : rule7 input.outputRelativeOffsets = true := by
  simp only [Env.checkRingctSemantic, Bool.and_eq_true] at semantic
  have different := semantic.1.2
  simp only [checkRingctInputsRingMembersDiff, all_eq_true] at different
  exact different _ member

theorem mixin_of_checkRingctInputs {used : Nat}
    (accepted : db.checkRingctInputs env scanTable uninit tx = .ok (some used))
    (member : TxIn.fromKey input ∈ tx.vin) :
    Word.sub 64 input.outputRelativeOffsets.length 1 = mixin := by
  obtain ⟨data, collected, -⟩ := collected_of_checkRingctInputs accepted
  obtain ⟨inputs, gathered⟩ := collectedRingct collected
  rw [vin_of_typed gathered.typed] at member
  obtain ⟨other, listed, same⟩ := mem_map.mp member
  cases same
  exact gathered.mixins _ listed

/-- The ring of an input of a transaction that `check_ringct_semantic` and
`check_ringct_inputs` accept has distinct members in increasing order exactly if the sum of the
offsets fits in 64 bits. -/
theorem ring_members_distinct_iff {env : Env} {db : ChainTables} {scanTable : ScanTable}
    {uninit : Uninit} {tx : Transaction} {txFromBlock : Bool} {used : Nat}
    (semantic : env.checkRingctSemantic tx txFromBlock = true)
    (accepted : db.checkRingctInputs env scanTable uninit tx = .ok (some used))
    {input : TxinFromKey} (member : TxIn.fromKey input ∈ tx.vin)
    (words : ∀ offset ∈ input.outputRelativeOffsets, offset < 2 ^ 64) :
    RingDistinct input ↔ input.outputRelativeOffsets.sum < 2 ^ 64 := by
  have nonzero := rule7_of_semantic semantic member
  have increasing_iff :=
    relativeOutputOffsetsToAbsolute_increasing_iff words nonzero
  constructor
  · intro distinct
    exact increasing_iff.mp distinct.increasing
  · intro fits
    have increasing := increasing_iff.mpr fits
    have few := length_le_of_rule7 nonzero
    have size : input.outputRelativeOffsets.length = mixin + 1 :=
      length_of_mixin (mixin_of_checkRingctInputs accepted member) (by omega)
    refine ⟨?_, increasing, increasing.imp ne_of_lt⟩
    rw [relativeOutputOffsetsToAbsolute_length, size]

/-- A transaction with a ring of the 32 outputs of the first block. -/
def distinctTx : Transaction :=
  ringTx (identity + 2) (0 :: List.replicate mixin 1) 2

/-- Its input. -/
def distinctInput : TxinFromKey :=
  { amount := 0
    outputRelativeOffsets := 0 :: List.replicate mixin 1
    outputKeyImage := identity + 2 }

theorem ring_members_distinct_first_block :
    Valid (numberedEnv [distinctTx] 1000) (fun _ => True) mainnet
        (spendableLedger (numberedEnv [distinctTx] 1000)) ∧ RingDistinct distinctInput := by
  refine ⟨spendableLedger_valid _ _, ?_⟩
  have semantic : (numberedEnv [distinctTx] 1000).checkRingctSemantic distinctTx false = true := by
    decide +kernel
  have accepted : (ofLedger (numberedEnv [distinctTx] 1000)
      (spendableLedger (numberedEnv [distinctTx] 1000))).checkRingctInputs
        (numberedEnv [distinctTx] 1000) [] (fun _ => 0) distinctTx = .ok (some 1) := by
    decide +kernel
  exact (ring_members_distinct_iff semantic accepted mem_cons_self (by decide)).mpr (by decide)

/-- A transaction with a ring that goes back and forth between two outputs. -/
def repeatingTx : Transaction :=
  ringTx (identity + 2) (0 :: (List.replicate 15 [1, 2 ^ 64 - 1]).flatten ++ [1]) 2

/-- It is accepted on a chain of accepted blocks, and its ring has two members. -/
theorem ring_members_repeat :
    Valid (numberedEnv [repeatingTx] 1000) (fun _ => True) mainnet
        (spendableLedger (numberedEnv [repeatingTx] 1000)) ∧
      (numberedEnv [repeatingTx] 1000).checkRingctSemantic repeatingTx false = true ∧
      (ofLedger (numberedEnv [repeatingTx] 1000)
        (spendableLedger (numberedEnv [repeatingTx] 1000))).checkRingctInputs
          (numberedEnv [repeatingTx] 1000) [] (fun _ => 0) repeatingTx = .ok (some 1) ∧
      (repeatingTx.vin.filterMap TxIn.fromKey?).map (fun input =>
        (relativeOutputOffsetsToAbsolute input.outputRelativeOffsets).dedup) = [[0, 1]] :=
  ⟨spendableLedger_valid _ _, by decide +kernel, by decide +kernel, by decide +kernel⟩

/-! ## The age of the members

The age test looks at the last member of a ring only. On a chain of blocks an output with a
larger index is not lower, so that member is the youngest as long as the indices ascend. -/

/-- Every member of the ring of an input is old enough, and its unlock height is reached. -/
def RingAged (env : Env) (db : ChainTables) (input : TxinFromKey) : Prop :=
  ∀ index ∈ relativeOutputOffsetsToAbsolute input.outputRelativeOffsets, ∃ output,
    db.getOutputKey env input.amount index = some output ∧
      output.height + defaultTxSpendableAge ≤ db.height ∧ output.unlockHeight ≤ db.height

/-- The member with the largest index is old enough. -/
def LargestIndexAged (env : Env) (db : ChainTables) (input : TxinFromKey) : Prop :=
  ∀ output, db.getOutputKey env input.amount
      ((relativeOutputOffsetsToAbsolute input.outputRelativeOffsets).foldl max 0) =
        some output → output.height + defaultTxSpendableAge ≤ db.height

/-- A ring as `check_ringct_inputs` has seen it. -/
structure RingSeen (env : Env) (db : ChainTables) (input : TxinFromKey) : Prop where
  members : ∀ index ∈ relativeOutputOffsetsToAbsolute input.outputRelativeOffsets, ∃ output,
    db.getOutputKey env input.amount index = some output ∧ output.unlockHeight ≤ db.height
  last : ∃ index output,
    (relativeOutputOffsetsToAbsolute input.outputRelativeOffsets).getLast? = some index ∧
      db.getOutputKey env input.amount index = some output ∧
        output.height + defaultTxSpendableAge ≤ db.height

theorem keyImages_nodup_of_checkRingctInputs {used : Nat}
    (accepted : db.checkRingctInputs env scanTable uninit tx = .ok (some used)) :
    tx.keyImages.Nodup := by
  obtain ⟨data, collected, -⟩ := collected_of_checkRingctInputs accepted
  obtain ⟨inputs, rings, -, checked, -⟩ := inputsChecked collected
  rw [Transaction.keyImages, keyImages_of_typed checked.typed]
  exact (rule18_pairwise checked.sorted).imp ne_of_gt

theorem unlocked_le {unlockHeight : Nat} (unlocked : db.isTxSpendtimeUnlocked unlockHeight = true) :
    unlockHeight ≤ db.height := by
  rcases (Bool.or_eq_true _ _).mp unlocked with zero | reached
  · rw [beq_iff_eq.mp zero]
    exact zero_le _
  · exact le_of_lt_succ (of_decide_eq_true reached)

/-- What `check_ringct_inputs` guarantees of every ring on a chain of blocks. -/
theorem ringSeen_of_checkRingctInputs (binding : env.Binding) {ledger : Ledger}
    (heights : ledger.length + defaultTxSpendableAge ≤ 2 ^ 64)
    (agrees : (ofLedger env ledger).Agrees env scanTable) {used : Nat}
    (accepted : (ofLedger env ledger).checkRingctInputs env scanTable uninit tx = .ok (some used))
    (member : TxIn.fromKey input ∈ tx.vin) : RingSeen env (ofLedger env ledger) input := by
  have distinct := keyImages_nodup_of_checkRingctInputs accepted
  rw [checkRingctInputs_eq agrees binding.inputs distinct] at accepted
  obtain ⟨data, collected, -⟩ := collected_of_checkRingctInputs accepted
  obtain ⟨inputs, rings, -, checked, -⟩ := inputsChecked collected
  rw [vin_of_typed checked.typed] at member
  obtain ⟨other, listed, same⟩ := mem_map.mp member
  cases same
  obtain ⟨ring, scanned, notAbove⟩ := (checkInputs_scanned checked.scanned).2 _ listed
  obtain ⟨nonempty, visited, ringAt, lastHeight⟩ := ringAt_of_scan scanned
  have members := ringAt_members ringAt
  have found : ∀ (position : Nat) (bound : position <
      (relativeOutputOffsetsToAbsolute input.outputRelativeOffsets).length) (visitedBound :
      position < visited.length), (ofLedger env ledger).getOutputKey env input.amount
        (relativeOutputOffsetsToAbsolute input.outputRelativeOffsets)[position] =
          some visited[position] ∧
        visited[position].unlockHeight ≤ (ofLedger env ledger).height := by
    intro position bound visitedBound
    have related := members.get bound visitedBound
    exact ⟨related.1, unlocked_le related.2⟩
  constructor
  case members =>
    intro index present
    obtain ⟨position, bound, rfl⟩ := mem_iff_getElem.mp present
    exact ⟨_, found position bound (members.length_eq ▸ bound)⟩
  case last =>
    obtain ⟨index, output, last, located, height⟩ := lastMember_of_scan scanned
    have ascending := ofLedger_ascending env ledger
    have exists_block := ascending.height_lt located
    have low : used ≤ ledger.length - 1 := by
      refine checkInputs_le checked.scanned (zero_le _) fun other otherRing seen => ?_
      obtain ⟨_, otherOutput, -, otherLocated, otherHeight⟩ := lastMember_of_scan seen
      have below := ascending.height_lt otherLocated
      omega
    have aged := checked.aged
    rw [Word.add_of_lt (by omega)] at aged
    exact ⟨index, output, last, located, by omega⟩

/-- The members of a ring are old enough and unlocked exactly if the sum of the offsets fits in
64 bits or the member with the largest index is old enough. -/
theorem ring_members_aged_iff {env : Env} (binding : env.Binding) {ledger : Ledger}
    (heights : ledger.length + defaultTxSpendableAge ≤ 2 ^ 64) {scanTable : ScanTable}
    (agrees : (ofLedger env ledger).Agrees env scanTable) {uninit : Uninit} {tx : Transaction}
    {used : Nat}
    (accepted : (ofLedger env ledger).checkRingctInputs env scanTable uninit tx =
      .ok (some used)) {input : TxinFromKey} (member : TxIn.fromKey input ∈ tx.vin) :
    RingAged env (ofLedger env ledger) input ↔
      input.outputRelativeOffsets.sum < 2 ^ 64 ∨
        LargestIndexAged env (ofLedger env ledger) input := by
  have seen := ringSeen_of_checkRingctInputs binding heights agrees accepted member
  have ascending := ofLedger_ascending env ledger
  obtain ⟨lastIndex, lastOutput, last, lastFound, lastAged⟩ := seen.last
  -- all members are as old as one whose index no other member exceeds
  have all_aged : ∀ index output, (ofLedger env ledger).getOutputKey env input.amount index =
      some output → output.height + defaultTxSpendableAge ≤ (ofLedger env ledger).height →
      (∀ other ∈ relativeOutputOffsetsToAbsolute input.outputRelativeOffsets, other ≤ index) →
      RingAged env (ofLedger env ledger) input := by
    intro index output found aged largest other present
    obtain ⟨otherOutput, otherFound, unlocked⟩ := seen.members other present
    have lower := ascending.height_le otherFound found (largest other present)
    exact ⟨otherOutput, otherFound, Nat.le_trans (Nat.add_le_add_right lower _) aged, unlocked⟩
  have nonempty : relativeOutputOffsetsToAbsolute input.outputRelativeOffsets ≠ [] := by
    intro empty
    rw [empty] at last
    cases last
  have largest := foldl_max_mem nonempty
  constructor
  · intro aged
    refine .inr fun output found => ?_
    obtain ⟨same, sameFound, old, -⟩ := aged _ largest
    rw [found] at sameFound
    cases sameFound
    exact old
  · rintro (fits | aged)
    · apply all_aged lastIndex lastOutput lastFound lastAged
      intro other present
      obtain ⟨front, split⟩ := getLast?_eq_some_iff.mp last
      have sorted := relativeOutputOffsetsToAbsolute_ascending fits
      rw [split] at sorted present
      rcases mem_append.mp present with earlier | same
      · exact (pairwise_append.mp sorted).2.2 other earlier lastIndex mem_cons_self
      · exact le_of_eq (mem_singleton.mp same)
    · obtain ⟨output, found, -⟩ := seen.members _ largest
      exact all_aged _ output found (aged output found) fun other present =>
        le_foldl_max present

theorem ring_members_aged_first_block :
    RingAged (numberedEnv [distinctTx] 1000) (ofLedger (numberedEnv [distinctTx] 1000)
      (spendableLedger (numberedEnv [distinctTx] 1000))) distinctInput := by
  have accepted : (ofLedger (numberedEnv [distinctTx] 1000)
      (spendableLedger (numberedEnv [distinctTx] 1000))).checkRingctInputs
        (numberedEnv [distinctTx] 1000) [] (fun _ => 0) distinctTx = .ok (some 1) := by
    decide +kernel
  exact (ring_members_aged_iff (numberedEnv_binding _ _) (by decide) ChainTables.Agrees.nil
    accepted mem_cons_self).mpr (.inl (by decide))

/-! A block with a transaction, and a ring that starts with an output of that transaction. -/

/-- A transaction whose ring goes from output 93 back to output 0 and up from there. -/
def reachingTx : Transaction :=
  ringTx (identity + 4) (93 :: (2 ^ 64 - 93) :: List.replicate 30 1) 2

/-- An environment that knows the two transactions. -/
def agingEnv : Env :=
  numberedEnv [distinctTx, reachingTx] 1000

/-- A block on the chain of empty blocks with the first transaction. -/
def spendingEntry : Entry :=
  { emptyEntry 62 (bootstrapWork 62) with
    block :=
      { emptyBlock 62 with
        minerTx :=
          { emptyMinerTx 62 with
            vout :=
              [{ amount := getBlockReward (emission 61) + 30000000
                 outputPublicKey := identity + 1 }] }
        txHashes := [firstNumber] }
    txs := [distinctTx]
    weight := 200 }

theorem spendingEntry_accepted :
    Accepted agingEnv (fun _ => True) (spendableLedger agingEnv) spendingEntry := by
  constructor
  case fresh =>
    have aligned := ofLedger_aligned agingEnv (spendableLedger agingEnv)
    exact blockFresh_of_addBlock aligned (by decide +kernel)
  case parent => exact timedLedger_topBlockHash (numberedEnv_easy _ _) blockTime_rising 61
  case timely => exact ⟨blockTime 62, by decide +kernel⟩
  case work =>
    refine ⟨bootstrapDifficulty, ?_, by decide, by decide, by decide +kernel⟩
    exact getDifficultyForNextBlock_bootstrap (cons_ne_nil _ _) (by decide)
  case coinbase =>
    refine ⟨{ height := 62, amounts := [getBlockReward (emission 61) + 30000000] }, emission 61,
      ?_, ?_, ?_, ?_⟩ <;> decide +kernel
  case weight => rfl
  case hashes => decide +kernel
  case txs =>
    intro tx member
    cases mem_singleton.mp member
    constructor
    case admitted =>
      refine ⟨rfl, rfl, ⟨false, ?_⟩, ⟨fun _ => 0, fun _ => 0, ?_⟩, trivial⟩ <;> decide +kernel
    case inputs => exact ⟨fun _ => 0, 1, by decide +kernel⟩
    case outputs => decide +kernel

/-- The second transaction is accepted on the block after that, and the first member of its
ring is one block old. -/
theorem ring_member_young :
    Valid agingEnv (fun _ => True) mainnet (spendableLedger agingEnv ++ [spendingEntry]) ∧
      (ofLedger agingEnv (spendableLedger agingEnv ++ [spendingEntry])).height = 63 ∧
      (ofLedger agingEnv (spendableLedger agingEnv ++ [spendingEntry])).checkRingctInputs agingEnv
        [] (fun _ => 0) reachingTx = .ok (some 1) ∧
      (reachingTx.vin.filterMap TxIn.fromKey?).flatMap (fun input =>
        (relativeOutputOffsetsToAbsolute input.outputRelativeOffsets).take 1) = [93] ∧
      ((ofLedger agingEnv (spendableLedger agingEnv ++ [spendingEntry])).getOutputKey agingEnv 0
        93).map (·.height) = some 62 := by
  refine ⟨.extend (spendableLedger_valid _ _) spendingEntry_accepted, ?_, ?_, ?_, ?_⟩ <;>
    decide +kernel

end Memero
