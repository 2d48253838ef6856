import Memero.Crypto.Clsag
import Memero.Node.Supply

/-!
# Ring signatures over stored outputs

The outputs in the tables of the main chain have checked keys, and their commitments are
points: those of miner transactions are computed, the others were checked. What remains to
make the verification of a ring signature defined is what no part of the program checks: the
key image, and that no member of the ring has the commitment of the input.
-/

namespace Memero

open List Nat Env

open ChainTables (ofLedger)

section Outputs

variable {env : Env} {Γ : Type} {encode : Γ → EcPoint}

/-! ## Stored outputs -/

/-- What `add_output` is given: a checked key, and a commitment if the amount is hidden. -/
structure StoredSound (env : Env) (encode : Γ → EcPoint) (stored : TxOut × Option EcPoint) :
    Prop where
  key : env.isValidPoint stored.1.outputPublicKey = true
  amount : stored.1.amount < 2 ^ 64
  commitment : stored.1.amount = 0 → ∃ commit ∈ Set.range encode, stored.2 = some commit

/-- All rows of `output_amounts` have checked keys and commitments. -/
def ChainTables.OutputsSound (env : Env) (encode : Γ → EcPoint) (db : ChainTables) : Prop :=
  ∀ row ∈ db.outputAmounts, env.isValidPoint row.2.data.pubkey = true ∧ row.1 < 2 ^ 64 ∧
    (row.1 = 0 → ∃ commit ∈ Set.range encode, row.2.data.commitment = some commit)

namespace ChainTables.OutputsSound

variable {db : ChainTables}

theorem of_eq (sound : db.OutputsSound env encode) {after : ChainTables}
    (same : after.outputAmounts = db.outputAmounts) : after.OutputsSound env encode := by
  unfold OutputsSound
  rw [same]
  exact sound

variable {tx : Transaction}
variable (sound : db.OutputsSound env encode)
include sound

theorem pushOutputs (txHash : Hash) {index : Nat} {outs : List TxOut}
    (given : ∀ position out, outs[position]? = some out → StoredSound env encode (storedOutput env tx (index + position) out)) :
    (pushOutputs env tx txHash index outs db).OutputsSound env encode := by
  induction outs generalizing index db with
  | nil => exact sound
  | cons out rest ih =>
    have first := given 0 out rfl
    refine ih ?_ fun position next found => ?_
    · intro row member
      rcases Table.mem_put.mp member with rfl | old
      · refine ⟨first.key, first.amount, fun hidden => ?_⟩
        obtain ⟨commit, encoded, same⟩ := first.commitment hidden
        refine ⟨commit, encoded, ?_⟩
        simp only [newOutKey]
        rw [if_pos hidden]
        exact same
      · exact sound row old
    · rw [add_right_comm]
      exact given (position + 1) next found

theorem pushTransaction (txHash : Hash)
    (given : ∀ position out, tx.vout[position]? = some out → StoredSound env encode (storedOutput env tx position out)) :
    (db.pushTransaction env tx txHash).OutputsSound env encode := by
  have indexed : (db.indexTransaction tx txHash).OutputsSound env encode := sound.of_eq rfl
  refine (indexed.pushOutputs txHash fun position out found => ?_).of_eq rfl
  rw [zero_add]
  exact given position out found

theorem pushTransactions {items : List (Hash × Transaction)}
    (given : ∀ item ∈ items, ∀ position out, item.2.vout[position]? = some out → StoredSound env encode (storedOutput env item.2 position out)) :
    (db.pushTransactions env items).OutputsSound env encode := by
  induction items generalizing db with
  | nil => exact sound
  | cons item rest ih =>
    exact ih (sound.pushTransaction item.1 (given item mem_cons_self))
      fun other member => given other (mem_cons_of_mem _ member)

theorem pushBlock {entry : Entry}
    (miner : ∀ position out, entry.block.minerTx.vout[position]? = some out → StoredSound env encode (storedOutput env entry.block.minerTx position out))
    (given : ∀ tx ∈ entry.txs, ∀ position out, tx.vout[position]? = some out → StoredSound env encode (storedOutput env tx position out)) :
    (db.pushBlock env entry).OutputsSound env encode := by
  have mined := sound.pushTransaction (env.getTransactionHash entry.block.minerTx) miner
  refine (mined.pushTransactions fun item member => ?_).of_eq rfl
  exact given item.2 (of_mem_zip member).2

end ChainTables.OutputsSound

/-- A ring member that is stored in the database. -/
def ChainTables.HoldsOutput (env : Env) (db : ChainTables) (member : OutputPublicData) : Prop :=
  ∃ amount offset output, db.getOutputKey env amount offset = some output ∧
    member = { outputPublicKey := output.pubkey, commit := output.commitment.getD 0 }

/-! ## What is checked before an output is stored -/

theorem arePointsSafe_mem {points : List EcPoint}
    (safe : (env.arePointsSafe points).isSome = true) :
    ∀ point ∈ points, env.isValidPoint point = true := by
  induction points with
  | nil => simp
  | cons point rest ih =>
    simp only [Sodium.arePointsSafe] at safe ih
    cases first : env.maybeSafePoint point with
    | none => simp [first] at safe
    | some checked =>
      have valid : env.isValidPoint point = true := by
        unfold Sodium.maybeSafePoint at first
        split at first
        · assumption
        · cases first
      have others : (mapM env.maybeSafePoint rest).isSome = true := by
        cases found : mapM env.maybeSafePoint rest with
        | none => simp [found] at safe
        | some _ => rfl
      intro other member
      rcases mem_cons.mp member with rfl | member
      · exact valid
      · exact ih others other member

variable [AddCommGroup Γ] (laws : env.toSodium.Laws encode)

include laws

theorem ChainTables.OutputsSound.member {db : ChainTables} (sound : db.OutputsSound env encode)
    {member : OutputPublicData} (held : db.HoldsOutput env member) :
    member.Sound env encode := by
  obtain ⟨amount, offset, output, found, rfl⟩ := held
  obtain ⟨row, located, rfl⟩ := Option.map_eq_some_iff.mp found
  obtain ⟨entry, matched, rfl⟩ := Option.map_eq_some_iff.mp located
  have present := mem_of_find?_eq_some matched
  have keys := find?_some matched
  simp only [decide_eq_true_eq] at keys
  obtain ⟨key, bounded, commitment⟩ := sound entry present
  rw [keys.1] at bounded commitment
  split
  · rename_i hidden
    obtain ⟨commit, encoded, same⟩ := commitment hidden
    refine ⟨key, ?_⟩
    rw [same]
    exact encoded
  · obtain ⟨commit, encoded, returned⟩ := laws.dummyCommit_returns bounded
    refine ⟨key, ?_⟩
    rw [returned.value_eq]
    exact encoded

variable {tx : Transaction} {position : Nat} {out : TxOut}

/-- The outputs of a miner transaction. -/
theorem storedSound_of_minerChecked {height : Nat} {coinbase : CoinbaseTx}
    (checked : MinerChecked env tx height coinbase) (found : tx.vout[position]? = some out) :
    StoredSound env encode (storedOutput env tx position out) := by
  have member := mem_of_getElem? found
  have gen : tx.hasGenInput = true := by
    simp [Transaction.hasGenInput, checked.inputs, TxIn.keyImage?]
  have amount : out.amount < 2 ^ 64 := by
    have listed : out.amount ∈ coinbase.amounts := by
      rw [checked.amounts]
      exact mem_map_of_mem member
    exact lt_of_le_of_lt (le_sum_of_mem listed) checked.bounded
  obtain ⟨commit, encoded, returned⟩ := laws.dummyCommit_returns amount
  rw [storedOutput, if_pos ⟨gen, checked.version⟩]
  refine ⟨?_, Nat.two_pow_pos 64, fun _ => ⟨commit, encoded, ?_⟩⟩
  · exact arePointsSafe_mem checked.points _ (mem_map.mpr ⟨out, member, rfl⟩)
  · rw [returned.value_eq]

variable {extra : Transaction → Prop}

/-- The outputs of a confidential transaction. -/
theorem storedSound_of_checked {below : Ledger} (checked : Checked env extra below tx)
    (found : tx.vout[position]? = some out) :
    StoredSound env encode (storedOutput env tx position out) := by
  have member := mem_of_getElem? found
  have outputs := checked.outputs
  simp only [checkRingctOutputs, checkRingctPoints,
    Bool.and_eq_true, all_eq_true, decide_eq_true_eq] at outputs
  obtain ⟨⟨amounts, -⟩, keys, commits, -⟩ := outputs
  have hidden : out.amount = 0 := amounts out member
  obtain ⟨txFromBlock, semantic⟩ := checked.admitted.semantic
  simp only [checkRingctSemantic, Bool.and_eq_true, decide_eq_true_eq] at semantic
  have sizes : tx.ringct.outputCommits.length = tx.vout.length := semantic.1.1.1.1.2
  have bound : position < tx.ringct.outputCommits.length := by
    rw [sizes]
    exact (List.getElem?_eq_some_iff.mp found).1
  have regular := checked.admitted.noGenInput
  simp only [storedOutput, regular, Bool.false_eq_true, false_and, if_false]
  refine ⟨?_, by rw [hidden]; exact Nat.two_pow_pos 64, fun _ => ⟨_, ?_, rfl⟩⟩
  · exact arePointsSafe_mem keys _ (mem_map_of_mem member)
  · rw [getD_eq_getElem?_getD, getElem?_eq_getElem bound]
    exact laws.mem_range (arePointsSafe_mem commits _ (getElem_mem bound))

/-- The outputs of a valid ledger. -/
theorem Valid.outputsSound {network : Network} {ledger : Ledger}
    (genesis : ∀ out ∈ network.genesisTx.vout, env.isValidPoint out.outputPublicKey = true)
    (valid : Valid env extra network ledger) : (ofLedger env ledger).OutputsSound env encode := by
  induction valid with
  | genesis =>
    have start : ChainTables.empty.OutputsSound env encode := fun row member => by cases member
    refine start.pushBlock (fun position out found => ?_) fun tx member => by cases member
    have member := mem_of_getElem? found
    have key := genesis out member
    simp only [genesisEntry, generateGenesisBlock, Network.genesisTx, mem_singleton] at member
    subst member
    have amount : (2 ^ 40 - 1 : Nat) < 2 ^ 64 ∧ (2 ^ 40 - 1 : Nat) ≠ 0 := by decide
    exact ⟨key, amount.1, fun zero => absurd zero amount.2⟩
  | @extend below entry valid accepted ih =>
    rw [ChainTables.ofLedger_append]
    obtain ⟨coinbase, -, prevalidated, -⟩ := accepted.coinbase
    refine ih.pushBlock (fun position out found => ?_) fun tx member position out found => ?_
    · exact storedSound_of_minerChecked laws (minerChecked_of_prevalidate prevalidated) found
    · exact storedSound_of_checked laws (accepted.txs tx member) found

end Outputs

/-! ## Verification -/

/-- No call of `verify_clsag_signature` fails, and its verdict is the same whatever
uninitialised memory holds. -/
def Env.ClsagDefined (env : Env) (message : Hash) (sig : Clsag) (decoys : List OutputPublicData)
    (pseudoInputCommit : EcPoint) : Prop :=
  (∀ uninit, (env.verifyClsagSignature message sig decoys pseudoInputCommit).failures uninit = 0) ∧
  ∀ uninit other,
    (env.verifyClsagSignature message sig decoys pseudoInputCommit).value uninit =
      (env.verifyClsagSignature message sig decoys pseudoInputCommit).value other

/-- `plainEnv` with the cyclic group. -/
def cyclicEnv : Env :=
  { plainEnv with toSodium := cyclicSodium cyclicOrder }

theorem cyclicEnv_binding : cyclicEnv.Binding :=
  { plainEnv_binding with }

theorem cyclicEnv_laws : cyclicEnv.toSodium.Laws fun x : ZMod cyclicOrder => cyclicEncode x :=
  cyclicSodium_laws cyclicOrder_prime (by decide +kernel) (by decide +kernel)

theorem cyclicEnv_nonzeroHash (keys : List CryptoData) : cyclicEnv.hashDataVToScalar keys ≠ 0 := by
  have small : 1 + keys.sum % 2 < cyclicOrder :=
    Nat.lt_of_le_of_lt (Nat.add_le_add_left (Nat.le_of_lt_succ (Nat.mod_lt _ Nat.two_pos)) 1)
      (by decide +kernel : 1 + 1 < cyclicOrder)
  change (1 + keys.sum % 2) % cyclicOrder ≠ 0
  rw [mod_eq_of_lt small]
  exact Nat.ne_of_gt (Nat.lt_add_right _ Nat.one_pos)

theorem cyclicEnv_genesis :
    ∀ out ∈ mainnet.genesisTx.vout, cyclicEnv.isValidPoint out.outputPublicKey = true := by
  decide +kernel

/-- The node of `cyclicEnv` with the genesis block. -/
def cyclicNode : Node :=
  Node.started cyclicEnv mainnet

theorem cyclicNode_run {allowed : Node → Command → Prop} :
    Run cyclicEnv mainnet allowed cyclicNode :=
  Run.start (by decide +kernel)

/-- The output of the genesis block as a ring member. -/
def genesisMember : OutputPublicData :=
  { outputPublicKey := 0x9b2e4c0281c0b02e7c53291a94d1d0cbff8883f8024f5142ee494ffbbd088071
    commit := identity + (1 + 2 * (2 ^ 40 - 1)) }

theorem genesisMember_held : cyclicNode.chain.HoldsOutput cyclicEnv genesisMember :=
  ⟨2 ^ 40 - 1, 0,
    { pubkey := genesisMember.outputPublicKey
      unlockHeight := 60
      height := 0
      commitment := some genesisMember.commit }, by decide +kernel, rfl⟩

/-- A signature over a ring of one. -/
def shortSignature : ClsagUnsafe :=
  { s := [1], c1 := 1, blindingFactorSurplusKeyImage := identity + 1 }

/-- The checked form of `shortSignature`. -/
def shortClsag : Clsag :=
  { s := [1]
    c1 := 1
    signerKeyImage := identity + 1
    blindingFactorSurplusKeyImage := identity + 8 }

/-- A range proof that `cyclicEnv` accepts. -/
def sampleProof : BulletproofUnsafe :=
  { A := identity + 1
    S := identity + 1
    T1 := identity + 1
    T2 := identity + 1
    tau := 0
    mu := 0
    L := []
    R := []
    a := 0
    b := 0
    t := 0 }

/-- A transaction with one input and two outputs. -/
def sampleTx (image pseudoInputCommit : EcPoint) : Transaction :=
  { version := txVersion
    unlockHeight := 0
    vin :=
      [.fromKey { amount := 2 ^ 40 - 1, outputRelativeOffsets := [0], outputKeyImage := image }]
    vout := List.replicate 2 { amount := 0, outputPublicKey := identity + 1 }
    extra := []
    ringct :=
      { type := .clsag
        ecdhEncryptedData := [0, 0]
        outputCommits := [identity + 1, identity + 1]
        fee := 0
        p :=
          { bulletproofs := [sampleProof]
            clsags := [shortSignature]
            pseudoInputCommits := [pseudoInputCommit] } } }

end Memero
