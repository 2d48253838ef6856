import Memero.Blockchain.Rings
import Memero.Node.Safety
import Memero.Node.Verification

/-!
# Key images

No function of the program tests whether a key image is a point. The only operation on a key
image is a multiplication inside the verification of its ring signature, which the library
refuses for other operands. So a transaction whose signatures were verified without a refused
call has key images that are points. Two ways lead around that: a refused call is logged and
the verification goes on, and the pool takes a transaction that came with a block even if its
inputs were refused.
-/

namespace Memero

open List Transaction

/-- Every key image of the inputs is a valid point. -/
def Transaction.KeyImagesValid (env : Env) (tx : Transaction) : Prop :=
  ∀ image ∈ tx.keyImages, env.isValidPoint image = true

/-! ## Signatures with a refused key image -/

namespace Env

variable (env : Env)

theorem verifyUnsafeClsagSignature_counts (message : Hash) (sig : ClsagUnsafe)
    (signerKeyImage : EcPoint) (decoys : List OutputPublicData) (pseudoInputCommit : EcPoint) :
    (env.verifyUnsafeClsagSignature message sig signerKeyImage decoys
      pseudoInputCommit).Counts := by
  unfold verifyUnsafeClsagSignature
  split
  · exact .pure _
  · exact env.verifyClsagSignature_counts _ _ _ _

theorem verifyInputSignatures_counts (message : Hash)
    (items : List ((ClsagUnsafe × EcPoint) × List OutputPublicData × EcPoint)) :
    (env.verifyInputSignatures message items).Counts := by
  induction items with
  | nil => exact .pure _
  | cons item rest ih =>
    exact .bind (env.verifyUnsafeClsagSignature_counts _ _ _ _ _) fun _ => .bind ih fun _ => .pure _

variable {env} {Γ : Type} [AddCommGroup Γ] {encode : Γ → EcPoint} (laws : env.toSodium.Laws encode)
  (nonzeroHash : ∀ keys, env.hashDataVToScalar keys ≠ 0)

include laws nonzeroHash

variable {message : Hash} {uninit : Uninit} {failures : Nat}

/-- A signature over a ring of two or more that is accepted with a refused key image has made a
call that failed. -/
theorem verifyUnsafeClsagSignature_counts_keyImage {sig : ClsagUnsafe} {signerKeyImage : EcPoint}
    {decoys : List OutputPublicData} {pseudoInputCommit : EcPoint} (more : 2 ≤ decoys.length)
    (invalid : env.isValidPoint signerKeyImage = false)
    (verified : ((env.verifyUnsafeClsagSignature message sig signerKeyImage decoys pseudoInputCommit).run uninit failures).1 = true) :
    failures < ((env.verifyUnsafeClsagSignature message sig signerKeyImage decoys
      pseudoInputCommit).run uninit failures).2 := by
  unfold verifyUnsafeClsagSignature at verified ⊢
  cases checked : env.maybeSafeCLSAG sig signerKeyImage with
  | none =>
    rw [checked] at verified
    cases verified
  | some safe =>
    rw [checked] at verified
    have copied : safe.signerKeyImage = signerKeyImage := by
      unfold maybeSafeCLSAG at checked
      split at checked
      · cases checked
      split at checked
      · cases checked
      obtain ⟨surplus, -, rfl⟩ := Option.map_eq_some_iff.mp checked
      rfl
    have sizes : decoys.length = safe.s.length := by
      by_contra missized
      dsimp only at verified
      rw [verifyClsagSignature_of_missized message (.inr missized)] at verified
      cases verified
    rw [← copied] at invalid
    exact verifyClsagSignature_fails_of_keyImage laws nonzeroHash message sizes more invalid
      uninit failures

theorem verifyInputSignatures_counts_keyImage
    {items : List ((ClsagUnsafe × EcPoint) × List OutputPublicData × EcPoint)}
    {item : (ClsagUnsafe × EcPoint) × List OutputPublicData × EcPoint} (member : item ∈ items)
    (more : 2 ≤ item.2.1.length) (invalid : env.isValidPoint item.1.2 = false)
    (verified : ((env.verifyInputSignatures message items).run uninit failures).1 = true) :
    failures < ((env.verifyInputSignatures message items).run uninit failures).2 := by
  induction items generalizing failures with
  | nil => cases member
  | cons first rest ih =>
    have both := (Bool.and_eq_true _ _).mp verified
    have firstCounts := env.verifyUnsafeClsagSignature_counts message first.1.1 first.1.2 first.2.1
      first.2.2 uninit failures
    rcases mem_cons.mp member with rfl | later
    · exact Nat.lt_of_lt_of_le
        (verifyUnsafeClsagSignature_counts_keyImage laws nonzeroHash more invalid both.1)
        (env.verifyInputSignatures_counts message rest uninit _)
    · exact Nat.lt_of_le_of_lt firstCounts (ih later both.2)

end Env

/-! ## Rings -/

namespace ChainTables

/-- Every key image of the transaction is verified, over a ring of two or more. -/
theorem CollectedRingct.item {tx : Transaction} {inputs : List TxinFromKey}
    {data : RctDataSizeChecked} (collected : CollectedRingct tx inputs data) {image : KeyImage}
    (member : image ∈ tx.keyImages) :
    ∃ item ∈ (data.clsags.zip data.signerKeyImages).zip
      (data.decoys.zip data.pseudoInputCommits), item.1.2 = image ∧ 2 ≤ item.2.1.length := by
  rw [keyImages, keyImages_of_typed collected.typed] at member
  obtain ⟨input, present, rfl⟩ := mem_map.mp member
  obtain ⟨position, bound, rfl⟩ := mem_iff_getElem.mp present
  have signature : position < data.clsags.length := by rwa [collected.signatures]
  have signer : position < data.signerKeyImages.length := by
    rwa [collected.images, length_map]
  have commit : position < data.pseudoInputCommits.length := by rwa [collected.commits]
  have ring : position < data.decoys.length := by rwa [← collected.rings.length_eq]
  refine ⟨((data.clsags[position], data.signerKeyImages[position]),
    (data.decoys[position], data.pseudoInputCommits[position])), ?_, ?_, ?_⟩
  · refine mem_iff_getElem.mpr ⟨position, ?_, ?_⟩
    · simp only [length_zip, Nat.lt_min]
      exact ⟨⟨signature, signer⟩, ring, commit⟩
    · simp only [getElem_zip]
  · simp only [collected.images, getElem_map]
  · have sameSize := collected.rings.get bound ring
    have mixed := collected.mixins _ (getElem_mem bound)
    simp only [get_eq_getElem] at sameSize
    rw [sameSize]
    exact two_le_of_mixin mixed

end ChainTables

/-! ## Checked inputs -/

section Checked

variable {env : Env} {Γ : Type} [AddCommGroup Γ] {encode : Γ → EcPoint}
  (laws : env.toSodium.Laws encode) (nonzeroHash : ∀ keys, env.hashDataVToScalar keys ≠ 0)

include laws nonzeroHash

/-- Inputs that `check_ringct_inputs` has accepted without a refused call have key images that
are points. -/
theorem keyImagesValid_of_checkRingctInputs {db : ChainTables} {scanTable : ScanTable}
    {uninit : Uninit} {tx : Transaction} {used : Nat}
    (checked : db.checkRingctInputs env scanTable uninit tx = .ok (some used))
    (defined : ∀ data, db.collectRingct env scanTable tx = .ok (some data) →
      (env.verifyClsagSignatures data.1).failures uninit = 0) :
    tx.KeyImagesValid env := by
  intro image member
  obtain ⟨data, collected, verified⟩ := ChainTables.collected_of_checkRingctInputs checked
  have clean := defined (data, used) collected
  obtain ⟨inputs, gathered⟩ := ChainTables.collectedRingct collected
  obtain ⟨item, listed, same, more⟩ := gathered.item member
  by_contra invalid
  rw [Bool.not_eq_true, ← same] at invalid
  unfold Env.verifyClsagSignatures PointM.value at verified
  unfold Env.verifyClsagSignatures PointM.failures at clean
  split at verified
  · cases verified
  rename_i sizes
  rw [if_neg sizes] at clean
  cases signed : env.getRingSignatureMessage data with
  | none =>
    rw [signed] at verified
    cases verified
  | some message =>
    rw [signed] at verified clean
    have counted := Env.verifyInputSignatures_counts_keyImage laws nonzeroHash listed
      more invalid verified
    exact Nat.ne_of_gt counted clean

end Checked

/-! ## Runs -/

/-- No transaction with a key image that is not a point takes one of the two ways around the
multiplication: it does not come with a block, and no library call is refused while its
signatures are verified. -/
def keyImagesGuarded (env : Env) (node : Node) : Command → Prop
  | .incoming blobs txRelay _ =>
    ∀ blob, some blob ∈ blobs → ¬ blob.tx.KeyImagesValid env →
      txRelay ≠ .block ∧
        ∀ data, node.chain.collectRingct env node.scanTable blob.tx = .ok (some data) →
          ∀ uninit, (env.verifyClsagSignatures data.1).failures uninit = 0
  | _ => True

/-- In every run whose calls are guarded so, the key images of the transactions in the pool, in
the tables of the chain and in the committed tables are points. -/
theorem Run.keyImages_valid {env : Env} {network : Network} {Γ : Type} [AddCommGroup Γ]
    {encode : Γ → EcPoint} (binding : env.Binding) (laws : env.toSodium.Laws encode)
    (nonzeroHash : ∀ keys, env.hashDataVToScalar keys ≠ 0) {node : Node}
    (run : Run env network (keyImagesGuarded env) node) :
    (∀ row ∈ node.pool.txpool, row.2.blob.KeyImagesValid env) ∧
      ∀ chain, chain = node.chain ∨ node.MainChain chain →
        ∀ hash tx, chain.getTx? hash = some tx → tx.KeyImagesValid env := by
  have supplied : ∀ node command, keyImagesGuarded env node command →
      command.Supplied env (KeyImagesValid env) node := by
    intro node command guarded
    cases command with
    | incoming blobs txRelay relayed =>
      intro blob member _ taken
      by_contra invalid
      obtain ⟨notBlock, defined⟩ := guarded blob member invalid
      rcases taken with block | ⟨uninit, used, checked⟩
      · exact notBlock block
      · exact invalid (keyImagesValid_of_checkRingctInputs laws nonzeroHash checked
          fun data collected => defined data collected uninit)
    | _ => trivial
  have between := run.between binding supplied
  have recorded : ∀ tx, Recorded env (KeyImagesValid env) tx →
      tx.KeyImagesValid env := by
    rintro tx (coinbase | admitted)
    · intro image member
      unfold isCoinbase at coinbase
      split at coinbase
      · rename_i vin
        simp [keyImages, vin, TxIn.keyImage?] at member
      · cases coinbase
    · exact admitted.extra
  refine ⟨fun row member => (between.pool.rows row member).1.extra, ?_⟩
  intro chain among hash tx found
  have current := fun same : chain = node.chain =>
    recorded tx (between.recorded.getTx? (same ▸ found))
  rcases among with same | ⟨tables, active, rfl⟩ | ⟨-, same⟩
  · exact current same
  · exact recorded tx ((between.busy tables active).2.chain.stored.getTx? found)
  · exact current same

/-! ## Transactions that come with a block -/

/-- `cyclicEnv` with the hashes of one transaction fixed. -/
def pinnedEnv (tx : Transaction) : Env :=
  { cyclicEnv with
    getTransactionHash := fun other =>
      if other.ringct.type = .null then other.unlockHeight
      else if other = tx then 0
      else Encodable.encode other + 1
    getTransactionPrefixHash := fun other =>
      if other.vin = tx.vin then 0 else Encodable.encode other.vin + 1 }

variable (tx : Transaction)

theorem pinnedEnv_binding : (pinnedEnv tx).Binding where
  transaction := by
    intro a b _ _ first second same
    simp only [pinnedEnv, first, second, reduceCtorEq, if_false] at same
    split at same <;> split at same
    · simp_all
    · cases same
    · cases same
    · exact Encodable.encode_injective (Nat.succ.inj same)
  inputs := by
    intro a b same
    simp only [pinnedEnv] at same
    split at same <;> split at same
    · simp_all
    · cases same
    · cases same
    · exact Encodable.encode_injective (Nat.succ.inj same)
  mining := plainEnv_binding.mining

theorem pinnedEnv_laws : (pinnedEnv tx).toSodium.Laws fun x : ZMod cyclicOrder => cyclicEncode x :=
  cyclicEnv_laws

theorem pinnedEnv_nonzeroHash (keys : List CryptoData) :
    (pinnedEnv tx).hashDataVToScalar keys ≠ 0 :=
  cyclicEnv_nonzeroHash keys

/-- The transaction with a key image of its own, as it arrives with a block. -/
def arrivalWithBlock (image : EcPoint) : Command :=
  .incoming
    [some { tx := sampleTx image (identity + 2), legacy := fun version => by cases version }]
    .block false

/-- The node after the arrival. -/
def arrivalNode (image : EcPoint) : Node :=
  let env := pinnedEnv (sampleTx image (identity + 2))
  (arrivalWithBlock image).after env (Node.started env mainnet)

theorem arrivalNode_run {image : EcPoint} {allowed : Node → Command → Prop}
    (started : ((initBlockchain (pinnedEnv (sampleTx image (identity + 2))) mainnet).run
      .empty).1 = .ok true)
    (isAllowed : ∀ node, allowed node (arrivalWithBlock image))
    (returned : (((arrivalWithBlock image).perform (pinnedEnv (sampleTx image (identity + 2)))).run
      (Node.started (pinnedEnv (sampleTx image (identity + 2))) mainnet)).1 = .ok ()) :
    Run (pinnedEnv (sampleTx image (identity + 2))) mainnet allowed (arrivalNode image) :=
  (Run.start started).next (arrivalWithBlock image) trivial (isAllowed _) returned

/-- A transaction whose key image is a point. -/
theorem Run.keyImages_valid_arrival :
    (arrivalNode (identity + 1)).pool.txpool.length = 1 ∧
      ∀ row ∈ (arrivalNode (identity + 1)).pool.txpool,
        row.2.blob.KeyImagesValid (pinnedEnv (sampleTx (identity + 1) (identity + 2))) := by
  have valid : (sampleTx (identity + 1) (identity + 2)).KeyImagesValid
      (pinnedEnv (sampleTx (identity + 1) (identity + 2))) := by
    unfold KeyImagesValid
    decide +kernel
  have guarded : ∀ node, keyImagesGuarded (pinnedEnv (sampleTx (identity + 1) (identity + 2)))
      node (arrivalWithBlock (identity + 1)) := by
    intro node blob member invalid
    cases mem_singleton.mp member
    exact absurd valid invalid
  have run := arrivalNode_run (by decide +kernel) guarded (by decide +kernel)
  exact ⟨by decide +kernel,
    (Run.keyImages_valid (pinnedEnv_binding _) (pinnedEnv_laws _) (pinnedEnv_nonzeroHash _) run).1⟩

/-- The identity as a key image: the transaction passes the checks on arrival, its inputs are
refused, and the pool takes it all the same. -/
theorem Run.identity_keyImage_in_pool :
    Run (pinnedEnv (sampleTx identity (identity + 2))) mainnet anyCall (arrivalNode identity) ∧
      (arrivalNode identity).pool.txpool.map (·.2.blob) = [sampleTx identity (identity + 2)] ∧
      (sampleTx identity (identity + 2)).keyImages = [identity] ∧
      (pinnedEnv (sampleTx identity (identity + 2))).isValidPoint identity = false :=
  ⟨arrivalNode_run (by decide +kernel) (fun _ => trivial) (by decide +kernel),
    by decide +kernel, rfl, by decide +kernel⟩

end Memero
