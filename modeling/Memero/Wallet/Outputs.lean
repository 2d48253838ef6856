import Memero.Consensus.Rules
import Memero.Crypto.Subaddress

/-!
# Making and recognising outputs

`generate_output_key_pairs` and `construct_miner_tx` of `cryptonote/tx/functional/tx_utils.cpp`,
which make the keys of outputs, and `check_output_for_subaddresses` and
`derive_output_key_pair_and_key_image` of `cryptonote/basic/functional/format_utils.cpp`, by
which an account finds the outputs that are its own.
-/

namespace Memero

open PointM Sodium

/-- `tx_destination_entry`. -/
structure TxDestinationEntry where
  addr : SpendViewPublicKeys
  amount : Nat
  isSubaddress : Bool
  deriving DecidableEq, Repr

/-- `subaddress_receive_info`. -/
structure SubaddressReceiveInfo where
  index : SubaddressIndex
  txOutputSharedSecret : EcPoint
  deriving DecidableEq, Repr

/-- `keypair`. -/
structure Keypair where
  sec : EcScalar
  pub : EcPoint
  deriving DecidableEq, Repr

/-- `add_tx_ecdh_public_key_to_extra`, with `TX_EXTRA_TAG_TX_PUBKEY`. -/
def addTxEcdhPublicKeyToExtra (txExtraIn : List UInt8) (txPubKey : EcPoint) : List UInt8 :=
  txExtraIn ++ [0x01] ++ blob txPubKey

namespace Sodium

variable (sodium : Sodium) (sha3 : List UInt8 → Hash)

/-! ## The sender -/

/-- `generate_output_key_pairs`. -/
def generateOutputKeyPairs (dstEntr : TxDestinationEntry) (outputIndex : Nat)
    (outputSecretKeys : List EcScalar) (outputPublicKeysIn : List EcPoint)
    (outputSharedSecretsHashedByIndexIn : List EcScalar) :
    PointM (Option (List EcPoint × List EcScalar × EcPoint)) :=
  match outputSecretKeys[outputIndex]? with
  -- The caller has checked that there is a secret key for each output.
  | none => return none
  | some sec => do
      let pub ← (if dstEntr.isSubaddress then
          sodium.mult sec dstEntr.addr.spendPublicKey
        else
          pure (sodium.toPk sec) : PointM EcPoint)
      let txOutputSharedSecret ←
        sodium.deriveTxOutputEcdhSharedSecret dstEntr.addr.viewPublicKey sec
      let indexedHash :=
        sodium.hashTxOutputSharedSecretToScalar sha3 txOutputSharedSecret outputIndex
      match ← sodium.computeOutputPublicKeyFromSubaddressSpendPk sha3 txOutputSharedSecret
          outputIndex dstEntr.addr.spendPublicKey with
      | none => return none
      | some ephPk =>
        return some (outputPublicKeysIn ++ [pub],
          outputSharedSecretsHashedByIndexIn ++ [indexedHash], ephPk)

/-- `construct_miner_tx`, with the secret key that it generates. -/
def constructMinerTx (txkeySec : EcScalar) (height currentBlockWeight fee : Nat)
    (minerAddress : SpendViewPublicKeys) (alreadyGeneratedCoins : Nat) :
    PointM (Option Transaction) :=
  if ¬ rule6 height currentBlockWeight then
    return none
  else do
    let blockReward := Word.add 64 (getBlockReward alreadyGeneratedCoins) fee
    let txOutputSharedSecret ←
      sodium.deriveTxOutputEcdhSharedSecret minerAddress.viewPublicKey txkeySec
    match ← sodium.computeOutputPublicKeyFromSubaddressSpendPk sha3 txOutputSharedSecret 0
        minerAddress.spendPublicKey with
    | none => return none
    | some outEphPublicKey =>
      return some
        { version := 2
          unlockHeight := Word.add 64 height coinbaseUnlockTime
          vin := [.gen height]
          vout := [{ amount := blockReward, outputPublicKey := outEphPublicKey }]
          extra := addTxEcdhPublicKeyToExtra [] (sodium.toPk txkeySec)
          ringct := .new }

/-! ## The receiver -/

/-- `check_output_for_subaddresses`. -/
def checkOutputForSubaddresses (subaddresses : List (EcPoint × SubaddressIndex))
    (txOutputPublicKey txOutputSharedSecret : EcPoint) (outputIndex : Nat) :
    PointM (Option SubaddressReceiveInfo) := do
  match ← sodium.computeSubaddressSpendPkFromOutputPublicKey sha3 txOutputSharedSecret outputIndex
      txOutputPublicKey with
  | none => return none
  | some spendPk =>
    match subaddresses.lookup spendPk with
    | none => return none
    | some index =>
      return some { index := index, txOutputSharedSecret := txOutputSharedSecret }

/-- `derive_output_key_pair_and_key_image`. -/
def deriveOutputKeyPairAndKeyImage (accountKeys : SpendViewSecretKeys) (outKey : EcPoint)
    (recvTxOutputSharedSecret : EcPoint) (realOutputIndex : Nat)
    (receivedIndex : SubaddressIndex) : PointM (Option (Keypair × KeyImage)) :=
  let spendSk := sodium.getSubaddressSpendSecretKey sha3 accountKeys receivedIndex
  let outputSecretKey := sodium.computeOutputSecretKeyFromSubaddressSpendSk sha3
    recvTxOutputSharedSecret realOutputIndex spendSk
  let outputKeyPair : Keypair := { sec := outputSecretKey, pub := sodium.toPk outputSecretKey }
  if outputKeyPair.pub ≠ outKey then
    return none
  else do
    let ki ← sodium.deriveKeyImage outputKeyPair.sec
    return some (outputKeyPair, ki)

end Sodium

/-! ## Agreement -/

/-- The account recognises the output with the keys `R` and `P` as one for `index`, and computes
its secret key. -/
def Sodium.Recovers (sodium : Sodium) (sha3 : List UInt8 → Hash) (keys : SpendViewSecretKeys)
    (subaddresses : List (EcPoint × SubaddressIndex)) (outputIndex : Nat)
    (index : SubaddressIndex) (R P : EcPoint) : Prop :=
  (sodium.deriveTxOutputEcdhSharedSecret R keys.viewSecretKey).Yields fun secret =>
    (sodium.checkOutputForSubaddresses sha3 subaddresses P secret outputIndex).Yields
      (· = some { index := index, txOutputSharedSecret := secret }) ∧
    (sodium.deriveOutputKeyPairAndKeyImage sha3 keys P secret outputIndex index).Yields
      fun result => ∃ sec image, result = some ({ sec := sec, pub := P }, image) ∧
        sodium.toPk sec = P

/-- If the account recognises the output at all, then its spend key and the hashed secret add
up to `outputSk`. -/
def Sodium.RecognisesOnly (sodium : Sodium) (sha3 : List UInt8 → Hash)
    (keys : SpendViewSecretKeys) (subaddresses : List (EcPoint × SubaddressIndex))
    (outputIndex : Nat) (outputSk : EcScalar) (R P : EcPoint) : Prop :=
  (sodium.deriveTxOutputEcdhSharedSecret R keys.viewSecretKey).Yields fun secret =>
    (sodium.checkOutputForSubaddresses sha3 subaddresses P secret outputIndex).Yields
      fun found => ∀ info, found = some info →
        sodium.computeOutputSecretKeyFromSubaddressSpendSk sha3 secret outputIndex
          (sodium.getSubaddressSpendSecretKey sha3 keys info.index) = outputSk

section Agreement

variable {Γ : Type} [AddCommGroup Γ] {sodium : Sodium} {encode : Γ → EcPoint}
  (laws : sodium.Laws encode) {sha3 : List UInt8 → Hash} {g : Γ}
  (base : ∀ a, a < sodium.order → sodium.scalarmultBaseNoclamp a = encode (a • g))
  {keys : SpendViewSecretKeys} (reduced : keys.Reduced sodium)
  {subaddresses : List (EcPoint × SubaddressIndex)} {R : Γ} (nonzero : R ≠ 0)

variable {secret : EcPoint}
variable {outputIndex : Nat}

omit [AddCommGroup Γ] in
theorem checkOutputForSubaddresses_zero
    (zero : sodium.hashTxOutputSharedSecretToScalar sha3 secret outputIndex = 0) (P : EcPoint) :
    (sodium.checkOutputForSubaddresses sha3 subaddresses P secret outputIndex).Returns none := by
  unfold checkOutputForSubaddresses computeSubaddressSpendPkFromOutputPublicKey
  rw [if_pos zero]
  exact .bind (.pure none) (.pure none)

include laws base

theorem checkOutputForSubaddresses_encode
    (hashed : sodium.hashTxOutputSharedSecretToScalar sha3 secret outputIndex ≠ 0) (P : Γ) :
    (sodium.checkOutputForSubaddresses sha3 subaddresses (encode P) secret outputIndex).Returns
      ((subaddresses.lookup (encode
        (P - sodium.hashTxOutputSharedSecretToScalar sha3 secret outputIndex • g))).map
          fun index => { index := index, txOutputSharedSecret := secret }) := by
  refine .bind (laws.computeSubaddressSpendPk_encode base hashed P) ?_
  dsimp only
  split
  · rename_i missing
    rw [missing]
    exact .pure _
  · rename_i index found
    rw [found]
    exact .pure _

include reduced nonzero

/-- The receiver finds an output exactly if the hash of the shared secret is not zero. -/
theorem recovers_iff {index : SubaddressIndex}
    (listed : subaddresses.lookup (sodium.getSubaddressSpendPublicKey sha3 keys index) = some index)
    (shared : secret = encode (keys.viewSecretKey • 8 • R)) (outputIndex : Nat) :
    sodium.Recovers sha3 keys subaddresses outputIndex index (encode R)
        (encode (sodium.hashTxOutputSharedSecretToScalar sha3 secret outputIndex • g +
          sodium.getSubaddressSpendSecretKey sha3 keys index • g)) ↔
      sodium.hashTxOutputSharedSecretToScalar sha3 secret outputIndex ≠ 0 := by
  subst shared
  unfold Recovers
  rw [(laws.deriveTxOutputEcdhSharedSecret_encode reduced.view nonzero).yields_iff]
  set secret := encode (keys.viewSecretKey • 8 • R)
  set spendSk := sodium.getSubaddressSpendSecretKey sha3 keys index with isSpendSk
  constructor
  · rintro ⟨found, -⟩ zero
    have missing := (checkOutputForSubaddresses_zero zero _).yields_iff.mp found
    cases missing
  · intro hashed
    constructor
    · rw [(checkOutputForSubaddresses_encode laws base hashed _).yields_iff, add_sub_cancel_left,
        ← base spendSk (laws.getSubaddressSpendSecretKey_lt reduced index)]
      change (subaddresses.lookup (sodium.getSubaddressSpendPublicKey sha3 keys index)).map _ = _
      rw [listed]
      rfl
    · have pub : sodium.toPk (sodium.computeOutputSecretKeyFromSubaddressSpendSk sha3 secret
          outputIndex spendSk) = _ := laws.computeOutputSecretKey_encode base _ _ _
      unfold deriveOutputKeyPairAndKeyImage
      rw [if_neg (not_not.mpr pub)]
      apply Yields.bind
      intro image
      exact (Returns.pure _).yields_iff.mpr ⟨_, image, by rw [pub], pub⟩

/-- What any account recognises among outputs of the key `outputSk`. -/
theorem recognisesOnly
    (own : ∀ pk index, subaddresses.lookup pk = some index →
      pk = sodium.getSubaddressSpendPublicKey sha3 keys index)
    (generates : g ≠ 0) {outputSk : EcScalar} (small : outputSk < sodium.order)
    (outputIndex : Nat) :
    sodium.RecognisesOnly sha3 keys subaddresses outputIndex outputSk (encode R)
      (encode (outputSk • g)) := by
  unfold RecognisesOnly
  rw [(laws.deriveTxOutputEcdhSharedSecret_encode reduced.view nonzero).yields_iff]
  set secret := encode (keys.viewSecretKey • 8 • R)
  by_cases hashed : sodium.hashTxOutputSharedSecretToScalar sha3 secret outputIndex = 0
  · rw [(checkOutputForSubaddresses_zero hashed _).yields_iff]
    intro info missing
    cases missing
  · rw [(checkOutputForSubaddresses_encode laws base hashed _).yields_iff]
    intro info found
    obtain ⟨index, listed, rfl⟩ := Option.map_eq_some_iff.mp found
    have spend := own _ _ listed
    have spendKey : _ = encode (sodium.getSubaddressSpendSecretKey sha3 keys index • g) :=
      spend.trans (base _ (laws.getSubaddressSpendSecretKey_lt reduced index))
    have difference := sub_eq_iff_eq_add'.mp (laws.injective spendKey)
    have reducedSk : sodium.computeOutputSecretKeyFromSubaddressSpendSk sha3 secret outputIndex
        (sodium.getSubaddressSpendSecretKey sha3 keys index) < sodium.order :=
      laws.addScalars_lt _ _
    have pub := (base _ reducedSk).symm.trans (laws.computeOutputSecretKey_encode base _ _ _)
    exact (laws.nsmul_left_inj generates reducedSk small).mp
      ((laws.injective pub).trans difference.symm)

end Agreement

/-! ## What the sender makes -/

/-- The public key that goes with an output. -/
def outputBase {Γ : Type} [AddCommGroup Γ] (sodium : Sodium) (sha3 : List UInt8 → Hash)
    (keys : SpendViewSecretKeys) (index : SubaddressIndex) (sec : EcScalar) (g : Γ) : Γ :=
  if index.isZero then sec • g else
    sec • sodium.getSubaddressSpendSecretKey sha3 keys index • g

/-- The hash of the secret that the sender shares with the owner of `address` is not zero. -/
def Sodium.HashNonzero (sodium : Sodium) (sha3 : List UInt8 → Hash)
    (address : SpendViewPublicKeys) (sec : EcScalar) (outputIndex : Nat) : Prop :=
  ∀ secret, sodium.isValidPoint address.spendPublicKey = true →
    (sodium.deriveTxOutputEcdhSharedSecret address.viewPublicKey sec).Returns secret →
      sodium.hashTxOutputSharedSecretToScalar sha3 secret outputIndex ≠ 0

section Sender

variable {Γ : Type} [AddCommGroup Γ] {sodium : Sodium} {encode : Γ → EcPoint}
  (laws : sodium.Laws encode) {sha3 : List UInt8 → Hash} {g : Γ}
  (base : ∀ a, a < sodium.order → sodium.scalarmultBaseNoclamp a = encode (a • g))
  {keys : SpendViewSecretKeys} (reduced : keys.Reduced sodium)
  (viewNonzero : keys.viewSecretKey ≠ 0) {sec : EcScalar} (secReduced : sec < sodium.order)
  {index : SubaddressIndex}
  (spendNonzero : sodium.getSubaddressSpendSecretKey sha3 keys index • g ≠ 0)

include laws secReduced spendNonzero

theorem outputBase_ne_zero (secNonzero : sec ≠ 0) :
    outputBase sodium sha3 keys index sec g ≠ 0 := by
  unfold outputBase
  split
  · apply laws.nsmul_ne_zero secNonzero secReduced
    rintro rfl
    exact spendNonzero (nsmul_zero _)
  · exact laws.nsmul_ne_zero secNonzero secReduced spendNonzero

include base reduced viewNonzero

/-- The shared secret, as the sender computes it. -/
theorem sharedSecret_returns :
    (sodium.deriveTxOutputEcdhSharedSecret (sodium.getSubaddressViewPublicKey sha3 keys index)
      sec).Returns (encode (keys.viewSecretKey • 8 • outputBase sodium sha3 keys index sec g)) := by
  have spendSk : sodium.getSubaddressSpendSecretKey sha3 keys index ≠ 0 := by
    intro zero
    rw [zero, zero_nsmul] at spendNonzero
    exact spendNonzero rfl
  have generates : g ≠ 0 := by
    rintro rfl
    exact spendNonzero (nsmul_zero _)
  have viewKey : sodium.getSubaddressViewSecretKeyBaseG sha3 keys index • g ≠ 0 :=
    laws.nsmul_ne_zero (laws.getSubaddressViewSecretKeyBaseG_ne_zero reduced viewNonzero spendSk)
      (laws.getSubaddressViewSecretKeyBaseG_lt reduced index) generates
  unfold getSubaddressViewPublicKey toPk outputBase
  rw [base _ (laws.getSubaddressViewSecretKeyBaseG_lt reduced index), ← laws.sharedSecret_eq]
  exact laws.deriveTxOutputEcdhSharedSecret_encode secReduced viewKey

variable {secret : EcPoint}

theorem generateOutputKeyPairs_returns {outputIndex : Nat} {outputSecretKeys : List EcScalar}
    (drawn : outputSecretKeys[outputIndex]? = some sec) (amount : Nat) (publicKeys : List EcPoint)
    (hashes : List EcScalar)
    (shared : secret = encode (keys.viewSecretKey • 8 • outputBase sodium sha3 keys index sec g)) :
    (sodium.generateOutputKeyPairs sha3
      { addr := sodium.getSubaddress sha3 keys index
        amount := amount
        isSubaddress := !index.isZero } outputIndex outputSecretKeys publicKeys hashes).Returns
      (some (publicKeys ++ [encode (outputBase sodium sha3 keys index sec g)],
        hashes ++ [sodium.hashTxOutputSharedSecretToScalar sha3 secret outputIndex],
        encode (sodium.hashTxOutputSharedSecretToScalar sha3 secret outputIndex • g +
          sodium.getSubaddressSpendSecretKey sha3 keys index • g))) := by
  have spendKey : sodium.getSubaddressSpendPublicKey sha3 keys index =
      encode (sodium.getSubaddressSpendSecretKey sha3 keys index • g) :=
    base _ (laws.getSubaddressSpendSecretKey_lt reduced index)
  have pub : (if (!index.isZero) = true then
      sodium.mult sec (sodium.getSubaddressSpendPublicKey sha3 keys index)
      else pure (sodium.toPk sec)).Returns (encode (outputBase sodium sha3 keys index sec g)) := by
    unfold outputBase
    cases index.isZero with
    | true =>
      have generated : sodium.toPk sec = encode (sec • g) := base sec secReduced
      rw [if_pos rfl, ← generated]
      exact .pure _
    | false =>
      rw [if_pos (by decide), spendKey]
      exact laws.mult_encode secReduced fun _ => spendNonzero
  subst shared
  unfold generateOutputKeyPairs getSubaddress
  rw [drawn]
  refine .bind pub (.bind (sharedSecret_returns laws base reduced viewNonzero secReduced
    spendNonzero) ?_)
  rw [spendKey]
  exact .bind (laws.computeOutputPublicKey_encode base spendNonzero _ _) (.pure _)

theorem constructMinerTx_returns (isZero : index.isZero = true) {height currentBlockWeight : Nat}
    (sized : rule6 height currentBlockWeight = true) (fee alreadyGeneratedCoins : Nat)
    (shared : secret = encode (keys.viewSecretKey • 8 • outputBase sodium sha3 keys index sec g)) :
    (sodium.constructMinerTx sha3 sec height currentBlockWeight fee
      (sodium.getSubaddress sha3 keys index) alreadyGeneratedCoins).Returns
      (some
        { version := 2
          unlockHeight := Word.add 64 height coinbaseUnlockTime
          vin := [.gen height]
          vout := [{
            amount := Word.add 64 (getBlockReward alreadyGeneratedCoins) fee
            outputPublicKey :=
              encode (sodium.hashTxOutputSharedSecretToScalar sha3 secret 0 • g +
                sodium.getSubaddressSpendSecretKey sha3 keys index • g) }]
          extra := addTxEcdhPublicKeyToExtra [] (encode (outputBase sodium sha3 keys index sec g))
          ringct := .new }) := by
  have spendKey : sodium.getSubaddressSpendPublicKey sha3 keys index =
      encode (sodium.getSubaddressSpendSecretKey sha3 keys index • g) :=
    base _ (laws.getSubaddressSpendSecretKey_lt reduced index)
  have generated : sodium.toPk sec = encode (outputBase sodium sha3 keys index sec g) := by
    rw [outputBase, if_pos isZero]
    exact base sec secReduced
  subst shared
  unfold constructMinerTx getSubaddress
  rw [if_neg (not_not.mpr sized), generated]
  refine .bind (sharedSecret_returns laws base reduced viewNonzero secReduced spendNonzero) ?_
  rw [spendKey]
  exact .bind (laws.computeOutputPublicKey_encode base spendNonzero _ _) (.pure _)

end Sender

variable {sodium : Sodium} {sha3 : List UInt8 → Hash}

/-- No output is made for a spend key that is not a point. -/
theorem computeOutputPublicKey_none {spendPublicKey : EcPoint}
    (invalid : ¬ sodium.isValidPoint spendPublicKey = true) (secret : EcPoint) (outputIndex : Nat) :
    (sodium.computeOutputPublicKeyFromSubaddressSpendPk sha3 secret outputIndex
      spendPublicKey).Returns none := by
  unfold computeOutputPublicKeyFromSubaddressSpendPk maybeSafePoint
  rw [if_neg invalid]
  exact .pure none

theorem generateOutputKeyPairs_none {dstEntr : TxDestinationEntry}
    (invalid : ¬ sodium.isValidPoint dstEntr.addr.spendPublicKey = true) (outputIndex : Nat)
    (secretKeys : List EcScalar) (publicKeys : List EcPoint) (hashes : List EcScalar) :
    (sodium.generateOutputKeyPairs sha3 dstEntr outputIndex secretKeys publicKeys hashes).Yields
      (· = none) := by
  unfold generateOutputKeyPairs
  split
  · exact (Returns.pure none).yields_iff.mpr rfl
  · refine .bind fun pub => .bind fun secret => ?_
    refine (Returns.yields_iff ?_).mpr (Eq.refl none)
    exact .bind (computeOutputPublicKey_none invalid _ _) (.pure none)

theorem constructMinerTx_none {address : SpendViewPublicKeys} {height currentBlockWeight : Nat}
    (refused : rule6 height currentBlockWeight = true → ¬ sodium.isValidPoint address.spendPublicKey = true)
    (sec : EcScalar) (fee alreadyGeneratedCoins : Nat) :
    (sodium.constructMinerTx sha3 sec height currentBlockWeight fee address
      alreadyGeneratedCoins).Yields (· = none) := by
  unfold constructMinerTx
  split
  · exact (Returns.pure none).yields_iff.mpr rfl
  · rename_i sized
    refine .bind fun secret => ?_
    refine (Returns.yields_iff ?_).mpr (Eq.refl none)
    exact .bind (computeOutputPublicKey_none (refused (not_not.mp sized)) _ _) (.pure none)

/-! ## Sender and receiver -/

/-- The keys of every output that `generate_output_key_pairs` makes are `good`. -/
def Makes (sender : PointM (Option (List EcPoint × List EcScalar × EcPoint)))
    (publicKeysIn : List EcPoint) (good : EcPoint → EcPoint → Prop) : Prop :=
  sender.Yields fun made => ∀ result, made = some result →
    ∃ R, result.1 = publicKeysIn ++ [R] ∧ good R result.2.2

/-- The keys of the output of every transaction that `construct_miner_tx` makes are `good`. -/
def Mines (miner : PointM (Option Transaction)) (R : EcPoint) (good : EcPoint → Prop) : Prop :=
  miner.Yields fun made => ∀ tx, made = some tx →
    tx.extra = addTxEcdhPublicKeyToExtra [] R ∧ ∃ out, tx.vout = [out] ∧ good out.outputPublicKey

theorem makes_of_none {sender : PointM (Option (List EcPoint × List EcScalar × EcPoint))}
    (none : sender.Yields (· = none)) (publicKeysIn : List EcPoint)
    (good : EcPoint → EcPoint → Prop) : Makes sender publicKeysIn good := by
  intro uninit failures result made
  rw [none uninit failures] at made
  cases made

theorem mines_of_none {miner : PointM (Option Transaction)} (none : miner.Yields (· = none))
    (R : EcPoint) (good : EcPoint → Prop) : Mines miner R good := by
  intro uninit failures tx made
  rw [none uninit failures] at made
  cases made

/-- The keys `R` and `P` are made for a secret shared by an address and the holder of `sec`, and
the account recognises them only if it computes the same secret key for `P`. -/
def Sodium.Collides (sodium : Sodium) (sha3 : List UInt8 → Hash) (keys : SpendViewSecretKeys)
    (index : SubaddressIndex) (sec : EcScalar) (other : SpendViewSecretKeys)
    (subaddresses : List (EcPoint × SubaddressIndex)) (outputIndex : Nat) (R P : EcPoint) : Prop :=
  ∃ secret, (sodium.deriveTxOutputEcdhSharedSecret
      (sodium.getSubaddressViewPublicKey sha3 keys index) sec).Returns secret ∧
    sodium.RecognisesOnly sha3 other subaddresses outputIndex
      (sodium.computeOutputSecretKeyFromSubaddressSpendSk sha3 secret outputIndex
        (sodium.getSubaddressSpendSecretKey sha3 keys index)) R P

section Stealth

variable {Γ : Type} [AddCommGroup Γ] {sodium : Sodium} {encode : Γ → EcPoint}
  (laws : sodium.Laws encode) {sha3 : List UInt8 → Hash} {g : Γ}
  (base : ∀ a, a < sodium.order → sodium.scalarmultBaseNoclamp a = encode (a • g))
  {keys : SpendViewSecretKeys} (reduced : keys.Reduced sodium)
  (viewNonzero : keys.viewSecretKey ≠ 0) {sec : EcScalar} (secReduced : sec < sodium.order)
  (secNonzero : sec ≠ 0) {index : SubaddressIndex}
  (spendNonzero : sodium.getSubaddressSpendSecretKey sha3 keys index • g ≠ 0)
  {secret : EcPoint} (shared : secret =
    encode (keys.viewSecretKey • 8 • outputBase sodium sha3 keys index sec g))

include laws base reduced viewNonzero secReduced spendNonzero shared

theorem makes_iff {outputIndex : Nat} {outputSecretKeys : List EcScalar}
    (drawn : outputSecretKeys[outputIndex]? = some sec) (amount : Nat)
    (publicKeys : List EcPoint) (hashes : List EcScalar) {good : EcPoint → EcPoint → Prop} :
    Makes (sodium.generateOutputKeyPairs sha3
        { addr := sodium.getSubaddress sha3 keys index
          amount := amount
          isSubaddress := !index.isZero } outputIndex outputSecretKeys publicKeys hashes)
        publicKeys good ↔
      good (encode (outputBase sodium sha3 keys index sec g))
        (encode (sodium.hashTxOutputSharedSecretToScalar sha3 secret outputIndex • g +
          sodium.getSubaddressSpendSecretKey sha3 keys index • g)) := by
  unfold Makes
  rw [(generateOutputKeyPairs_returns laws base reduced viewNonzero secReduced spendNonzero drawn
    amount publicKeys hashes shared).yields_iff]
  constructor
  · intro made
    obtain ⟨R, same, holds⟩ := made _ rfl
    rw [List.singleton_inj.mp (List.append_cancel_left same)]
    exact holds
  · rintro holds _ same
    cases same
    exact ⟨_, rfl, holds⟩

theorem mines_iff (isZero : index.isZero = true) {height currentBlockWeight : Nat}
    (sized : rule6 height currentBlockWeight = true) (fee alreadyGeneratedCoins : Nat)
    {good : EcPoint → Prop} :
    Mines (sodium.constructMinerTx sha3 sec height currentBlockWeight fee
        (sodium.getSubaddress sha3 keys index) alreadyGeneratedCoins)
        (encode (outputBase sodium sha3 keys index sec g)) good ↔
      good (encode (sodium.hashTxOutputSharedSecretToScalar sha3 secret 0 • g +
        sodium.getSubaddressSpendSecretKey sha3 keys index • g)) := by
  unfold Mines
  rw [(constructMinerTx_returns laws base reduced viewNonzero secReduced spendNonzero isZero sized
    fee alreadyGeneratedCoins shared).yields_iff]
  constructor
  · intro made
    obtain ⟨-, out, same, holds⟩ := made _ rfl
    rwa [← List.singleton_inj.mp same] at holds
  · rintro holds _ same
    cases same
    exact ⟨rfl, _, rfl, holds⟩

/-- The hash that matters is that of the one shared secret. -/
theorem hashNonzero_iff (outputIndex : Nat) :
    sodium.HashNonzero sha3 (sodium.getSubaddress sha3 keys index) sec outputIndex ↔
      sodium.hashTxOutputSharedSecretToScalar sha3 secret outputIndex ≠ 0 := by
  have returns := sharedSecret_returns laws base reduced viewNonzero secReduced spendNonzero
  rw [← shared] at returns
  have spendKey : sodium.getSubaddressSpendPublicKey sha3 keys index =
      encode (sodium.getSubaddressSpendSecretKey sha3 keys index • g) :=
    base _ (laws.getSubaddressSpendSecretKey_lt reduced index)
  constructor
  · intro condition
    apply condition secret _ returns
    change sodium.isValidPoint (sodium.getSubaddressSpendPublicKey sha3 keys index) = true
    rw [spendKey, laws.valid_encode]
    exact spendNonzero
  · intro hashed computed _ other
    rwa [other.unique returns]

include secNonzero

theorem collides {other : SpendViewSecretKeys} (otherReduced : other.Reduced sodium)
    {subaddresses : List (EcPoint × SubaddressIndex)}
    (own : ∀ pk position, subaddresses.lookup pk = some position →
      pk = sodium.getSubaddressSpendPublicKey sha3 other position) (outputIndex : Nat) :
    sodium.Collides sha3 keys index sec other subaddresses outputIndex
      (encode (outputBase sodium sha3 keys index sec g))
      (encode (sodium.hashTxOutputSharedSecretToScalar sha3 secret outputIndex • g +
        sodium.getSubaddressSpendSecretKey sha3 keys index • g)) := by
  have returns := sharedSecret_returns laws base reduced viewNonzero secReduced spendNonzero
  rw [← shared] at returns
  have generates : g ≠ 0 := by
    rintro rfl
    exact spendNonzero (nsmul_zero _)
  have small : sodium.computeOutputSecretKeyFromSubaddressSpendSk sha3 secret outputIndex
      (sodium.getSubaddressSpendSecretKey sha3 keys index) < sodium.order :=
    laws.addScalars_lt _ _
  refine ⟨secret, returns, ?_⟩
  rw [← laws.computeOutputSecretKey_encode base, toPk, base _ small]
  exact recognisesOnly laws base otherReduced
    (outputBase_ne_zero laws secReduced spendNonzero secNonzero) own generates small outputIndex

end Stealth

/-- Sender and receiver agree on the outputs whose shared secret has a hash other than zero, and
only on those: an output for an address of the account, or of a coinbase transaction for its main
address, is recognised with the index of the address, and the account computes its secret key.
Another account that recognises an output has a spend key and a hashed secret with the same sum
as those of the account that the output was made for. -/
theorem outputs_recognised_iff {Γ : Type} [AddCommGroup Γ] {sodium : Sodium}
    {encode : Γ → EcPoint} (laws : sodium.Laws encode) (sha3 : List UInt8 → Hash)
    {keys : SpendViewSecretKeys} (reduced : keys.Reduced sodium)
    (viewNonzero : keys.viewSecretKey ≠ 0) {subaddresses : List (EcPoint × SubaddressIndex)}
    {index : SubaddressIndex}
    (listed : subaddresses.lookup (sodium.getSubaddressSpendPublicKey sha3 keys index) =
      some index) {sec : EcScalar} (secReduced : sec < sodium.order) (secNonzero : sec ≠ 0)
    {outputIndex : Nat} {outputSecretKeys : List EcScalar}
    (drawn : outputSecretKeys[outputIndex]? = some sec) (amount : Nat)
    (publicKeys : List EcPoint) (hashes : List EcScalar)
    {other : SpendViewSecretKeys} (otherReduced : other.Reduced sodium)
    {otherSubaddresses : List (EcPoint × SubaddressIndex)}
    (otherOwn : ∀ pk position, otherSubaddresses.lookup pk = some position →
      pk = sodium.getSubaddressSpendPublicKey sha3 other position) :
    let address := sodium.getSubaddress sha3 keys index
    let sent := sodium.generateOutputKeyPairs sha3
      { addr := address, amount := amount, isSubaddress := !index.isZero } outputIndex
      outputSecretKeys publicKeys hashes
    (Makes sent publicKeys (sodium.Recovers sha3 keys subaddresses outputIndex index) ↔
      sodium.HashNonzero sha3 address sec outputIndex) ∧
    Makes sent publicKeys
      (sodium.Collides sha3 keys index sec other otherSubaddresses outputIndex) ∧
    (index.isZero = true → ∀ height currentBlockWeight fee alreadyGeneratedCoins,
      let mined := sodium.constructMinerTx sha3 sec height currentBlockWeight fee address
        alreadyGeneratedCoins
      (Mines mined (sodium.toPk sec)
          (sodium.Recovers sha3 keys subaddresses 0 index (sodium.toPk sec)) ↔
        (rule6 height currentBlockWeight = true → sodium.HashNonzero sha3 address sec 0)) ∧
      Mines mined (sodium.toPk sec)
        (sodium.Collides sha3 keys index sec other otherSubaddresses 0 (sodium.toPk sec))) := by
  intro address sent
  obtain ⟨g, base⟩ := laws.base
  have spendKey : address.spendPublicKey =
      encode (sodium.getSubaddressSpendSecretKey sha3 keys index • g) :=
    base _ (laws.getSubaddressSpendSecretKey_lt reduced index)
  by_cases valid : sodium.isValidPoint address.spendPublicKey = true
  · have spendNonzero : sodium.getSubaddressSpendSecretKey sha3 keys index • g ≠ 0 := by
      rwa [spendKey, laws.valid_encode] at valid
    have nonzero := outputBase_ne_zero laws secReduced spendNonzero secNonzero
    have recovers := recovers_iff laws base reduced nonzero listed rfl
    have condition := hashNonzero_iff laws base reduced viewNonzero secReduced spendNonzero rfl
    have made {good} := @makes_iff _ _ _ _ laws sha3 _ base _ reduced viewNonzero _ secReduced _
      spendNonzero _ rfl _ _ drawn amount publicKeys hashes good
    have collision := collides laws base reduced viewNonzero secReduced secNonzero spendNonzero
      rfl otherReduced otherOwn
    refine ⟨made.trans ((recovers outputIndex).trans (condition outputIndex).symm),
      made.mpr (collision outputIndex), ?_⟩
    intro isZero height currentBlockWeight fee alreadyGeneratedCoins mined
    have generated : sodium.toPk sec = encode (outputBase sodium sha3 keys index sec g) := by
      rw [outputBase, if_pos isZero]
      exact base sec secReduced
    by_cases sized : rule6 height currentBlockWeight = true
    · have mines {good} := @mines_iff _ _ _ _ laws sha3 _ base _ reduced viewNonzero _ secReduced _
        spendNonzero _ rfl isZero _ _ sized fee alreadyGeneratedCoins good
      rw [generated]
      refine ⟨mines.trans ((recovers 0).trans ?_), mines.mpr (collision 0)⟩
      exact ⟨fun hashed _ => (condition 0).mpr hashed, fun holds => (condition 0).mp (holds sized)⟩
    · have none : mined.Yields (· = none) :=
        constructMinerTx_none (fun holds => absurd holds sized) _ _ _
      exact ⟨⟨fun _ holds => absurd holds sized, fun _ => mines_of_none none _ _⟩,
        mines_of_none none _ _⟩
  · have noOutput : sent.Yields (· = none) := generateOutputKeyPairs_none valid _ _ _ _
    have condition : ∀ position, sodium.HashNonzero sha3 address sec position :=
      fun _ _ holds => absurd holds valid
    refine ⟨⟨fun _ => condition outputIndex, fun _ => makes_of_none noOutput _ _⟩,
      makes_of_none noOutput _ _, ?_⟩
    intro _ height currentBlockWeight fee alreadyGeneratedCoins mined
    have none : mined.Yields (· = none) := constructMinerTx_none (fun _ => valid) _ _ _
    exact ⟨⟨fun _ _ => condition 0, fun _ => mines_of_none none _ _⟩, mines_of_none none _ _⟩

/-- An account in the cyclic group. -/
def sampleKeys : SpendViewSecretKeys where
  spendSecretKey := 2
  viewSecretKey := 3

def sampleSubaddresses : List (EcPoint × SubaddressIndex) :=
  [(identity + 2, { major := 0, minor := 0 })]

theorem outputs_recognised_sample :
    Makes (cyclicSetting.generateOutputKeyPairs (fun _ => 1)
        { addr := cyclicSetting.getSubaddress (fun _ => 1) sampleKeys { major := 0, minor := 0 }
          amount := 1
          isSubaddress := false } 0 [5] [] []) []
      (cyclicSetting.Recovers (fun _ => 1) sampleKeys sampleSubaddresses 0
        { major := 0, minor := 0 }) := by
  have reduced : sampleKeys.Reduced cyclicSetting.toSodium :=
    ⟨by decide +kernel, by decide +kernel⟩
  have own : ∀ pk position, ([] : List (EcPoint × SubaddressIndex)).lookup pk = some position →
      pk = cyclicSetting.getSubaddressSpendPublicKey (fun _ => 1) sampleKeys position :=
    fun _ _ found => by cases found
  refine (outputs_recognised_iff cyclicSetting_laws (fun _ => 1) reduced (by decide)
    (by decide +kernel) (by decide +kernel) (by decide : 5 ≠ 0) rfl 1 [] [] reduced own).1.mpr ?_
  intro secret _ _ zero
  have one : (1 : Nat) % cyclicOrder = 1 := by decide +kernel
  exact absurd (one.symm.trans zero) (by decide)

/-- With a hash that is zero the sender makes an output that the receiver does not find. -/
theorem output_lost_sample :
    (cyclicSetting.generateOutputKeyPairs (fun _ => 0)
        { addr := cyclicSetting.getSubaddress (fun _ => 0) sampleKeys { major := 0, minor := 0 }
          amount := 1
          isSubaddress := false } 0 [5] [] []).Returns
      (some ([identity + 5], [0], identity + 2)) ∧
    (cyclicSetting.deriveTxOutputEcdhSharedSecret (identity + 5) 3).Returns (identity + 120) ∧
    (cyclicSetting.checkOutputForSubaddresses (fun _ => 0) sampleSubaddresses (identity + 2)
      (identity + 120) 0).Returns none := by
  have zero : cyclicSetting.hashTxOutputSharedSecretToScalar (fun _ => 0) (identity + 120) 0 = 0 :=
    Nat.zero_mod _
  have address : cyclicSetting.getSubaddress (fun _ => 0) sampleKeys { major := 0, minor := 0 } =
      { spendPublicKey := identity + 2, viewPublicKey := identity + 3 } := by
    decide +kernel
  have safe : cyclicSetting.maybeSafePoint (identity + 2) = some (identity + 2) := by
    decide +kernel
  have five : cyclicSetting.toPk 5 = identity + 5 := by decide +kernel
  have shared : (cyclicSetting.deriveTxOutputEcdhSharedSecret (identity + 3) 5).Returns
      (identity + 120) :=
    .ofResult (by decide +kernel)
  have made : (cyclicSetting.computeOutputPublicKeyFromSubaddressSpendPk (fun _ => 0)
      (identity + 120) 0 (identity + 2)).Returns (some (identity + 2)) := by
    unfold computeOutputPublicKeyFromSubaddressSpendPk
    rw [safe]
    exact .bind (.ofResult (by decide +kernel)) (.pure _)
  refine ⟨?_, .ofResult (by decide +kernel), checkOutputForSubaddresses_zero zero _⟩
  rw [address, ← five]
  nth_rewrite 2 [← zero]
  exact .bind (.pure _) (.bind shared (.bind made (.pure _)))

end Memero
