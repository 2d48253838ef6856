import Memero.Crypto.RingctGen

/-!
# Output keys and subaddresses

`math/crypto/functional/key.cpp` and `math/blockchain/functional/subaddress.cpp`: the secret
that sender and receiver of an output share, the output's keys made from it, and the keys of the
subaddresses of an account.
-/

namespace Memero

/-- `subaddress_index`. -/
structure SubaddressIndex where
  major : Nat
  minor : Nat
  deriving DecidableEq, Repr

/-- `subaddress_index::is_zero`. -/
def SubaddressIndex.isZero (index : SubaddressIndex) : Bool :=
  index.major == 0 && index.minor == 0

/-- `spend_view_secret_keys`. -/
structure SpendViewSecretKeys where
  spendSecretKey : EcScalar
  viewSecretKey : EcScalar
  deriving DecidableEq, Repr

/-- `spend_view_public_keys`. -/
structure SpendViewPublicKeys where
  spendPublicKey : EcPoint
  viewPublicKey : EcPoint
  deriving DecidableEq, Repr

namespace Sodium

variable (sodium : Sodium) (sha3 : List UInt8 → Hash)

/-! ## `key.cpp` -/

/-- `to_pk`. -/
def toPk (sk : EcScalar) : EcPoint :=
  sodium.scalarmultBaseNoclamp sk

/-- `derive_key_image`. -/
def deriveKeyImage (sec : EcScalar) : PointM KeyImage :=
  sodium.mult sec (sodium.hashToPointViaField (sodium.toPk sec))

/-- `derive_tx_output_ecdh_shared_secret`. -/
def deriveTxOutputEcdhSharedSecret (pk : EcPoint) (sk : EcScalar) : PointM EcPoint :=
  sodium.mult sk (sodium.mult8Fast pk)

/-- `hash_tx_output_shared_secret_to_scalar`. -/
def hashTxOutputSharedSecretToScalar (txOutputSharedSecret : EcPoint) (index : Nat) : EcScalar :=
  sodium.hashToScalar sha3 (blob txOutputSharedSecret ++ writeVarint index)

/-- `compute_output_secret_key_from_subaddress_spend_sk`. -/
def computeOutputSecretKeyFromSubaddressSpendSk (txOutputSharedSecret : EcPoint)
    (outputIndex : Nat) (spendSk : EcScalar) : EcScalar :=
  sodium.addScalars spendSk
    (sodium.hashTxOutputSharedSecretToScalar sha3 txOutputSharedSecret outputIndex)

/-- `compute_output_public_key_from_subaddress_spend_pk`. -/
def computeOutputPublicKeyFromSubaddressSpendPk (txOutputSharedSecret : EcPoint)
    (outputIndex : Nat) (unsafeSpendPublicKey : EcPoint) : PointM (Option EcPoint) :=
  match sodium.maybeSafePoint unsafeSpendPublicKey with
  | none => pure none
  | some spendPublicKey => do
      let sharedSecretHash :=
        sodium.hashTxOutputSharedSecretToScalar sha3 txOutputSharedSecret outputIndex
      let point ←
        sodium.addPoints (sodium.scalarmultBaseNoclamp sharedSecretHash) spendPublicKey
      return some point

/-- `compute_subaddress_spend_pk_from_output_public_key`. -/
def computeSubaddressSpendPkFromOutputPublicKey (txOutputSharedSecret : EcPoint)
    (outputIndex : Nat) (outputPublicKey : EcPoint) : PointM (Option EcPoint) :=
  let sharedSecretHash :=
    sodium.hashTxOutputSharedSecretToScalar sha3 txOutputSharedSecret outputIndex
  if sharedSecretHash = 0 then
    pure none
  else do
    let point ←
      sodium.subPoints outputPublicKey (sodium.scalarmultBaseNoclamp sharedSecretHash)
    return some point

/-! ## `subaddress.cpp` -/

/-- `hash_secret_key_with_subaddress_index`. -/
def hashSecretKeyWithSubaddressIndex (sec : EcScalar) (index : SubaddressIndex) : EcScalar :=
  sodium.hashToScalar sha3 (ascii "SubAddr" ++ [0] ++ scalarBlob sec ++
    littleEndian 4 index.major ++ littleEndian 4 index.minor)

/-- `get_subaddress_spend_secret_key`. -/
def getSubaddressSpendSecretKey (keys : SpendViewSecretKeys) (index : SubaddressIndex) :
    EcScalar :=
  if index.isZero then
    keys.spendSecretKey
  else
    sodium.addScalars keys.spendSecretKey
      (sodium.hashSecretKeyWithSubaddressIndex sha3 keys.viewSecretKey index)

/-- `get_subaddress_view_secret_key_base_G`. -/
def getSubaddressViewSecretKeyBaseG (keys : SpendViewSecretKeys) (index : SubaddressIndex) :
    EcScalar :=
  if index.isZero then
    keys.viewSecretKey
  else
    sodium.mulScalars keys.viewSecretKey (sodium.getSubaddressSpendSecretKey sha3 keys index)

/-- `get_subaddress_spend_public_key`. -/
def getSubaddressSpendPublicKey (keys : SpendViewSecretKeys) (index : SubaddressIndex) : EcPoint :=
  sodium.toPk (sodium.getSubaddressSpendSecretKey sha3 keys index)

/-- `get_subaddress_view_public_key`. -/
def getSubaddressViewPublicKey (keys : SpendViewSecretKeys) (index : SubaddressIndex) : EcPoint :=
  sodium.toPk (sodium.getSubaddressViewSecretKeyBaseG sha3 keys index)

/-- `get_subaddress`. -/
def getSubaddress (keys : SpendViewSecretKeys) (index : SubaddressIndex) : SpendViewPublicKeys :=
  { spendPublicKey := sodium.getSubaddressSpendPublicKey sha3 keys index
    viewPublicKey := sodium.getSubaddressViewPublicKey sha3 keys index }

end Sodium

/-- Secret keys are reduced scalars. -/
structure SpendViewSecretKeys.Reduced (keys : SpendViewSecretKeys) (sodium : Sodium) : Prop where
  spend : keys.spendSecretKey < sodium.order
  view : keys.viewSecretKey < sodium.order

/-! ## In terms of the group -/

namespace Sodium.Laws

variable {Γ : Type} [AddCommGroup Γ] {sodium : Sodium} {encode : Γ → EcPoint}
  (laws : sodium.Laws encode) {sha3 : List UInt8 → Hash}

include laws

theorem eight_nsmul_ne_zero {x : Γ} (nonzero : x ≠ 0) : 8 • x ≠ 0 := by
  have valid := laws.mult8_valid (laws.valid_encode.mpr nonzero)
  rwa [laws.mult8, laws.valid_encode] at valid

theorem hashTxOutputSharedSecretToScalar_lt (secret : EcPoint) (index : Nat) :
    sodium.hashTxOutputSharedSecretToScalar sha3 secret index < sodium.order :=
  laws.reduce_lt _

variable {keys : SpendViewSecretKeys}

theorem getSubaddressSpendSecretKey_lt (reduced : keys.Reduced sodium) (index : SubaddressIndex) :
    sodium.getSubaddressSpendSecretKey sha3 keys index < sodium.order := by
  unfold getSubaddressSpendSecretKey
  split
  · exact reduced.spend
  · exact laws.addScalars_lt _ _

theorem getSubaddressViewSecretKeyBaseG_lt (reduced : keys.Reduced sodium)
    (index : SubaddressIndex) :
    sodium.getSubaddressViewSecretKeyBaseG sha3 keys index < sodium.order := by
  unfold getSubaddressViewSecretKeyBaseG
  split
  · exact reduced.view
  · exact laws.mulScalars_lt _ _

/-- The view key of an address whose spend key is not zero. -/
theorem getSubaddressViewSecretKeyBaseG_ne_zero (reduced : keys.Reduced sodium)
    (viewNonzero : keys.viewSecretKey ≠ 0) {index : SubaddressIndex}
    (nonzero : sodium.getSubaddressSpendSecretKey sha3 keys index ≠ 0) :
    sodium.getSubaddressViewSecretKeyBaseG sha3 keys index ≠ 0 := by
  unfold getSubaddressViewSecretKeyBaseG
  split
  · exact viewNonzero
  · exact laws.mulScalars_ne_zero viewNonzero reduced.view nonzero
      (laws.getSubaddressSpendSecretKey_lt reduced index)

theorem deriveTxOutputEcdhSharedSecret_encode {x : Γ} {sk : EcScalar} (reduced : sk < sodium.order)
    (nonzero : x ≠ 0) :
    (sodium.deriveTxOutputEcdhSharedSecret (encode x) sk).Returns (encode (sk • 8 • x)) := by
  unfold deriveTxOutputEcdhSharedSecret
  rw [laws.mult8]
  exact laws.mult_encode reduced fun _ => laws.eight_nsmul_ne_zero nonzero

section Generator

variable {g : Γ} (base : ∀ a, a < sodium.order → sodium.scalarmultBaseNoclamp a = encode (a • g))

include base

theorem computeOutputPublicKey_encode {x : Γ} (nonzero : x ≠ 0) (secret : EcPoint) (index : Nat) :
    (sodium.computeOutputPublicKeyFromSubaddressSpendPk sha3 secret index (encode x)).Returns
      (some (encode (sodium.hashTxOutputSharedSecretToScalar sha3 secret index • g + x))) := by
  unfold computeOutputPublicKeyFromSubaddressSpendPk maybeSafePoint
  rw [if_pos (laws.valid_encode.mpr nonzero)]
  dsimp only
  rw [base _ (laws.hashTxOutputSharedSecretToScalar_lt secret index)]
  exact .bind (laws.addPoints_encode _ _) (.pure _)

theorem computeSubaddressSpendPk_encode {secret : EcPoint} {index : Nat}
    (nonzero : sodium.hashTxOutputSharedSecretToScalar sha3 secret index ≠ 0) (x : Γ) :
    (sodium.computeSubaddressSpendPkFromOutputPublicKey sha3 secret index (encode x)).Returns
      (some (encode (x - sodium.hashTxOutputSharedSecretToScalar sha3 secret index • g))) := by
  unfold computeSubaddressSpendPkFromOutputPublicKey
  rw [if_neg nonzero, base _ (laws.hashTxOutputSharedSecretToScalar_lt secret index)]
  exact .bind (laws.subPoints_encode _ _) (.pure _)

/-- The public key of the secret key that the receiver computes. -/
theorem computeOutputSecretKey_encode (secret : EcPoint) (index : Nat) (spendSk : EcScalar) :
    sodium.toPk (sodium.computeOutputSecretKeyFromSubaddressSpendSk sha3 secret index spendSk) =
      encode (sodium.hashTxOutputSharedSecretToScalar sha3 secret index • g + spendSk • g) := by
  unfold computeOutputSecretKeyFromSubaddressSpendSk
  rw [toPk, base _ (laws.addScalars_lt _ _)]
  apply congrArg
  rw [← add_nsmul]
  apply laws.nsmul_eq_of_cast_eq
  rw [cast_addScalars, Nat.cast_add, add_comm]

omit base in
/-- Sender and receiver compute one secret: the sender multiplies the view key of the address by
the secret key of the output, the receiver the public key of the output by the account's view
key. For a subaddress the public key of the output has the spend key of the address as base. -/
theorem sharedSecret_eq (keys : SpendViewSecretKeys) (index : SubaddressIndex) (r : EcScalar)
    (x : Γ) :
    r • 8 • sodium.getSubaddressViewSecretKeyBaseG sha3 keys index • x =
      keys.viewSecretKey • 8 • (if index.isZero then r • x else
        r • sodium.getSubaddressSpendSecretKey sha3 keys index • x) := by
  unfold getSubaddressViewSecretKeyBaseG
  split
  · rw [← mul_nsmul, ← mul_nsmul, ← mul_nsmul, ← mul_nsmul]
    ring_nf
  · have product : sodium.mulScalars keys.viewSecretKey
        (sodium.getSubaddressSpendSecretKey sha3 keys index) • x =
        (keys.viewSecretKey * sodium.getSubaddressSpendSecretKey sha3 keys index) • x := by
      apply laws.nsmul_eq_of_cast_eq
      rw [cast_mulScalars, Nat.cast_mul]
    rw [product]
    simp only [← mul_nsmul]
    ring_nf

end Generator

end Sodium.Laws

end Memero
