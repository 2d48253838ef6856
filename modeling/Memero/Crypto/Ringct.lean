import Memero.Crypto.Group

/-!
# Ring confidential transactions

Verification of the confidential part of a transaction: `maybeSafeCLSAG`,
`maybeSafeBulletproof` and `maybeSizeCheckedRctData` of `rctTypesUnsafe.cpp`,
`verify_clsag_signature` of `clsag.cpp`, and the checks of `ringCT.cpp` over them.
-/

namespace Memero

/-- The code below this model and the world around it: hashing of serialised objects and
their sizes, the range proof verifier, the order on fees per byte that the pool keeps as
floating point numbers, the settings of the node, the clock and the contents of
uninitialised memory. -/
structure Env extends Sodium where
  /-- `get_transaction_hash`. -/
  getTransactionHash : Transaction → Hash
  /-- `get_transaction_prefix_hash`. -/
  getTransactionPrefixHash : Transaction → Hash
  /-- `get_block_hash`. -/
  getBlockHash : Block → Hash
  /-- `get_mining_hash`. -/
  getMiningHash : Block → Hash
  /-- `get_transaction_weight`: the size of the serialised transaction. -/
  getTransactionWeight : Transaction → Nat
  /-- The hash of the serialised `rctDataBasic`. -/
  getRctsigBaseHash : Nat → List Nat → List EcPoint → Hash
  /-- `bulletproof_VERIFY`, on the output commitments and a checked proof. -/
  bulletproofVerify : Uninit → List EcPoint → BulletproofUnsafe → Bool
  /-- `fee / (double)weight`, as a position in the order of the results. -/
  feePerWeight : Nat → Nat → Nat
  /-- `m_fixed_difficulty`, zero unless set for testing. -/
  fixedDifficulty : Nat
  /-- `m_txpool_max_weight`. -/
  txpoolMaxWeight : Nat
  /-- What `time(NULL)` returns, by the number of earlier calls. -/
  clock : Nat → Nat
  /-- The uninitialised memory a verification reads, by the number of earlier
  verifications. -/
  memory : Nat → Uninit

/-- `output_public_data`: a ring member. -/
structure OutputPublicData where
  outputPublicKey : EcPoint
  commit : EcPoint
  deriving DecidableEq, Repr

/-- `clsag`: a signature whose scalars and commitment key image have been checked. -/
structure Clsag where
  s : List EcScalar
  c1 : EcScalar
  signerKeyImage : EcPoint
  blindingFactorSurplusKeyImage : EcPoint
  deriving DecidableEq, Repr

/-- The fields the node fills in after parsing: the signed message, the ring of every
input and the key image inside every signature. -/
structure Reconstructed where
  message : Hash
  decoys : List (List OutputPublicData)
  signerKeyImages : List EcPoint
  deriving DecidableEq, Repr

/-- Before `expand_transaction_2` nothing is reconstructed. -/
def Reconstructed.empty : Reconstructed :=
  { message := 0, decoys := [], signerKeyImages := [] }

/-- `rctDataSizeChecked`. -/
structure RctDataSizeChecked extends Reconstructed where
  ecdhEncryptedData : List Nat
  outputCommits : List EcPoint
  fee : Nat
  bulletproof : BulletproofUnsafe
  clsags : List ClsagUnsafe
  pseudoInputCommits : List EcPoint
  deriving DecidableEq, Repr

/-- `maybeSizeCheckedRctData`. -/
def maybeSizeCheckedRctData (x : RctData) (reconstructed : Reconstructed) :
    Option RctDataSizeChecked :=
  if x.type ≠ .clsag then
    none
  else
    match x.p.bulletproofs with
    | [proof] =>
      if x.p.pseudoInputCommits.length ≠ x.p.clsags.length then
        none
      else if x.outputCommits.length ≠ x.ecdhEncryptedData.length then
        none
      else
        some
          { reconstructed with
            ecdhEncryptedData := x.ecdhEncryptedData
            outputCommits := x.outputCommits
            fee := x.fee
            bulletproof := proof
            clsags := x.p.clsags
            pseudoInputCommits := x.p.pseudoInputCommits }
    | _ => none

namespace Env

variable (env : Env)

/-! ## Checked proofs and signatures -/

/-- `maybeSafeBulletproof`: the points are multiplied by eight, the scalars reduced. -/
def maybeSafeBulletproof (proof : BulletproofUnsafe) : Option BulletproofUnsafe := do
  let A ← env.maybeFromInv8 proof.A
  let S ← env.maybeFromInv8 proof.S
  let T1 ← env.maybeFromInv8 proof.T1
  let T2 ← env.maybeFromInv8 proof.T2
  let L ← proof.L.mapM env.maybeFromInv8
  let R ← proof.R.mapM env.maybeFromInv8
  if [proof.tau, proof.mu, proof.a, proof.b, proof.t].all env.isReduced ∧
      L.length = R.length then
    some { proof with A := A, S := S, T1 := T1, T2 := T2, L := L, R := R }
  else
    none

/-- `maybeSafeCLSAG`. The key image of the signer is copied, not checked. -/
def maybeSafeCLSAG (sig : ClsagUnsafe) (signerKeyImage : EcPoint) : Option Clsag :=
  if ¬ sig.s.all env.isReduced then
    none
  else if ¬ env.isReduced sig.c1 then
    none
  else
    (env.maybeFromInv8 sig.blindingFactorSurplusKeyImage).map fun surplusKeyImage =>
      { s := sig.s
        c1 := sig.c1
        signerKeyImage := signerKeyImage
        blindingFactorSurplusKeyImage := surplusKeyImage }

/-! ## `clsag.cpp` -/

/-- `hash_clsag_data_with_key`. -/
def hashClsagDataWithKey (sig : Clsag) (pseudoInputCommit : EcPoint)
    (decoys : List OutputPublicData) (hashKey : String) : PointM EcScalar := do
  let surplusKeyImageInv8 ← env.toInv8 sig.blindingFactorSurplusKeyImage
  return env.hashDataVToScalar
    (dataOfString hashKey :: decoys.map (·.outputPublicKey) ++ decoys.map (·.commit) ++
      [sig.signerKeyImage, surplusKeyImageInv8, pseudoInputCommit])

/-- `L` of one round. -/
def clsagL (s : EcScalar) (decoy : OutputPublicData) (pseudoInputCommit : EcPoint)
    (cP cC : EcScalar) : PointM EcPoint := do
  let decoyCommitSurplus ← env.subPoints decoy.commit pseudoInputCommit
  let keyPart ← env.mult cP decoy.outputPublicKey
  let commitPart ← env.mult cC decoyCommitSurplus
  env.sum [env.scalarmultBaseNoclamp s, keyPart, commitPart]

/-- `R` of one round. -/
def clsagR (s : EcScalar) (decoy : OutputPublicData) (sig : Clsag) (cP cC : EcScalar) :
    PointM EcPoint := do
  let hashPart ← env.mult s (env.hashToPointViaField decoy.outputPublicKey)
  let keyPart ← env.mult cP sig.signerKeyImage
  let commitPart ← env.mult cC sig.blindingFactorSurplusKeyImage
  env.sum [hashPart, keyPart, commitPart]

/-- The challenge that follows `c` at one ring member. -/
def clsagRound (sig : Clsag) (decoys : List OutputPublicData)
    (pseudoInputCommit : EcPoint) (message : Hash) (muP muC c : EcScalar)
    (s : EcScalar) (decoy : OutputPublicData) : PointM EcScalar := do
  let cP := env.mulScalars muP c
  let cC := env.mulScalars muC c
  let L ← env.clsagL s decoy pseudoInputCommit cP cC
  let R ← env.clsagR s decoy sig cP cC
  return env.hashDataVToScalar
    (dataOfString "CLSAG_round" :: decoys.map (·.outputPublicKey) ++
      decoys.map (·.commit) ++ [pseudoInputCommit, dataOfScalar message, L, R])

/-- The loop over the ring: `none` if a challenge is zero. -/
def clsagRounds (sig : Clsag) (decoys : List OutputPublicData)
    (pseudoInputCommit : EcPoint) (message : Hash) (muP muC : EcScalar) :
    EcScalar → List (EcScalar × OutputPublicData) → PointM (Option EcScalar)
  | c, [] => pure (some c)
  | c, (s, decoy) :: rest => do
      let next ← env.clsagRound sig decoys pseudoInputCommit message muP muC c s decoy
      if next = 0 then
        return none
      else
        clsagRounds sig decoys pseudoInputCommit message muP muC next rest

/-- `verify_clsag_signature`. -/
def verifyClsagSignature (message : Hash) (sig : Clsag) (decoys : List OutputPublicData)
    (pseudoInputCommit : EcPoint) : PointM Bool := do
  if decoys.length < 1 then
    return false
  else if decoys.length ≠ sig.s.length then
    return false
  else
    let muP ← env.hashClsagDataWithKey sig pseudoInputCommit decoys "CLSAG_agg_0"
    let muC ← env.hashClsagDataWithKey sig pseudoInputCommit decoys "CLSAG_agg_1"
    let c ← env.clsagRounds sig decoys pseudoInputCommit message muP muC sig.c1
      (sig.s.zip decoys)
    return decide (c = some sig.c1)

/-! ## `ringCT.cpp` -/

/-- `get_ring_signature_message`. -/
def getRingSignatureMessage (rv : RctDataSizeChecked) : Option Hash :=
  if rv.decoys.isEmpty then
    none
  else
    let p := rv.bulletproof
    let kv := [p.A, p.S, p.T1, p.T2, dataOfScalar p.tau, dataOfScalar p.mu] ++ p.L ++ p.R ++
      [dataOfScalar p.a, dataOfScalar p.b, dataOfScalar p.t]
    some (env.hashDataV
      [dataOfScalar rv.message,
        dataOfScalar (env.getRctsigBaseHash rv.fee rv.ecdhEncryptedData rv.outputCommits),
        dataOfScalar (env.hashDataV kv)])

/-- `verify_unsafe_clsag_signature`. -/
def verifyUnsafeClsagSignature (message : Hash) (sig : ClsagUnsafe)
    (signerKeyImage : EcPoint) (decoys : List OutputPublicData)
    (pseudoInputCommit : EcPoint) : PointM Bool :=
  match env.maybeSafeCLSAG sig signerKeyImage with
  | none => pure false
  | some safe => env.verifyClsagSignature message safe decoys pseudoInputCommit

/-- `verify_ringct_balance`. -/
def verifyRingctBalance (rv : RctDataSizeChecked) : PointM Bool := do
  let inputs ← env.sum rv.pseudoInputCommits
  let outputs ← env.sum rv.outputCommits
  let fee ← env.multH rv.fee
  let total ← env.addPoints outputs fee
  return decide (inputs = total)

/-- `verify_range_proof`. -/
def verifyRangeProof (rv : RctDataSizeChecked) (uninit : Uninit) : Bool :=
  match env.maybeSafeBulletproof rv.bulletproof with
  | none => false
  | some proof => env.bulletproofVerify uninit rv.outputCommits proof

/-- The signatures of the inputs, one after the other. -/
def verifyInputSignatures (message : Hash) :
    List ((ClsagUnsafe × EcPoint) × List OutputPublicData × EcPoint) → PointM Bool
  | [] => pure true
  | ((sig, signerKeyImage), decoys, pseudoInputCommit) :: rest => do
      let verified ←
        env.verifyUnsafeClsagSignature message sig signerKeyImage decoys pseudoInputCommit
      let others ← verifyInputSignatures message rest
      return verified && others

/-- `verify_clsag_signatures`. -/
def verifyClsagSignatures (rv : RctDataSizeChecked) : PointM Bool :=
  if rv.pseudoInputCommits.length ≠ rv.decoys.length then
    pure false
  else
    match env.getRingSignatureMessage rv with
    | none => pure false
    | some message =>
      env.verifyInputSignatures message
        ((rv.clsags.zip rv.signerKeyImages).zip (rv.decoys.zip rv.pseudoInputCommits))

end Env

end Memero
