import Memero.Crypto.RangeProof

/-!
# Making confidential data

`generate_ringct` of `math/ringct/controller/ringCT_Gen.cpp` with the functions below it, the
encryption of amounts in `rctOps.cpp` and `decode_ringct_commitment` of `ringCT.cpp`.
-/

namespace Memero

open List Nat Sodium

/-- `rctInputData`. -/
structure RctInputData where
  amount : Nat
  signerSk : EcScalar
  signerBlindingFactor : EcScalar
  indexInDecoys : Nat
  decoys : List OutputPublicData
  deriving DecidableEq, Repr

/-- `rctOutputData`. -/
structure RctOutputData where
  amount : Nat
  ecdhSharedSecretHashedByIndex : EcScalar
  deriving DecidableEq, Repr

/-- The scalars drawn by one call: those of the attempts at the range proof, the blinding
factors of all pseudo inputs but the last, and those of the signature of each input. -/
structure RingctDraws where
  proof : List BpDraws
  inputs : Nat → EcScalar
  signatures : Nat → Nat → EcScalar

/-- `hash_and_xor_int`: the first eight bytes of the hash over the amount. -/
def hashAndXorInt (sha3 : List UInt8 → Hash) (x : Nat) (y : EcScalar) : Nat :=
  x ^^^ (sha3 (ascii "amount" ++ scalarBlob y) % 2 ^ 64)

namespace Sodium

variable (sodium : Sodium) (sha3 : List UInt8 → Hash)

/-- `crypto::hash_to_scalar`. -/
def hashToScalar (data : List UInt8) : EcScalar :=
  sodium.reduce (sha3 data)

/-- `get_blinding_factor_from_hashed_shared_secret`. -/
def getBlindingFactorFromHashedSharedSecret (x : EcScalar) : EcScalar :=
  sodium.hashToScalar sha3 (ascii "commitment_mask" ++ scalarBlob x)

/-- The amounts and the blinding factors of the outputs. -/
def openings (outputs : List RctOutputData) : List (Nat × EcScalar) :=
  outputs.map fun x =>
    (x.amount, sodium.getBlindingFactorFromHashedSharedSecret sha3 x.ecdhSharedSecretHashedByIndex)

/-- `generate_range_proof`: the sum of the blinding factors, the commitments and the proof. -/
def generateRangeProof (outputs : List RctOutputData) (draws : List BpDraws) :
    CheckedM (Option (EcScalar × List EcPoint × Bulletproof)) := do
  let xs := sodium.openings sha3 outputs
  match ← sodium.bulletproofMake sha3 xs draws with
  | none => return none
  | some proof =>
    let outputBlindingFactorsSum := sodium.vectorSum (xs.map (·.2))
    let outputCommits ← OptionT.lift (xs.mapM fun x => sodium.commit x.1 x.2)
    return some (outputBlindingFactorsSum, outputCommits, proof)

/-- The blinding factors of the pseudo inputs: the last makes their sum `target`. -/
def matchingBlindingFactors (random : Nat → EcScalar) (target : EcScalar) (count : Nat) :
    List EcScalar :=
  let bs := (List.range (count - 1)).map random
  bs ++ [sodium.subScalars target (sodium.vectorSum bs)]

/-- `generate_matching_input_commits`. -/
def generateMatchingInputCommits (random : Nat → EcScalar) (target : EcScalar) (xs : List Nat) :
    PointM (List (EcScalar × EcPoint)) :=
  if xs.isEmpty then
    return []
  else
    ((sodium.matchingBlindingFactors random target xs.length).zip xs).mapM fun pair => do
      let point ← sodium.commit pair.2 pair.1
      return (pair.1, point)

end Sodium

namespace Env

variable (env : Env) (sha3 : List UInt8 → Hash)

/-- The signature of one input. -/
def signInput (random : Nat → EcScalar) (fullMessage : Hash) (i : RctInputData)
    (p : EcScalar × EcPoint) : CheckedM (ClsagUnsafe × EcPoint) := do
  let sig ← env.generateClsagSignature random fullMessage i.signerSk i.signerBlindingFactor
    i.indexInDecoys p.1 p.2 i.decoys
  let unsafeSig ← OptionT.lift (env.toUnsafeCLSAG sig)
  return (unsafeSig, sig.signerKeyImage)

/-- `generate_ringct`: `none` if the range proof prover still runs after the given attempts. -/
def generateRingct (draws : RingctDraws) (message : Hash) (inputs : List RctInputData)
    (outputs : List RctOutputData) (fee : Nat) : CheckedM (Option RctDataSizeChecked) := do
  CheckedM.require (inputs.length > 0)
  CheckedM.require (∀ i ∈ inputs, i.indexInDecoys < i.decoys.length)
  match ← env.generateRangeProof sha3 outputs draws.proof with
  | none => return none
  | some (outputBlindingFactorsSum, outputCommits, proof) =>
    let ecdh := outputs.map fun x => hashAndXorInt sha3 x.amount x.ecdhSharedSecretHashedByIndex
    let pseudoInputs ← OptionT.lift (env.generateMatchingInputCommits draws.inputs
      outputBlindingFactorsSum (inputs.map (·.amount)))
    let pseudoInputCommits := pseudoInputs.map (·.2)
    let unsafeProof ← OptionT.lift (env.toUnsafeBulletproof proof)
    let unsigned : RctDataSizeChecked :=
      { message := message
        decoys := inputs.map (·.decoys)
        signerKeyImages := []
        ecdhEncryptedData := ecdh
        outputCommits := outputCommits
        fee := fee
        bulletproof := unsafeProof
        clsags := []
        pseudoInputCommits := pseudoInputCommits }
    match env.getRingSignatureMessage unsigned with
    | none => failure
    | some fullMessage =>
      let signed ← (inputs.zip pseudoInputs).zipIdx.mapM fun item =>
        env.signInput (draws.signatures item.2) fullMessage item.1.1 item.1.2
      return some
        { unsigned with
          signerKeyImages := signed.map (·.2)
          clsags := signed.map (·.1) }

/-- `decode_ringct_commitment`. -/
def decodeRingctCommitment (rv : RctDataSizeChecked) (ecdhSharedSecretHashedByIndex : EcScalar)
    (outputIndex : Nat) : CheckedM (Nat × EcScalar) := do
  match rv.ecdhEncryptedData[outputIndex]?, rv.outputCommits[outputIndex]? with
  | some maskedAmount, some C => do
      let blindingFactor :=
        env.getBlindingFactorFromHashedSharedSecret sha3 ecdhSharedSecretHashedByIndex
      let amount := hashAndXorInt sha3 maskedAmount ecdhSharedSecretHashedByIndex
      let point ← OptionT.lift (env.commit amount blindingFactor)
      CheckedM.require (C = point)
      return (amount, blindingFactor)
  | _, _ => failure

end Env

/-! ## Sums of commitments -/

namespace Sodium.Laws

variable {Γ : Type} [AddCommGroup Γ] {sodium : Sodium} {encode : Γ → EcPoint}
  (laws : sodium.Laws encode)

omit [AddCommGroup Γ] in
theorem cast_vectorSum (xs : List EcScalar) :
    ((sodium.vectorSum xs : Nat) : ZMod sodium.order) = (xs.sum : Nat) := by
  have start : ∀ total : EcScalar, ((xs.foldl sodium.addScalars total : Nat) : ZMod sodium.order) =
      (total : ZMod sodium.order) + (xs.sum : Nat) := by
    induction xs with
    | nil => simp
    | cons x xs ih =>
      intro total
      rw [foldl_cons, ih, cast_addScalars, sum_cons, cast_add, add_assoc]
  have whole := start 0
  rwa [cast_zero, zero_add] at whole

/-- The sum of commitments commits to the sum of the amounts under the sum of the blinding
factors. -/
theorem sum_commitments (g h : Γ) (xs : List (Nat × EcScalar)) :
    (xs.map fun x => x.2 • g + x.1 • h).sum = (xs.map (·.2)).sum • g + (xs.map (·.1)).sum • h := by
  induction xs with
  | nil => simp
  | cons x xs ih =>
    simp only [map_cons, sum_cons]
    rw [ih, add_nsmul, add_nsmul]
    abel

include laws

/-- Amounts that fit are determined by their multiples of a generator. -/
theorem nsmul_left_inj {h : Γ} (nonzero : h ≠ 0) {a b : Nat} (left : a < sodium.order)
    (right : b < sodium.order) : a • h = b • h ↔ a = b := by
  constructor
  · intro same
    have := Fact.mk laws.prime
    let _ := AddCommGroup.zmodModule laws.torsion
    by_contra different
    have cast : (a : ZMod sodium.order) - b ≠ 0 := by
      intro zero
      have equal := congrArg ZMod.val (sub_eq_zero.mp zero)
      rw [ZMod.val_cast_of_lt left, ZMod.val_cast_of_lt right] at equal
      exact different equal
    have inverse := inv_smul_smul₀ cast h
    rw [sub_smul, cast_smul_eq_nsmul, cast_smul_eq_nsmul, same, sub_self, smul_zero]
      at inverse
    exact nonzero inverse.symm
  · rintro rfl
    rfl

theorem matchingBlindingFactors_lt {random : Nat → EcScalar} (drawn : ∀ i, random i < sodium.order)
    (target : EcScalar) (count : Nat) :
    ∀ b ∈ sodium.matchingBlindingFactors random target count, b < sodium.order := by
  intro b member
  rcases mem_append.mp member with early | last
  · obtain ⟨i, -, rfl⟩ := mem_map.mp early
    exact drawn i
  · rw [mem_singleton.mp last]
    exact laws.subScalars_lt _ _

variable (random : Nat → EcScalar) (target : EcScalar)

theorem cast_matchingBlindingFactors (count : Nat) :
    (((sodium.matchingBlindingFactors random target count).sum : Nat) : ZMod sodium.order) =
      target := by
  unfold matchingBlindingFactors
  rw [List.sum_append, sum_singleton, cast_add, laws.cast_subScalars, cast_vectorSum]
  ring

omit [AddCommGroup Γ] laws in
theorem matchingBlindingFactors_length {count : Nat} (positive : 0 < count) :
    (sodium.matchingBlindingFactors random target count).length = count := by
  simp only [matchingBlindingFactors, length_append, length_map, length_range, length_singleton]
  omega

/-! ## What is built -/

section Built

variable {g h : Γ}
  (base : ∀ a, a < sodium.order → sodium.scalarmultBaseNoclamp a = encode (a • g))
  (nonzero : h ≠ 0) (isSecond : encode h = sodium.H)

include base nonzero isSecond

theorem commits_encode {xs : List (Nat × EcScalar)} (bounded : ∀ x ∈ xs, x.1 < 2 ^ 64)
    (reduced : ∀ x ∈ xs, x.2 < sodium.order) :
    (xs.mapM fun x => sodium.commit x.1 x.2).Returns (xs.map fun x => encode (x.2 • g + x.1 • h)) :=
  .mapM fun x member =>
    laws.commit_encode base nonzero isSecond (bounded x member) (reduced x member)

variable {random : Nat → EcScalar}

theorem generateMatchingInputCommits_returns (drawn : ∀ i, random i < sodium.order)
    (target : EcScalar) {xs : List Nat} (some : xs ≠ []) (bounded : ∀ x ∈ xs, x < 2 ^ 64) :
    (sodium.generateMatchingInputCommits random target xs).Returns
      (((sodium.matchingBlindingFactors random target xs.length).zip xs).map fun pair =>
        (pair.1, encode (pair.1 • g + pair.2 • h))) := by
  unfold generateMatchingInputCommits
  rw [if_neg (by rw [List.isEmpty_iff]; exact some)]
  apply PointM.Returns.mapM
  intro pair member
  obtain ⟨factor, amount⟩ := of_mem_zip member
  apply PointM.Returns.bind (laws.commit_encode base nonzero isSecond (bounded _ amount)
    (laws.matchingBlindingFactors_lt drawn target _ _ factor))
  exact .pure _

omit base isSecond in
/-- The balance of commitments whose blinding factors cancel is the balance of the amounts. -/
theorem balance_iff {inputs : List Nat} (some : inputs ≠ []) {outputs : List (Nat × EcScalar)}
    {fee : Nat} (inputsFit : inputs.sum < sodium.order)
    (outputsFit : (outputs.map (·.1)).sum + fee < sodium.order) :
    (((sodium.matchingBlindingFactors random (sodium.vectorSum (outputs.map (·.2)))
        inputs.length).zip inputs).map fun pair => pair.1 • g + pair.2 • h).sum =
      (outputs.map fun x => x.2 • g + x.1 • h).sum + fee • h ↔
    inputs.sum = (outputs.map (·.1)).sum + fee := by
  set factors := sodium.matchingBlindingFactors random (sodium.vectorSum (outputs.map (·.2)))
    inputs.length
  have length : factors.length = inputs.length :=
    matchingBlindingFactors_length _ _ (length_pos_iff.mpr some)
  have swapped : ((factors.zip inputs).map fun pair => pair.1 • g + pair.2 • h) =
      (((factors.zip inputs).map Prod.swap).map fun x => x.2 • g + x.1 • h) := by
    rw [map_map]
    rfl
  have masks : (((factors.zip inputs).map Prod.swap).map (·.2)).sum = factors.sum := by
    rw [map_map]
    exact congrArg List.sum (map_fst_zip (le_of_eq length))
  have amounts : (((factors.zip inputs).map Prod.swap).map (·.1)).sum = inputs.sum := by
    rw [map_map]
    exact congrArg List.sum (map_snd_zip (le_of_eq length.symm))
  have cancel : factors.sum • g = (outputs.map (·.2)).sum • g := by
    apply laws.nsmul_eq_of_cast_eq
    rw [laws.cast_matchingBlindingFactors, cast_vectorSum]
  rw [swapped, sum_commitments, sum_commitments, masks, amounts, cancel, add_assoc,
    add_right_inj, ← add_nsmul, laws.nsmul_left_inj nonzero inputsFit outputsFit]

end Built

end Sodium.Laws

/-! ## Balance and decoding -/

/-- The amount under the same key twice. -/
theorem hashAndXorInt_hashAndXorInt (sha3 : List UInt8 → Hash) (x : Nat) (y : EcScalar) :
    hashAndXorInt sha3 (hashAndXorInt sha3 x y) y = x := by
  rw [hashAndXorInt, hashAndXorInt, Nat.xor_assoc, Nat.xor_self, Nat.xor_zero]

section Balance

variable {env : Env} {Γ : Type} [AddCommGroup Γ] {encode : Γ → EcPoint}
  (laws : env.toSodium.Laws encode) {g h : Γ}

/-- The fields that balance and decoding depend on, in terms of the group. -/
structure BuiltFrom (env : Env) (encode : Γ → EcPoint) (g h : Γ) (sha3 : List UInt8 → Hash)
    (draws : RingctDraws) (inputs : List Nat) (outputs : List RctOutputData) (fee : Nat)
    (rv : RctDataSizeChecked) : Prop where
  fee : rv.fee = fee
  ecdh : rv.ecdhEncryptedData = outputs.map fun x =>
    hashAndXorInt sha3 x.amount x.ecdhSharedSecretHashedByIndex
  outputCommits : rv.outputCommits =
    ((env.openings sha3 outputs).map fun x => x.2 • g + x.1 • h).map encode
  pseudoInputCommits : rv.pseudoInputCommits =
    (((env.matchingBlindingFactors draws.inputs
      (env.vectorSum ((env.openings sha3 outputs).map (·.2))) inputs.length).zip inputs).map
        fun pair => pair.1 • g + pair.2 • h).map encode

include laws

variable {outputs : List RctOutputData} {sha3 : List UInt8 → Hash}

theorem openings_bounds (sha3 : List UInt8 → Hash) (bounded : ∀ x ∈ outputs, x.amount < 2 ^ 64) :
    (∀ x ∈ env.openings sha3 outputs, x.1 < 2 ^ 64) ∧
      ∀ x ∈ env.openings sha3 outputs, x.2 < env.order := by
  constructor
  · intro x member
    obtain ⟨output, listed, rfl⟩ := mem_map.mp member
    exact bounded output listed
  · intro x member
    obtain ⟨output, -, rfl⟩ := mem_map.mp member
    exact laws.reduce_lt _

variable (base : ∀ a, a < env.order → env.scalarmultBaseNoclamp a = encode (a • g))
  (nonzero : h ≠ 0) (isSecond : encode h = env.H)

include base nonzero isSecond

theorem generateRangeProof_yields (bounded : ∀ x ∈ outputs, x.amount < 2 ^ 64)
    (draws : List BpDraws) :
    (env.generateRangeProof sha3 outputs draws).Yields fun result => ∀ made, result = some made →
      made.1 = env.vectorSum ((env.openings sha3 outputs).map (·.2)) ∧
      made.2.1 = ((env.openings sha3 outputs).map fun x => x.2 • g + x.1 • h).map encode := by
  obtain ⟨amounts, masks⟩ := openings_bounds laws sha3 bounded
  have commits := laws.commits_encode base nonzero isSecond amounts masks
  refine .bind (.trivial _) ?_
  intro proof _
  cases proof with
  | none => exact .pure fun made same => by cases same
  | some proof =>
    refine .bind (.ofGives (.lift commits) rfl) ?_
    rintro _ rfl
    apply CheckedM.Yields.pure
    intro made same
    cases same
    exact ⟨rfl, by rw [map_map]; rfl⟩

variable {draws : RingctDraws}

theorem generateRingct_yields (drawn : ∀ i, draws.inputs i < env.order) (message : Hash)
    {inputs : List RctInputData} (inputsBounded : ∀ i ∈ inputs, i.amount < 2 ^ 64)
    (outputsBounded : ∀ x ∈ outputs, x.amount < 2 ^ 64) (fee : Nat) :
    (env.generateRingct sha3 draws message inputs outputs fee).Yields fun built =>
      ∀ rv, built = some rv → inputs ≠ [] ∧
        BuiltFrom env encode g h sha3 draws (inputs.map (·.amount)) outputs fee rv := by
  have someInput (positive : inputs.length > 0) : inputs.map (·.amount) ≠ [] :=
    fun none => length_pos_iff.mp positive (map_eq_nil_iff.mp none)
  have amounts : ∀ x ∈ inputs.map (·.amount), x < 2 ^ 64 := by
    intro x member
    obtain ⟨input, listed, rfl⟩ := mem_map.mp member
    exact inputsBounded input listed
  refine .bind (.require _) ?_
  intro _ positive
  refine .bind (.trivial _) ?_
  intro _ _
  refine .bind (generateRangeProof_yields laws base nonzero isSecond outputsBounded draws.proof) ?_
  intro result made
  cases result with
  | none => exact .pure fun rv same => by cases same
  | some result =>
    obtain ⟨factorsSum, outputCommits, proof⟩ := result
    obtain ⟨rfl, rfl⟩ := made _ rfl
    refine .bind (.ofGives (.lift (laws.generateMatchingInputCommits_returns base nonzero
      isSecond drawn _ (someInput positive) amounts)) rfl) ?_
    rintro _ rfl
    refine .bind (.trivial _) ?_
    intro unsafeProof _
    dsimp only
    split
    · exact .failure
    · rename_i fullMessage _
      refine .bind (.trivial _) ?_
      intro signed _
      apply CheckedM.Yields.pure
      intro rv same
      cases same
      refine ⟨length_pos_iff.mp positive, rfl, rfl, rfl, ?_⟩
      dsimp only
      rw [map_map, map_map]
      rfl

variable {inputs : List Nat} {fee : Nat} {rv : RctDataSizeChecked}
variable (built : BuiltFrom env encode g h sha3 draws inputs outputs fee rv)
include built

omit base in
theorem BuiltFrom.verifyRingctBalance_returns (some : inputs ≠ []) (feeBounded : fee < 2 ^ 64)
    (inputsFit : inputs.sum < env.order)
    (outputsFit : (outputs.map (·.amount)).sum + fee < env.order) :
    (env.verifyRingctBalance rv).Returns
      (decide (inputs.sum = (outputs.map (·.amount)).sum + fee)) := by
  have amounts : outputs.map (·.amount) = (env.openings sha3 outputs).map (·.1) := by
    rw [openings, map_map]
    rfl
  have multiple : (env.multH rv.fee).Returns (encode (fee • h)) := by
    rw [multH, ← isSecond, built.fee]
    exact laws.mult_encode (lt_of_lt_of_le feeBounded laws.amounts) fun _ => nonzero
  unfold Env.verifyRingctBalance
  rw [built.pseudoInputCommits, built.outputCommits]
  refine .bind (laws.sum_encode _) (.bind (laws.sum_encode _) (.bind multiple
    (.bind (laws.addPoints_encode _ _) ?_)))
  rw [amounts] at outputsFit ⊢
  rw [decide_eq_decide.mpr (laws.injective.eq_iff.trans
    (laws.balance_iff nonzero some inputsFit outputsFit))]
  exact .pure _

theorem BuiltFrom.decodeRingctCommitment_gives (bounded : ∀ x ∈ outputs, x.amount < 2 ^ 64)
    {i : Nat} {output : RctOutputData} (found : outputs[i]? = some output) :
    (env.decodeRingctCommitment sha3 rv output.ecdhSharedSecretHashedByIndex i).Gives
      (output.amount, env.getBlindingFactorFromHashedSharedSecret sha3
        output.ecdhSharedSecretHashedByIndex) := by
  set factor := env.getBlindingFactorFromHashedSharedSecret sha3
    output.ecdhSharedSecretHashedByIndex with isFactor
  have masked : rv.ecdhEncryptedData[i]? =
      some (hashAndXorInt sha3 output.amount output.ecdhSharedSecretHashedByIndex) := by
    rw [built.ecdh, getElem?_map, found]
    rfl
  have committed : rv.outputCommits[i]? = some (encode (factor • g + output.amount • h)) := by
    rw [built.outputCommits, openings, map_map, map_map, getElem?_map, found]
    rfl
  have commit := laws.commit_encode base nonzero isSecond
    (bounded output (mem_of_getElem? found)) (laws.reduce_lt _ : factor < env.order)
  unfold Env.decodeRingctCommitment
  rw [masked, committed]
  dsimp only
  rw [hashAndXorInt_hashAndXorInt]
  exact .bind (.lift commit) (.bind (.require rfl) (.pure _))

end Balance

/-- What `generate_ringct` builds passes the balance check exactly if the amounts balance as
integers, and every output decodes to its amount and its blinding factor. -/
theorem generateRingct_balances {env : Env} {Γ : Type} [AddCommGroup Γ] {encode : Γ → EcPoint}
    (laws : env.toSodium.Laws encode) (sha3 : List UInt8 → Hash) {draws : RingctDraws}
    (drawn : ∀ i, draws.inputs i < env.order) (message : Hash) {inputs : List RctInputData}
    {outputs : List RctOutputData} {fee : Nat} (inputsBounded : ∀ i ∈ inputs, i.amount < 2 ^ 64)
    (outputsBounded : ∀ x ∈ outputs, x.amount < 2 ^ 64) (feeBounded : fee < 2 ^ 64)
    (inputsFit : (inputs.map (·.amount)).sum < env.order)
    (outputsFit : (outputs.map (·.amount)).sum + fee < env.order) :
    (env.generateRingct sha3 draws message inputs outputs fee).Yields fun built =>
      ∀ rv, built = some rv →
        (env.verifyRingctBalance rv).Returns
          (decide ((inputs.map (·.amount)).sum = (outputs.map (·.amount)).sum + fee)) ∧
        ∀ i output, outputs[i]? = some output →
          (env.decodeRingctCommitment sha3 rv output.ecdhSharedSecretHashedByIndex i).Gives
            (output.amount, env.getBlindingFactorFromHashedSharedSecret sha3
              output.ecdhSharedSecretHashedByIndex) := by
  obtain ⟨g, base⟩ := laws.base
  obtain ⟨h, nonzero, isSecond⟩ := (laws.valid _).mp laws.second
  have yields : (env.generateRingct sha3 draws message inputs outputs fee).Yields _ :=
    generateRingct_yields laws base nonzero isSecond drawn message inputsBounded outputsBounded fee
  intro uninit failures result same rv isBuilt
  obtain ⟨some, built⟩ := yields uninit failures result same rv isBuilt
  constructor
  · apply built.verifyRingctBalance_returns laws nonzero isSecond _ feeBounded inputsFit outputsFit
    exact fun none => some (map_eq_nil_iff.mp none)
  · intro i output found
    exact built.decodeRingctCommitment_gives laws base nonzero isSecond outputsBounded found

/-! ## The largest amount -/

/-- An input of the largest amount, alone in its ring. -/
def maximalInput : RctInputData where
  amount := 2 ^ 64 - 1
  signerSk := 1
  signerBlindingFactor := 1
  indexInDecoys := 0
  decoys := [{ outputPublicKey := identity + 1, commit := identity + (2 ^ 65 - 1) }]

def maximalOutput : RctOutputData where
  amount := 2 ^ 64 - 1
  ecdhSharedSecretHashedByIndex := 0

def maximalDraws : RingctDraws where
  proof := [(maximalRun 0).draws]
  inputs := fun _ => 0
  signatures := fun _ _ => 1

theorem maximalInput_signed (fullMessage : Hash) :
    ∃ signed, (constantHash.signInput (fun _ => 1) fullMessage maximalInput
      (0, identity + (2 ^ 65 - 2))).Gives signed := by
  have image : (constantHash.mult 1 (identity + 1)).Returns (identity + 1) :=
    .ofResult (by decide +kernel)
  have inverse : (constantHash.toInv8 (identity + 1)).Returns
      (identity + constantHash.invEight) := by
    unfold toInv8 mult
    rw [if_neg (by decide +kernel)]
    exact .ofResult (by decide +kernel)
  have difference : (constantHash.subPoints (identity + (2 ^ 65 - 1))
      (identity + (2 ^ 65 - 2))).Returns (identity + 1) :=
    .ofResult (by decide +kernel)
  have surplus : constantHash.subScalars 1 0 = 1 := by decide +kernel
  have made : ∃ sig : Clsag, sig.blindingFactorSurplusKeyImage = identity + 1 ∧
      (constantHash.generateClsagSignature (fun _ => 1) fullMessage 1 1 0 0
        (identity + (2 ^ 65 - 2)) maximalInput.decoys).Gives sig := by
    unfold Env.generateClsagSignature
    rw [surplus]
    refine ⟨_, ?_, .bind (.require (by decide)) (.bind
      (.lift (.bind difference (.bind (.pure _) (.pure _)))) (.bind (.require rfl)
        (.bind (.require (by decide)) (.bind (.lift image) (.bind (.lift image)
          (.bind (.lift (.bind inverse (.pure _))) (.bind (.lift (.bind inverse (.pure _)))
            (.bind (.lift image) (.bind (.pure _) (.pure _))))))))))⟩
    rfl
  obtain ⟨sig, image, made⟩ := made
  rw [← image] at inverse
  exact ⟨_, .bind made (.bind (.lift (.bind inverse (.pure _))) (.pure _))⟩

theorem maximal_built :
    ∃ rv, (constantHash.generateRingct (fun _ => 0) maximalDraws 0 [maximalInput] [maximalOutput]
      0).Gives (some rv) := by
  have laws := constantHash_laws
  have fits := @maximalRun_fits 0 (zero_le 1)
  have regular := @maximalRun_regular 0 (zero_le 1)
  have opened : constantHash.openings (fun _ => 0) [maximalOutput] = (maximalRun 0).xs := by
    decide +kernel
  have proved : (constantHash.generateRangeProof (fun _ => 0) [maximalOutput]
      maximalDraws.proof).Gives (some (0, encodings (fun x : ZMod constantHash.order =>
        cyclicEncode x) 1 (maximalRun 0).V, (maximalRun 0).proof)) := by
    unfold generateRangeProof
    exact .bind (HonestRun.bulletproofMake_gives laws fits regular [])
      (.bind (.lift (HonestRun.commits_returns laws fits)) (.pure _))
  have matching : (constantHash.generateMatchingInputCommits maximalDraws.inputs 0
      [2 ^ 64 - 1]).Returns [(0, identity + (2 ^ 65 - 2))] := by
    have factors : constantHash.matchingBlindingFactors maximalDraws.inputs 0 1 = [0] := by
      decide +kernel
    have commit : (constantHash.commit (2 ^ 64 - 1) 0).Returns (identity + (2 ^ 65 - 2)) :=
      .bind (.ofResult (by decide +kernel : constantHash.scalarmultNoclamp (2 ^ 64 - 1)
        constantHash.H = some (identity + (2 ^ 65 - 2)))) (.ofResult (by decide +kernel))
    unfold generateMatchingInputCommits
    rw [length_singleton, factors]
    exact .bind (.bind commit (.pure _)) (.bind (.pure _) (.pure _))
  obtain ⟨signed, isSigned⟩ := maximalInput_signed _
  exact ⟨_, .bind (.require (by decide)) (.bind (.require (by decide)) (.bind proved
    (.bind (.lift matching) (.bind (.lift (HonestRun.toUnsafeBulletproof_returns laws regular))
      (.bind (.bind isSigned (.bind (.pure _) (.pure _))) (.pure _))))))⟩

theorem generateRingct_balances_maximal :
    ∃ rv, (constantHash.generateRingct (fun _ => 0) maximalDraws 0 [maximalInput] [maximalOutput]
        0).Gives (some rv) ∧
      (constantHash.verifyRingctBalance rv).Returns true ∧
      (constantHash.decodeRingctCommitment (fun _ => 0) rv 0 0).Gives (2 ^ 64 - 1, 0) := by
  obtain ⟨rv, built⟩ := maximal_built
  have drawn : ∀ i, maximalDraws.inputs i < constantHash.order :=
    fun _ => (by decide +kernel : 0 < constantHash.order)
  have balances := generateRingct_balances constantHash_laws (fun _ => 0) drawn 0
    (by decide : ∀ i ∈ [maximalInput], i.amount < 2 ^ 64)
    (by decide : ∀ x ∈ [maximalOutput], x.amount < 2 ^ 64) (by decide : 0 < 2 ^ 64)
    (by decide +kernel) (by decide +kernel)
  obtain ⟨balanced, decoded⟩ := balances (fun _ => 0) 0 (some rv) (by rw [built]) rv rfl
  exact ⟨rv, built, balanced, decoded 0 maximalOutput rfl⟩

end Memero
