import Memero.Crypto.ClsagGen
import Memero.Crypto.HonestRun
import Mathlib.Tactic.Abel

/-!
# Completeness of range proofs

The verifier computes the challenges of the prover and accepts the proof, if the constant
coefficient that it puts together from the commitments is not the identity. Otherwise the
library refuses to multiply it, and the verifier compares with uninitialised memory.
-/

namespace Memero

open List Nat Prod CheckedM PointM Sodium HonestRun

open RangeProof InnerProduct

noncomputable section

namespace HonestRun

variable {sodium : Sodium} {sha3 : List UInt8 → Hash} {Γ : Type} [AddCommGroup Γ]
  {encode : Γ → EcPoint} [Fact sodium.order.Prime] [Module (ZMod sodium.order) Γ]
  {run : HonestRun sodium sha3 encode} (laws : sodium.Laws encode)

include laws

/-! ## The verifier -/


omit [Fact sodium.order.Prime] [Module (ZMod sodium.order) Γ] in
theorem toInv8V_returns {points : List Γ} (nonzero : ∀ x ∈ points, x ≠ 0) :
    ((points.map encode).mapM sodium.toInv8).Returns (points.map (inv8 sodium encode)) := by
  induction points with
  | nil => exact .pure []
  | cons x rest ih =>
    rw [map_cons, mapM_cons]
    apply Returns.bind (toInv8_returns laws (nonzero x mem_cons_self))
    apply Returns.bind (ih fun other member => nonzero other (mem_cons_of_mem _ member))
    exact .pure _

/-- The proof as it is sent. -/
def unsafeProof (run : HonestRun sodium sha3 encode) : BulletproofUnsafe where
  A := inv8 sodium encode run.A
  S := inv8 sodium encode run.S
  T1 := inv8 sodium encode run.T1
  T2 := inv8 sodium encode run.T2
  tau := run.tau.val
  mu := run.mu.val
  L := run.argument.1.map fun pair => inv8 sodium encode pair.1
  R := run.argument.1.map fun pair => inv8 sodium encode pair.2
  a := (run.argument.2.a 0).val
  b := (run.argument.2.b 0).val
  t := run.t.val

theorem toUnsafeBulletproof_returns (regular : run.Regular) :
    (sodium.toUnsafeBulletproof run.proof).Returns run.unsafeProof := by
  have cross := Laws.cross_ne_zero regular.argument
  have left : ∀ x ∈ run.argument.1.map fst, x ≠ 0 := by
    intro x member
    obtain ⟨pair, listed, rfl⟩ := mem_map.mp member
    exact (cross pair listed).1
  have right : ∀ x ∈ run.argument.1.map snd, x ≠ 0 := by
    intro x member
    obtain ⟨pair, listed, rfl⟩ := mem_map.mp member
    exact (cross pair listed).2
  apply Returns.bind (toInv8_returns laws regular.A)
  apply Returns.bind (toInv8_returns laws regular.S)
  apply Returns.bind (toInv8_returns laws regular.T1)
  apply Returns.bind (toInv8_returns laws regular.T2)
  have leftSent := toInv8V_returns laws left
  have rightSent := toInv8V_returns laws right
  rw [List.map_map, List.map_map] at leftSent rightSent
  rw [proof, List.map_map, List.map_map]
  apply Returns.bind leftSent
  apply Returns.bind rightSent
  exact .pure _

/-- The challenges of the verifier. -/
def challenges (run : HonestRun sodium sha3 encode) : HashChallenge where
  VAS := run.y.val
  VASRehash := run.z.val
  VAST1T2 := run.x.val
  innerProductChallenge := run.innerProductChallenge.val

theorem getHashChallenges_returns (regular : run.Regular) :
    (sodium.getHashChallenges (encodings encode run.xs.length run.V) run.proof).Returns (some
      run.challenges) := by
  apply Returns.bind (hashVAS_returns laws regular)
  apply Returns.bind (hashT1T2_returns laws regular)
  change Returns (pure (Option.map _ (sodium.maybeHashVToNonZeroScalar
    ([run.x.val, run.x.val, run.tau.val, run.mu.val, run.t.val].map dataOfScalar)))) _
  rw [laws.maybeHashVToNonZeroScalar_challengeOf regular.innerProductChallenge]
  exact .pure _

omit [Module (ZMod sodium.order) Γ] in
theorem verifierDelta_val (run : HonestRun sodium sha3 encode) (y z : ZMod sodium.order) :
    sodium.verifierDelta y.val z.val run.padded = (run.secret.delta y z).val := by
  have skipped : ((sodium.scalarPowers z.val (run.padded + 3)).drop 3).take run.padded =
      residues run.padded fun j => z ^ (3 + j) := by
    rw [Sodium.Laws.scalarPowers_val, residues, drop_table, Nat.add_sub_cancel, take_table le_rfl]
    rfl
  have ones : sodium.sumOfScalarPowers 2 bitWidth =
      (∑ i ∈ Finset.range bitWidth, (2 : ZMod sodium.order) ^ i).val := by
    rw [sumOfScalarPowers, laws.scalarPowers_two, Laws.vectorSum_residues]
  unfold verifierDelta
  dsimp only
  rw [skipped, ones, Laws.vectorSum_residues, Laws.sumOfScalarPowers_val,
    Laws.mulScalars_val, laws.subScalars_val, Laws.mulScalars_val,
    Laws.mulScalars_val, laws.subScalars_val]
  simp only [add_comm 3]
  rfl

omit laws in
/-- Padding commits to nothing. -/
theorem sum_commits (fits : run.Fits) (z : ZMod sodium.order) :
    dot run.xs.length (fun j => z ^ (2 + j)) run.V =
      ∑ j ∈ Finset.range run.padded, z ^ (j + 2) • run.V j := by
  have missing : ∀ j ∈ Finset.range run.padded, j ∉ Finset.range run.xs.length →
      z ^ (j + 2) • run.V j = 0 := by
    intro j _ outside
    have beyond : run.xs.length ≤ j := Nat.le_of_not_lt (mt Finset.mem_range.mpr outside)
    rw [V, Secret.commitment, run.value_eq fits]
    simp [secret, getElem?_eq_none beyond]
  rw [← Finset.sum_subset (Finset.range_subset_range.mpr run.length_le_padded) missing]
  simp only [dot, add_comm 2]

theorem coefficientT0_gives (fits : run.Fits) (regular : run.Regular) :
    (sodium.coefficientT0 (encodings encode run.xs.length run.V) run.y.val run.z.val
      run.padded).Gives (encode run.T0) := by
  have short := run.length_le_padded
  have powers : ((sodium.scalarPowers run.z.val (run.padded + 3)).drop 2).take run.xs.length =
      residues run.xs.length fun j => run.z ^ (2 + j) := by
    rw [Laws.scalarPowers_val, residues, drop_table, take_table (by omega)]
    rfl
  unfold coefficientT0
  rw [encodings_length, powers, verifierDelta_val laws]
  apply Gives.bind (.lift (multH_val laws run _))
  apply Gives.bind (laws.vectorCommit_encodings le_rfl fun j inside _ =>
    regular.commits j inside)
  rw [sum_commits fits]
  exact .lift (laws.addPoints_encode _ _)

/-- The commitment to the value of the polynomial. -/
theorem blindingTermsL_returns (run : HonestRun sodium sha3 encode) :
    (do
      let masked ← sodium.multH run.proof.t
      sodium.addPoints masked (sodium.scalarmultBaseNoclamp run.proof.tau)).Returns
      (encode (run.T0 + run.x • run.T1 + (run.x * run.x) • run.T2)) := by
  have terms := run.secret.blinding_terms (by decide : 0 < bitWidth)
    (fun i _ => run.bit_mul_bit i) run.g run.h run.y run.z run.x
  rw [show sodium.scalarmultBaseNoclamp run.proof.tau = _ from base_val run run.tau, T0, T1, T2,
    ← terms]
  exact (multH_val laws run run.t).bind (laws.addPoints_encode _ _)

theorem verifyBlindingTerms_gives (fits : run.Fits) (regular : run.Regular)
    (constant : run.T0 ≠ 0) :
    (sodium.verifyBlindingTerms (encodings encode run.xs.length run.V) run.proof run.challenges
      run.padded).Gives true := by
  have nonzero : ∀ i < 3, [run.T0, run.T1, run.T2].getD i 0 ≠ 0 := by
    intro i inside
    interval_cases i
    · exact constant
    · exact regular.T1
    · exact regular.T2
  have evaluated := laws.evaluatePolynomialP_encodings nonzero run.x
  have same : dot 3 (fun i => run.x ^ i) (fun i => [run.T0, run.T1, run.T2].getD i 0) =
      run.T0 + run.x • run.T1 + (run.x * run.x) • run.T2 := by
    simp [dot, Finset.sum_range_succ, pow_two]
  rw [same] at evaluated
  apply Gives.bind (.lift (blindingTermsL_returns laws run))
  apply Gives.bind (coefficientT0_gives laws fits regular)
  apply Gives.bind evaluated
  rw [decide_eq_true rfl]
  exact .pure _

/-- A constant coefficient that is the identity cannot be multiplied by one: what is compared
holds uninitialised memory in its place. -/
theorem verifyBlindingTerms_reads (fits : run.Fits) (regular : run.Regular)
    (constant : run.T0 = 0) {memory : Γ} (other : memory ≠ 0) :
    (sodium.verifyBlindingTerms (encodings encode run.xs.length run.V) run.proof run.challenges
      run.padded).Reads (encode memory) false := by
  have powers : sodium.scalarPowers run.x.val 3 = [1, run.x.val, (run.x * run.x).val] := by
    have tabulated := Laws.scalarPowers_val run.x 3
    simpa [residues, table, range_succ, ZMod.val_one, pow_two] using tabulated
  have refused : (sodium.mult 1 (encode run.T0)).Reads (encode memory) (encode memory) := by
    rw [constant, laws.zero, mult, laws.refused _ _ laws.identity_not_valid]
    exact .ofResult_none
  have multiplied : (sodium.vectorMultPV [1, run.x.val, (run.x * run.x).val]
      [encode run.T0, encode run.T1, encode run.T2]).Reads (encode memory)
      ([memory, run.x • run.T1, (run.x * run.x) • run.T2].map encode) := by
    apply Reads.bind (.ofGives (.require le_rfl))
    apply Reads.lift
    simp only [zip_cons_cons, mapM_cons]
    apply Reads.bind refused
    apply PointM.Reads.bind
    · apply Reads.bind (.ofReturns (laws.mult_val fun _ => regular.T1))
      apply PointM.Reads.bind
      · apply Reads.bind (.ofReturns (laws.mult_val fun _ => regular.T2))
        exact .ofReturns (.bind (.pure []) (.pure _))
      · exact .ofReturns (.pure _)
    · exact .ofReturns (.pure _)
  have evaluated : (sodium.evaluatePolynomialP [encode run.T0, encode run.T1, encode run.T2]
      run.x.val).Reads (encode memory)
      (encode (memory + run.x • run.T1 + (run.x * run.x) • run.T2)) := by
    have summed := laws.sum_encode [memory, run.x • run.T1, (run.x * run.x) • run.T2]
    rw [sum_cons, sum_cons, sum_cons, sum_nil, add_zero, ← add_assoc] at summed
    rw [evaluatePolynomialP, length_cons, length_cons, length_cons, length_nil, powers]
    apply Reads.bind (.ofGives (.require le_rfl))
    exact .bind multiplied (.lift (.ofReturns summed))
  have different : ¬ encode (run.T0 + run.x • run.T1 + (run.x * run.x) • run.T2) =
      encode (memory + run.x • run.T1 + (run.x * run.x) • run.T2) := by
    intro same
    have equal := laws.injective same
    rw [constant, add_left_inj, add_left_inj] at equal
    exact other equal.symm
  apply Reads.bind (.ofGives (.lift (blindingTermsL_returns laws run)))
  apply Reads.bind (.ofGives (coefficientT0_gives laws fits regular))
  apply CheckedM.Reads.bind evaluated
  rw [decide_eq_false different]
  exact .ofGives (.pure _)

theorem verifierArgument_gives (fits : run.Fits) (regular : run.Regular) :
    (sodium.verifierArgument run.proof
      run.challenges run.padded
      (encodings encode maxVectorLength run.G) (encodings encode maxVectorLength run.H)).Gives
      { P := encode (run.witness.commitment run.secret.size run.u)
        G := encodings encode run.secret.size run.witness.G
        H := encodings encode run.secret.size run.witness.H
        LR := run.proof.LR
        a := run.proof.a
        b := run.proof.b
        u := encode run.u } := by
  have size : run.secret.size = run.padded * bitWidth := rfl
  have few : run.secret.size ≤ maxVectorLength := run.padded_le fits
  have minusZ := laws.subScalars_val 0 run.z
  have minusMu := laws.subScalars_val 0 run.mu
  rw [ZMod.val_zero, zero_sub] at minusZ minusMu
  unfold verifierArgument challenges
  dsimp only
  rw [show run.proof.mu = run.mu.val from rfl, minusZ, minusMu, base_val run, ← size,
    laws.multiplicativeInverse_val regular.y, run.weights_eq (le_succ _) laws,
    Laws.scalarRepeat_val, Laws.scalarPowers_val, Laws.scalarPowers_val,
    Laws.vectorMult_residues]
  apply Gives.bind (laws.vectorCommit_encodings few fun i inside _ =>
    regular.generatorsG i (lt_of_lt_of_le inside few))
  apply Gives.bind (laws.vectorMultPV_encodings few fun i inside _ =>
    regular.generatorsH i (lt_of_lt_of_le inside few))
  apply Gives.bind (Laws.vectorAddV_residues le_rfl _ _)
  apply Gives.bind (laws.vectorCommit_encodings le_rfl fun i inside _ =>
    witness_H_ne_zero regular i inside)
  apply Gives.bind (.lift (multH_val laws run _))
  apply Gives.bind (.lift (laws.mult_val fun _ => regular.S))
  apply Gives.bind (.lift (laws.mult_val fun _ => u_ne_zero laws regular))
  have total := run.secret.commitment_witness regular.y run.g run.G run.H run.z run.x run.u
  have summed := laws.sum_encode
    [run.A, run.x • run.S, dot run.secret.size (fun _ => -run.z) run.G,
      dot run.secret.size (fun i => run.secret.weight run.z i + run.y ^ i * run.z)
        (fun i => run.y⁻¹ ^ i • run.H i), run.t • run.u, -run.mu • run.g]
  have same : [run.A, run.x • run.S, dot run.secret.size (fun _ => -run.z) run.G,
      dot run.secret.size (fun i => run.secret.weight run.z i + run.y ^ i * run.z)
        (fun i => run.y⁻¹ ^ i • run.H i), run.t • run.u, -run.mu • run.g].sum =
      run.witness.commitment run.secret.size run.u := by
    rw [witness, total, A, S]
    simp only [sum_cons, sum_nil]
    abel
  rw [same] at summed
  apply Gives.bind (.lift summed)
  rw [encodings, take_table few]
  exact .pure _

omit laws in
/-- The proof has the size that the verifier expects. -/
theorem proof_LR_length (run : HonestRun sodium sha3 encode) :
    run.proof.LR.length = run.rounds := by
  rw [proof, length_map]
  exact prove_length _ _ _ _ _

/-- What is left of the verifier after the checks of the sizes. -/
theorem bulletproofVerify_sizes (fits : run.Fits) (regular : run.Regular)
    (outcome : CheckedM Bool → Prop)
    (step : ∀ {α : Type} {program : CheckedM α} {next : α → CheckedM Bool} {middle : α},
      program.Gives middle → outcome (next middle) → outcome (program >>= next))
    (rest : outcome do
      let valid ← sodium.verifyBlindingTerms (encodings encode run.xs.length run.V) run.proof
        run.challenges run.padded
      if valid then
        let ipa ← sodium.verifierArgument run.proof run.challenges run.padded
          (encodings encode maxVectorLength run.G) (encodings encode maxVectorLength run.H)
        sodium.verifyRecursiveInnerProductArgument ipa run.challenges.innerProductChallenge
      else
        return false) :
    outcome (sodium.bulletproofVerify sha3 (encodings encode run.xs.length run.V) run.proof) := by
  have length := run.proof_LR_length
  have some : 1 ≤ (encodings encode run.xs.length run.V).length := by
    rw [encodings_length]
    exact length_pos_iff.mpr fits.nonempty
  have few : (encodings encode run.xs.length run.V).length ≤ maxOutputs := by
    rw [encodings_length]
    exact fits.few
  apply step (getBpGeneratorGV_gives laws le_rfl regular)
  apply step (getBpGeneratorHV_gives laws le_rfl regular)
  unfold bulletproofVerifyWith
  rw [if_neg (not_not.mpr some), if_neg (by rw [length]; exact succ_ne_zero _),
    if_neg (not_not.mpr few)]
  rw [if_neg (by rw [length, encodings_length]; exact not_not.mpr rfl), encodings_length]
  apply step (.lift (getHashChallenges_returns laws regular))
  exact rest

theorem bulletproofVerify_gives (fits : run.Fits) (regular : run.Regular)
    (constant : run.T0 ≠ 0) :
    (sodium.bulletproofVerify sha3 (encodings encode run.xs.length run.V) run.proof).Gives
      true := by
  have accepted := laws.verifyArgumentRounds_gives (u_ne_zero laws regular) regular.argument
  refine bulletproofVerify_sizes laws fits regular (·.Gives true) Gives.bind ?_
  apply Gives.bind (verifyBlindingTerms_gives laws fits regular constant)
  apply Gives.bind (verifierArgument_gives laws fits regular)
  rw [show run.secret.size = 2 ^ run.rounds from run.padded_mul_bitWidth]
  exact accepted

theorem bulletproofVerify_reads (fits : run.Fits) (regular : run.Regular)
    (constant : run.T0 = 0) {memory : Γ} (other : memory ≠ 0) :
    (sodium.bulletproofVerify sha3 (encodings encode run.xs.length run.V) run.proof).Reads
      (encode memory) false := by
  refine bulletproofVerify_sizes laws fits regular (·.Reads (encode memory) false)
    (fun gives => .bind (.ofGives gives)) ?_
  apply CheckedM.Reads.bind (verifyBlindingTerms_reads laws fits regular constant other)
  exact .ofGives (.pure _)

end HonestRun

/-! ## The proof is accepted -/

section Accepted

variable {env : Env} {sha3 : List UInt8 → Hash} {Γ : Type} [AddCommGroup Γ] {encode : Γ → EcPoint}
  (laws : env.toSodium.Laws encode)

include laws

theorem maybeFromInv8V_inv8 {points : List Γ} (nonzero : ∀ x ∈ points, x ≠ 0) :
    (points.map (inv8 env.toSodium encode)).mapM env.maybeFromInv8 =
      some (points.map encode) := by
  induction points with
  | nil => rfl
  | cons x rest ih =>
    have first : env.maybeFromInv8 (inv8 env.toSodium encode x) = some (encode x) :=
      laws.maybeFromInv8_encode (nonzero x mem_cons_self)
    rw [map_cons, mapM_cons, first, ih fun other member => nonzero other (mem_cons_of_mem _ member)]
    rfl

variable [Fact env.order.Prime] [Module (ZMod env.order) Γ]
  {run : HonestRun env.toSodium sha3 encode}

/-- What is sent passes the checks and is the proof that was made. -/
theorem maybeSafeBulletproof_unsafeProof (regular : run.Regular) :
    ∃ safe, env.maybeSafeBulletproof run.unsafeProof = some safe ∧
      Bulletproof.ofChecked safe = run.proof := by
  have cross := Laws.cross_ne_zero regular.argument
  have point : ∀ {x : Γ}, x ≠ 0 →
      env.maybeFromInv8 (inv8 env.toSodium encode x) = some (encode x) :=
    laws.maybeFromInv8_encode
  have left := @maybeFromInv8V_inv8 env Γ _ encode laws (run.argument.1.map fst) (by
    intro x member
    obtain ⟨pair, listed, rfl⟩ := mem_map.mp member
    exact (cross pair listed).1)
  have right := @maybeFromInv8V_inv8 env Γ _ encode laws (run.argument.1.map snd) (by
    intro x member
    obtain ⟨pair, listed, rfl⟩ := mem_map.mp member
    exact (cross pair listed).2)
  rw [List.map_map] at left right
  have reduced : ∀ s : ZMod env.order, env.isReduced s.val = true := by
    intro s
    rw [isReduced, beq_iff_eq]
    exact mod_eq_of_lt (ZMod.val_lt s)
  refine ⟨{ run.unsafeProof with
    A := encode run.A
    S := encode run.S
    T1 := encode run.T1
    T2 := encode run.T2
    L := run.argument.1.map (encode ∘ fst)
    R := run.argument.1.map (encode ∘ snd) }, ?_, ?_⟩
  · unfold Env.maybeSafeBulletproof
    simp only [unsafeProof, point regular.A, point regular.S, point regular.T1,
      point regular.T2]
    rw [show (run.argument.1.map fun pair => inv8 env.toSodium encode pair.1) =
      run.argument.1.map (inv8 env.toSodium encode ∘ fst) from rfl, left,
      show (run.argument.1.map fun pair => inv8 env.toSodium encode pair.2) =
      run.argument.1.map (inv8 env.toSodium encode ∘ snd) from rfl, right]
    simp [reduced]
  · unfold Bulletproof.ofChecked proof unsafeProof
    rw [zip_map']
    rfl

/-- The proof that `bulletproof_MAKE` returns is accepted for the commitments to its amounts,
whatever uninitialised memory holds, exactly if the verifier's constant coefficient is not the
identity. -/
theorem bulletproofMake_verifies (fits : run.Fits) (regular : run.Regular)
    (rest : List BpDraws) :
    ∃ proof unsafeProof safe commits,
      (env.bulletproofMake sha3 run.xs (run.draws :: rest)).Gives (some proof) ∧
      (env.toUnsafeBulletproof proof).Returns unsafeProof ∧
      env.maybeSafeBulletproof unsafeProof = some safe ∧
      (run.xs.mapM fun x => env.commit x.1 x.2).Returns commits ∧
      ((∀ uninit, (env.toSodium.bulletproofVerify sha3 commits (.ofChecked safe)).run.value uninit =
        some true) ↔ run.T0 ≠ 0) := by
  obtain ⟨safe, checked, same⟩ := maybeSafeBulletproof_unsafeProof laws regular
  refine ⟨_, _, safe, _, bulletproofMake_gives laws fits regular rest,
    toUnsafeBulletproof_returns laws regular, checked,
    commits_returns laws fits, ?_⟩
  rw [same]
  constructor
  · intro accepted constant
    have rejected := bulletproofVerify_reads laws fits regular constant
      (h_ne_zero laws run) 0
    have both := (accepted fun _ => encode run.h).symm.trans rejected
    cases both
  · intro constant uninit
    exact (bulletproofVerify_gives laws fits regular constant).value_eq uninit

end Accepted

/-! ## The largest amount

With a hash that is always one, the constant coefficient of the proof for the largest amount is
the blinding factor. -/

/-- The cyclic group with a constant hash. -/
def constantHash : Env :=
  { cyclicSetting with hashDataV := fun _ => 1 }

instance : Fact constantHash.order.Prime :=
  ⟨cyclicOrder_prime⟩

theorem constantHash_laws :
    constantHash.toSodium.Laws fun x : ZMod constantHash.order => cyclicEncode x :=
  { cyclicSetting_laws with }

theorem natCast_ne_zero {value : Nat} (positive : 0 < value) (small : value < 2 ^ 250) :
    (value : ZMod constantHash.order) ≠ 0 := by
  have below : value < constantHash.order :=
    lt_trans small (by decide +kernel : 2 ^ 250 < cyclicOrder)
  rw [ne_eq, ZMod.natCast_eq_zero_iff]
  exact not_dvd_of_pos_of_lt positive below

/-- The proof for the largest amount. The drawn scalars make the vectors constant. -/
def maximalRun (mask : EcScalar) :
    HonestRun constantHash.toSodium (fun _ => 0)
      (fun x : ZMod constantHash.order => cyclicEncode x) where
  g := 1
  h := (2 : Nat)
  G := fun _ => 1
  H := fun _ => 1
  base := by
    intro a _
    rw [nsmul_eq_mul, mul_one, cyclicEncode_natCast]
    rfl
  second := by
    have two := @cyclicEncode_natCast constantHash.order 2
    rw [Nat.mod_eq_of_lt (by decide +kernel : 2 < constantHash.order)] at two
    exact two
  vectorG := by
    intro i _
    have one := @cyclicEncode_natCast constantHash.order 1
    rw [Nat.mod_eq_of_lt (by decide +kernel : 1 < constantHash.order), Nat.cast_one] at one
    exact one
  vectorH := by
    intro i _
    have one := @cyclicEncode_natCast constantHash.order 1
    rw [Nat.mod_eq_of_lt (by decide +kernel : 1 < constantHash.order), Nat.cast_one] at one
    exact one
  xs := [(2 ^ 64 - 1, mask)]
  draws :=
    { alpha := 1
      sL := List.replicate 64 1
      sR := (List.range 64).map fun i => 2 ^ 64 - 2 ^ i
      rho := 1
      tau1 := 1
      tau2 := 1 }

theorem constantHash_challengeOf (keys : List CryptoData) : constantHash.challengeOf keys = 1 := by
  have one : constantHash.hashDataVToScalar keys = 1 :=
    mod_eq_of_lt (by decide +kernel : 1 < cyclicOrder)
  rw [challengeOf, one, cast_one]

section Maximal

variable {mask : EcScalar}

theorem maximalRun_fits (small : mask ≤ 1) : (maximalRun mask).Fits := by
  have one : 1 < constantHash.order := by decide +kernel
  have large : 2 ^ 64 < constantHash.order := by decide +kernel
  refine ⟨by simp [maximalRun], by simp [maximalRun, maxOutputs], ?_, ?_, one, ⟨?_, ?_⟩, ⟨?_, ?_⟩,
    one, one, one⟩
  · simp [maximalRun]
  · simp only [maximalRun, mem_singleton, forall_eq]
    exact lt_of_le_of_lt small one
  · rfl
  · intro s member
    rw [eq_of_mem_replicate member]
    exact one
  · rfl
  · intro s member
    obtain ⟨i, -, rfl⟩ := mem_map.mp member
    exact lt_of_le_of_lt (sub_le _ _) large

variable {i : Nat}

theorem maximalRun_bit (inside : i < 64) : (maximalRun mask).secret.bit i = 1 := by
  have first : i / 64 = 0 := div_eq_of_lt inside
  have position : i % 64 = i := mod_eq_of_lt inside
  have set : (2 ^ 64 - 1).testBit i = true := by
    rw [testBit_two_pow_sub_one, decide_eq_true inside]
  change ((((maximalRun mask).xs.getD (i / 64) (0, 0)).1.testBit (i % 64)).toNat :
    ZMod constantHash.order) = 1
  rw [first, position, show ((maximalRun mask).xs.getD 0 (0, 0)).1 = 2 ^ 64 - 1 from rfl, set]
  exact cast_one

theorem maximalRun_sL (inside : i < 64) : (maximalRun mask).secret.sL i = 1 := by
  change (((replicate 64 1).getD i 0 : Nat) : ZMod constantHash.order) = 1
  rw [getD_eq_getElem?_getD, getElem?_replicate, if_pos inside]
  exact cast_one

theorem maximalRun_sR (inside : i < 64) :
    (maximalRun mask).secret.sR i = ((2 ^ 64 - 2 ^ i : Nat) : ZMod constantHash.order) := by
  simp [secret, maximalRun, inside]

theorem maximalRun_challenges :
    (maximalRun mask).y = 1 ∧ (maximalRun mask).z = 1 ∧ (maximalRun mask).x = 1 ∧
      (maximalRun mask).innerProductChallenge = 1 :=
  ⟨constantHash_challengeOf _, constantHash_challengeOf _, constantHash_challengeOf _,
    constantHash_challengeOf _⟩

variable {f g : Nat → ZMod constantHash.order}

theorem dot_constant {n p q : Nat} (first : ∀ i < n, f i = p) (second : ∀ i < n, g i = q) :
    dot n f g = ((n * (p * q) : Nat) : ZMod constantHash.order) := by
  rw [dot_congr first second]
  simp [dot]

/-- The cross terms of constant vectors. -/
theorem cross_ne_zero_of_constant {k e n γ η a b : Nat} (short : k + e ≤ 100) (size : n = 2 ^ k)
    (positive : 0 < γ ∧ 0 < η ∧ 0 < a ∧ 0 < b)
    (bounded : γ ≤ 2 ^ e ∧ η ≤ 2 ^ e ∧ a ≤ 2 ^ e ∧ b ≤ 2 ^ e) :
    ((n * (a * γ) : Nat) + (n * (b * η) : Nat) + ((n * (a * b) : Nat) : ZMod constantHash.order)
      • 2 :
      ZMod constantHash.order) ≠ 0 := by
  have whole : ((n * (a * γ) : Nat) + (n * (b * η) : Nat) +
      ((n * (a * b) : Nat) : ZMod constantHash.order) • 2 : ZMod constantHash.order) =
      (n * (a * γ) + n * (b * η) + n * (a * b) * 2 : Nat) := by
    push_cast
    rw [smul_eq_mul]
  obtain ⟨onG, onH, onA, onB⟩ := bounded
  have power : 2 ^ k * (2 ^ e * 2 ^ e) ≤ 2 ^ 200 := by
    rw [← pow_add, ← pow_add]
    exact Nat.pow_le_pow_right Nat.two_pos (by omega)
  have term : ∀ {p q : Nat}, p ≤ 2 ^ e → q ≤ 2 ^ e → n * (p * q) ≤ 2 ^ 200 := by
    intro p q left right
    rw [size]
    exact Nat.le_trans (Nat.mul_le_mul_left _ (Nat.mul_le_mul left right)) power
  have first := term onA onG
  have second := term onB onH
  have third := term onA onB
  have some : 0 < n * (a * γ) := by
    rw [size]
    exact Nat.mul_pos (Nat.two_pow_pos k) (Nat.mul_pos positive.2.2.1 positive.1)
  rw [whole]
  exact natCast_ne_zero (by omega) (by omega)

/-- A run of the argument on constant vectors, with all challenges one: everything doubles. -/
theorem along_constant {k e : Nat} (short : k + e ≤ 100) {c : ZMod constantHash.order}
    {w : Witness (ZMod constantHash.order) (ZMod constantHash.order)} {γ η a b : Nat}
    (constant : ∀ i < 2 ^ k, w.G i = γ ∧ w.H i = η ∧ w.a i = a ∧ w.b i = b)
    (positive : 0 < γ ∧ 0 < η ∧ 0 < a ∧ 0 < b)
    (bounded : γ ≤ 2 ^ e ∧ η ≤ 2 ^ e ∧ a ≤ 2 ^ e ∧ b ≤ 2 ^ e) :
    Along (constantHash.nextChallenge fun x : ZMod constantHash.order => cyclicEncode x) 2
      (Laws.GoodRound 2) k c w := by
  induction k generalizing e c w γ η a b with
  | zero => trivial
  | succ k ih =>
    have next : ∀ c L R, constantHash.nextChallenge
        (fun x : ZMod constantHash.order => cyclicEncode x) c L R = 1 :=
      fun _ _ _ => constantHash_challengeOf _
    have power : 2 ^ (k + 1) = 2 * 2 ^ k := pow_succ' 2 k
    have lower : ∀ i < 2 ^ k, i < 2 ^ (k + 1) := fun i inside => by omega
    have upper : ∀ i < 2 ^ k, 2 ^ k + i < 2 ^ (k + 1) := fun i inside => by omega
    have nonzero := @cross_ne_zero_of_constant k e (2 ^ k) γ η a b (by omega) rfl positive bounded
    have doubled : ∀ value : Nat, value ≤ 2 ^ e → 2 * value ≤ 2 ^ (e + 1) := by
      intro value bound
      omega
    have different : ∀ value : Nat, 0 < value → value ≤ 2 ^ e →
        (value : ZMod constantHash.order) ≠ 0 := by
      intro value some bound
      have large : 2 ^ e < 2 ^ 250 := Nat.pow_lt_pow_right Nat.one_lt_two (by omega)
      exact natCast_ne_zero some (by omega)
    refine ⟨⟨?_, ?_, ?_, ?_, ?_⟩, ?_⟩
    · rw [next]
      exact one_ne_zero
    · intro i inside
      rw [(constant i (power ▸ inside)).1]
      exact different γ positive.1 bounded.1
    · intro i inside
      rw [(constant i (power ▸ inside)).2.1]
      exact different η positive.2.1 bounded.2.1
    · rw [Witness.crossL,
        dot_constant (fun i inside => (constant i (lower i inside)).2.2.1)
          (fun i inside => (constant _ (upper i inside)).1),
        dot_constant (fun i inside => (constant _ (upper i inside)).2.2.2)
          (fun i inside => (constant i (lower i inside)).2.1),
        dot_constant (fun i inside => (constant i (lower i inside)).2.2.1)
          (fun i inside => (constant _ (upper i inside)).2.2.2)]
      exact nonzero
    · rw [Witness.crossR,
        dot_constant (fun i inside => (constant _ (upper i inside)).2.2.1)
          (fun i inside => (constant i (lower i inside)).1),
        dot_constant (fun i inside => (constant i (lower i inside)).2.2.2)
          (fun i inside => (constant _ (upper i inside)).2.1),
        dot_constant (fun i inside => (constant _ (upper i inside)).2.2.1)
          (fun i inside => (constant i (lower i inside)).2.2.2)]
      exact nonzero
    · rw [next]
      refine @ih (e + 1) (by omega) _ _ (2 * γ) (2 * η) (2 * a) (2 * b) ?_ ?_ ?_
      · intro i inside
        obtain ⟨g1, h1, a1, b1⟩ := constant i (lower i inside)
        obtain ⟨g2, h2, a2, b2⟩ := constant _ (upper i inside)
        simp only [Witness.fold, g1, h1, a1, b1, g2, h2, a2, b2, inv_one, one_smul, mul_one,
          two_mul, cast_add, and_self]
      · obtain ⟨g, h, a, b⟩ := positive
        omega
      · exact ⟨doubled _ bounded.1, doubled _ bounded.2.1, doubled _ bounded.2.2.1,
          doubled _ bounded.2.2.2⟩

theorem maximalRun_l {z x : ZMod constantHash.order} (one : z = 1) (inside : i < 64) :
    (maximalRun mask).secret.l z x i = x := by
  rw [Secret.l, Secret.l0, maximalRun_bit inside, maximalRun_sL inside, one, sub_self, zero_add,
    one_mul]

theorem maximalRun_r (inside : i < 64) :
    (maximalRun mask).secret.r 1 1 1 i = ((2 ^ 64 + 1 : Nat) : ZMod constantHash.order) := by
  have below : 2 ^ i ≤ 2 ^ 64 := Nat.pow_le_pow_right Nat.two_pos (Nat.le_of_lt inside)
  have position : i % bitWidth = i := mod_eq_of_lt inside
  rw [Secret.r, Secret.r0, Secret.r1, Secret.weight, maximalRun_bit inside, maximalRun_sR inside,
    show (maximalRun mask).secret.width = bitWidth from rfl, position, cast_sub below]
  push_cast
  ring

theorem maximalRun_l0 (inside : i < 64) : (maximalRun mask).secret.l0 1 i = 0 := by
  rw [Secret.l0, maximalRun_bit inside, sub_self]

theorem dot_zero_left {n : Nat} (zero : ∀ i < n, f i = 0) : dot n f g = 0 := by
  apply Finset.sum_eq_zero
  intro i member
  rw [zero i (Finset.mem_range.mp member), zero_smul]

theorem dot_ones_left {n : Nat} {entry : Nat → Nat} (one : ∀ i < n, f i = 1)
    (entries : ∀ i < n, g i = entry i) :
    dot n f g = ((∑ i ∈ Finset.range n, entry i : Nat) : ZMod constantHash.order) := by
  rw [cast_sum]
  apply Finset.sum_congr rfl
  intro i member
  rw [one i (Finset.mem_range.mp member), entries i (Finset.mem_range.mp member), one_smul]

theorem maximalRun_t1 : (maximalRun mask).secret.t1 1 1 =
    ((∑ i ∈ Finset.range 64, (1 + 2 ^ i) : Nat) : ZMod constantHash.order) := by
  have size : (maximalRun mask).secret.size = 64 := rfl
  rw [Secret.t1, size, dot_zero_left fun i => maximalRun_l0, zero_add]
  apply dot_ones_left fun i => maximalRun_sL
  intro i inside
  have position : i % bitWidth = i := mod_eq_of_lt inside
  rw [Secret.r0, Secret.weight, maximalRun_bit inside,
    show (maximalRun mask).secret.width = bitWidth from rfl, position]
  push_cast
  ring

theorem maximalRun_t2 : (maximalRun mask).secret.t2 1 =
    ((∑ i ∈ Finset.range 64, (2 ^ 64 - 2 ^ i) : Nat) : ZMod constantHash.order) := by
  apply dot_ones_left fun i => maximalRun_sL
  intro i inside
  rw [Secret.r1, one_pow, one_mul, maximalRun_sR inside]

theorem maximalRun_T0 : (maximalRun mask).T0 = (mask : ZMod constantHash.order) := by
  obtain ⟨y, z, -⟩ := @maximalRun_challenges mask
  have constant := (maximalRun mask).secret.T0_eq (by decide : 0 < bitWidth)
    (fun i _ => (maximalRun mask).bit_mul_bit i) (maximalRun mask).g (maximalRun mask).h 1 1
  rw [T0, y, z, constant, show (maximalRun mask).secret.size = 64 from rfl,
    dot_zero_left fun i => maximalRun_l0, zero_smul, zero_add, Secret.tau0,
    show (maximalRun mask).secret.count = 1 from rfl, Finset.sum_range_one, one_pow, mul_one]
  exact mul_one _

theorem maximalRun_argument :
    Along (constantHash.nextChallenge fun x : ZMod constantHash.order => cyclicEncode x)
      (maximalRun mask).u (Laws.GoodRound (maximalRun mask).u) (maximalRun mask).rounds
      (maximalRun mask).innerProductChallenge (maximalRun mask).witness := by
  obtain ⟨y, z, x, w⟩ := @maximalRun_challenges mask
  have u : (maximalRun mask).u = 2 := by
    rw [u, w, one_smul]
    rfl
  rw [u, witness, y, z, x]
  refine @along_constant 6 65 (by decide) _ _ 1 1 1 (2 ^ 64 + 1) ?_ (by decide) (by decide)
  intro i inside
  refine ⟨cast_one.symm, ?_, ?_, maximalRun_r inside⟩
  · change (1 : ZMod constantHash.order)⁻¹ ^ i • (1 : ZMod constantHash.order) = _
    rw [inv_one, one_pow, one_smul, cast_one]
  · change (maximalRun mask).secret.l 1 1 i = _
    rw [maximalRun_l rfl inside, cast_one]

theorem maximalRun_regular (small : mask ≤ 1) : (maximalRun mask).Regular := by
  obtain ⟨y, z, x, w⟩ := @maximalRun_challenges mask
  have size : (maximalRun mask).secret.size = 64 := rfl
  have one : (1 : ZMod constantHash.order) ≠ 0 := one_ne_zero
  -- A sum of natural numbers as the group has it.
  have combined : ∀ {a b : Nat}, 0 < a + b * 2 → a + b * 2 < 2 ^ 250 →
      (a : ZMod constantHash.order) • (1 : ZMod constantHash.order) +
        (b : ZMod constantHash.order) • (2 : ZMod constantHash.order) ≠ 0 := by
    intro a b positive bounded
    have nonzero := natCast_ne_zero positive bounded
    rwa [smul_eq_mul, mul_one, smul_eq_mul, ← cast_two, ← cast_mul, ← cast_add]
  refine ⟨fun _ _ => one, fun _ _ => one, ?_, ?_, ?_, ?_, ?_, ?_, ?_, ?_, ?_, ?_,
    maximalRun_argument⟩
  · intro j inside
    have value := (maximalRun mask).value_eq (maximalRun_fits small) 0
    rw [lt_one_iff.mp inside, V, Secret.commitment, value]
    have bound : mask + (2 ^ 64 - 1) * 2 ≤ 1 + (2 ^ 64 - 1) * 2 := Nat.add_le_add_right small _
    exact @combined mask (2 ^ 64 - 1)
      (lt_of_lt_of_le (by decide) (le_add_left ((2 ^ 64 - 1) * 2) mask))
      (lt_of_le_of_lt bound (by decide))
  · have ones : dot 64 (maximalRun mask).secret.bit (maximalRun mask).G = _ :=
      dot_ones_left (fun i => maximalRun_bit) fun i _ => cast_one.symm
    have none : dot 64 (fun i => (maximalRun mask).secret.bit i - 1) (maximalRun mask).H = 0 :=
      dot_zero_left fun i inside => by rw [maximalRun_bit inside, sub_self]
    have alpha : (maximalRun mask).secret.alpha • (maximalRun mask).g =
        ((1 : Nat) : ZMod constantHash.order) := mul_one _
    rw [A, Secret.A, size, ones, none, alpha, add_zero, ← cast_add]
    exact natCast_ne_zero (by decide +kernel) (by decide +kernel)
  · have first : dot 64 (maximalRun mask).secret.sL (maximalRun mask).G = _ :=
      dot_ones_left (fun i => maximalRun_sL) fun i _ => cast_one.symm
    have second : dot 64 (maximalRun mask).secret.sR (maximalRun mask).H = _ :=
      (dot_comm _ _ _).trans (dot_ones_left (fun _ _ => rfl) fun i => maximalRun_sR)
    have rho : (maximalRun mask).secret.rho • (maximalRun mask).g =
        ((1 : Nat) : ZMod constantHash.order) := mul_one _
    rw [S, Secret.S, size, first, second, rho, ← cast_add, ← cast_add]
    exact natCast_ne_zero (by decide +kernel) (by decide +kernel)
  · rw [T1, Secret.T1, y, z, maximalRun_t1]
    exact @combined 1 (∑ i ∈ Finset.range 64, (1 + 2 ^ i)) (by decide +kernel) (by decide +kernel)
  · rw [T2, Secret.T2, y, maximalRun_t2]
    exact @combined 1 (∑ i ∈ Finset.range 64, (2 ^ 64 - 2 ^ i)) (by decide +kernel)
      (by decide +kernel)
  · rw [commitHash, constantHash_challengeOf]
    exact one
  · rw [y]
    exact one
  · rw [z]
    exact one
  · rw [x]
    exact one
  · rw [w]
    exact one

end Maximal

theorem bulletproofMake_verifies_maximal :
    ∃ proof unsafeProof safe commits,
      (constantHash.bulletproofMake (fun _ => 0) [(2 ^ 64 - 1, 1)] [(maximalRun 1).draws]).Gives
        (some proof) ∧
      (constantHash.toUnsafeBulletproof proof).Returns unsafeProof ∧
      constantHash.maybeSafeBulletproof unsafeProof = some safe ∧
      ([(2 ^ 64 - 1, 1)].mapM fun x : Nat × EcScalar => constantHash.commit x.1 x.2).Returns
        commits ∧
      ∀ uninit, (constantHash.toSodium.bulletproofVerify (fun _ => 0) commits
        (.ofChecked safe)).run.value uninit = some true := by
  have constant : (maximalRun 1).T0 ≠ 0 := by
    rw [maximalRun_T0, cast_one]
    exact one_ne_zero
  obtain ⟨proof, unsafeProof, safe, commits, made, sent, checked, committed, accepted⟩ :=
    bulletproofMake_verifies constantHash_laws (maximalRun_fits le_rfl)
      (maximalRun_regular le_rfl) []
  exact ⟨proof, unsafeProof, safe, commits, made, sent, checked, committed, accepted.mpr constant⟩

/-- The proof for the largest amount with the blinding factor zero: no challenge is zero and no
point of the proof is the identity, and the verifier rejects it if uninitialised memory holds a
point. -/
theorem bulletproofVerify_rejects_maximal :
    (∀ keys, constantHash.hashDataVToScalar keys ≠ 0) ∧
    ∃ proof unsafeProof safe commits,
      (constantHash.bulletproofMake (fun _ => 0) [(2 ^ 64 - 1, 0)] [(maximalRun 0).draws]).Gives
        (some proof) ∧
      (∀ point ∈ [proof.A, proof.S, proof.T1, proof.T2] ++ proof.LR.map Prod.fst ++
        proof.LR.map Prod.snd, point ≠ identity) ∧
      (constantHash.toUnsafeBulletproof proof).Returns unsafeProof ∧
      constantHash.maybeSafeBulletproof unsafeProof = some safe ∧
      ([(2 ^ 64 - 1, 0)].mapM fun x : Nat × EcScalar => constantHash.commit x.1 x.2).Returns
        commits ∧
      (constantHash.toSodium.bulletproofVerify (fun _ => 0) commits
        (.ofChecked safe)).run.value (fun _ => identity + 1) = some false := by
  have laws := constantHash_laws
  have fits := @maximalRun_fits 0 (zero_le 1)
  have regular := @maximalRun_regular 0 (zero_le 1)
  have constant : (maximalRun 0).T0 = 0 := maximalRun_T0.trans cast_zero
  have encoded : ∀ {x : ZMod constantHash.order}, x ≠ 0 → cyclicEncode x ≠ identity := by
    intro x nonzero zero
    exact nonzero (laws.injective (zero.trans laws.zero.symm))
  have cross := Laws.cross_ne_zero regular.argument
  have rejected := bulletproofVerify_reads laws fits regular constant
    (one_ne_zero : (1 : ZMod constantHash.order) ≠ 0)
  obtain ⟨safe, checked, same⟩ := maybeSafeBulletproof_unsafeProof laws regular
  refine ⟨?_, (maximalRun 0).proof, (maximalRun 0).unsafeProof, safe, _,
    bulletproofMake_gives laws fits regular [], ?_,
    toUnsafeBulletproof_returns laws regular, checked,
    commits_returns laws fits, ?_⟩
  · intro keys
    rw [← laws.challengeOf_val, constantHash_challengeOf]
    exact (ZMod.val_ne_zero 1).mpr one_ne_zero
  · intro point member
    simp only [HonestRun.proof, List.map_map, List.mem_append, List.mem_cons, List.not_mem_nil,
      or_false, mem_map] at member
    rcases member with ((rfl | rfl | rfl | rfl) | ⟨pair, listed, rfl⟩) | ⟨pair, listed, rfl⟩
    · exact encoded regular.A
    · exact encoded regular.S
    · exact encoded regular.T1
    · exact encoded regular.T2
    · exact encoded (cross pair listed).1
    · exact encoded (cross pair listed).2
  · have memory : identity + 1 = cyclicEncode (1 : ZMod constantHash.order) :=
      (maximalRun 0).vectorG 0 (by decide) ▸ rfl
    rw [same, memory]
    exact rejected 0

/-! ## The argument by itself -/

end

end Memero
