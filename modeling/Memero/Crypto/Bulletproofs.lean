import Memero.Crypto.InnerProductArgument

/-!
# Range proofs

`bulletproof_MAKE` and `bulletproof_VERIFY` with the functions below them, and the conversion of a
proof to the form in which it is sent. The prover draws its scalars anew whenever a challenge
is zero; `draws` are the scalars of its attempts, in order.
-/

namespace Memero

/-- `bit_width`. -/
def bitWidth : Nat := 64

/-- `max_outputs`. -/
def maxOutputs : Nat := 16

/-- `max_vector_length`. -/
def maxVectorLength : Nat := 1024

/-- `Bulletproof`. -/
structure Bulletproof where
  A : EcPoint
  S : EcPoint
  T1 : EcPoint
  T2 : EcPoint
  tau : EcScalar
  mu : EcScalar
  LR : List (EcPoint × EcPoint)
  a : EcScalar
  b : EcScalar
  t : EcScalar

/-- What `maybeSafeBulletproof` has checked, with the cross terms paired by `zipLR`. -/
def Bulletproof.ofChecked (proof : BulletproofUnsafe) : Bulletproof where
  A := proof.A
  S := proof.S
  T1 := proof.T1
  T2 := proof.T2
  tau := proof.tau
  mu := proof.mu
  LR := proof.L.zip proof.R
  a := proof.a
  b := proof.b
  t := proof.t

/-- The scalars drawn in one attempt. -/
structure BpDraws where
  alpha : EcScalar
  sL : List EcScalar
  sR : List EcScalar
  rho : EcScalar
  tau1 : EcScalar
  tau2 : EcScalar

/-- What `get_bp_vectors_for_inner_product_argument` returns. -/
structure BpVectors where
  l : List EcScalar
  r : List EcScalar
  innerProductChallenge : EcScalar
  challengeY : EcScalar
  A : EcPoint
  S : EcPoint
  T1 : EcPoint
  T2 : EcPoint
  tau : EcScalar
  mu : EcScalar

/-- `HashChallenge`. -/
structure HashChallenge where
  VAS : EcScalar
  VASRehash : EcScalar
  VAST1T2 : EcScalar
  innerProductChallenge : EcScalar

/-- The loop of `ceiling_log2_review`. -/
def ceilingLog2Loop (x : Nat) : Nat → Nat → Nat → Nat × Nat
  | 0, y, log => (y, log)
  | fuel + 1, y, log => if y < x then ceilingLog2Loop x fuel (2 * y) (log + 1) else (y, log)

/-- `ceiling_log2_review`: the power of two that is not below `x`, and its exponent. The loop
doubles, so `x` bounds its rounds. -/
def ceilingLog2Review (x : Nat) : Nat × Nat :=
  ceilingLog2Loop x x 1 0

/-- `int_to_bits`. -/
def intToBits (x : Nat) : List EcScalar :=
  (List.range 64).map fun i => if x.testBit i then 1 else 0

namespace Sodium

variable (sodium : Sodium) (sha3 : List UInt8 → Hash)

/-! ## Generators -/

/-- `get_bp_generator`. -/
def getBpGenerator (base : EcPoint) (idx : Nat) : CheckedM EcPoint := do
  let e := sodium.hashToPointViaField (sha3 (blob base ++ ascii "bulletproof" ++ writeVarint idx))
  CheckedM.require (¬ e = identity)
  return e

/-- `get_bp_generator_G`. -/
def getBpGeneratorG (idx : Nat) : CheckedM EcPoint :=
  sodium.getBpGenerator sha3 sodium.H (idx * 2 + 1)

/-- `get_bp_generator_H`. -/
def getBpGeneratorH (idx : Nat) : CheckedM EcPoint :=
  sodium.getBpGenerator sha3 sodium.H (idx * 2)

/-- `get_bp_generator_G_V`. -/
def getBpGeneratorGV (idx : Nat) : CheckedM (List EcPoint) :=
  (List.range idx).mapM (sodium.getBpGeneratorG sha3)

/-- `get_bp_generator_H_V`. -/
def getBpGeneratorHV (idx : Nat) : CheckedM (List EcPoint) :=
  (List.range idx).mapM (sodium.getBpGeneratorH sha3)

/-! ## Proving -/

/-- `hash_V_A_S`. -/
def hashVAS (commits : List EcPoint) (x y : EcPoint) :
    PointM (Option (EcScalar × EcScalar)) := do
  let commitData ← commits.mapM sodium.toInv8
  match sodium.maybeHashVToNonZeroScalar commitData with
  | none => return none
  | some hashDataCommit =>
    let inv8X ← sodium.toInv8 x
    let inv8Y ← sodium.toInv8 y
    match sodium.maybeHashVToNonZeroScalar [dataOfScalar hashDataCommit, inv8X, inv8Y] with
    | none => return none
    | some challengeY =>
      return (sodium.maybeHashVToNonZeroScalar [dataOfScalar challengeY]).map (challengeY, ·)

/-- The hash of `T1` and `T2`, with `challenge_z` before them. -/
def hashT1T2 (challengeZ : EcScalar) (T1 T2 : EcPoint) : PointM (Option EcScalar) := do
  let inv8T1 ← sodium.toInv8 T1
  let inv8T2 ← sodium.toInv8 T2
  return sodium.maybeHashVToNonZeroScalar
    [dataOfScalar challengeZ, dataOfScalar challengeZ, inv8T1, inv8T2]

/-- `G_(a) + H_(b)`. -/
def commitScalars (a b : EcScalar) : PointM EcPoint := do
  let masked ← sodium.multH b
  sodium.addPoints (sodium.scalarmultBaseNoclamp a) masked

/-- `vector_commit(a, G_V) + vector_commit(b, H_V) + G_(c)`. -/
def commitVectors (a b : List EcScalar) (c : EcScalar) (GV HV : List EcPoint) :
    CheckedM EcPoint := do
  let first ← sodium.vectorCommit a GV
  let second ← sodium.vectorCommit b HV
  let both ← OptionT.lift (sodium.addPoints first second)
  OptionT.lift (sodium.addPoints both (sodium.scalarmultBaseNoclamp c))

/-- `z_exp_mult_two_exp_flatten`: the powers of two under the powers of `z` from the second
on. -/
def zExpMultTwoExp (zPowers : List EcScalar) (padded : Nat) : List EcScalar :=
  vectorConcat (sodium.vectorMultVMonadic ((zPowers.drop 2).take padded)
    (sodium.scalarPowers 2 bitWidth))

/-- `get_bp_vectors_for_inner_product_argument`: `none` if a challenge is zero. -/
def getBpVectors (xs : List (Nat × EcScalar)) (draws : BpDraws) :
    CheckedM (Option BpVectors) := do
  let padded := (ceilingLog2Review xs.length).1
  let bits := xs.map (fun x => intToBits x.1) ++
    List.replicate (padded - xs.length) (sodium.scalarRepeat 0 bitWidth)
  let V ← OptionT.lift (xs.mapM fun x => sodium.commit x.1 x.2)
  let aL := vectorConcat bits
  let aR := sodium.vectorSubtract aL 1
  let total := padded * bitWidth
  let GV ← sodium.getBpGeneratorGV sha3 total
  let HV ← sodium.getBpGeneratorHV sha3 total
  let A ← sodium.commitVectors aL aR draws.alpha GV HV
  let S ← sodium.commitVectors draws.sL draws.sR draws.rho GV HV
  match ← OptionT.lift (sodium.hashVAS V A S) with
  | none => return none
  | some (y, z) =>
    let l0 := sodium.vectorSubtract aL z
    let l1 := draws.sL
    let yPowers := sodium.scalarPowers y total
    let zPowers := sodium.scalarPowers z (padded + 2)
    let product ← sodium.hadamardProduct yPowers (sodium.vectorAdd aR z)
    let r0 ← sodium.vectorAddV product (sodium.zExpMultTwoExp zPowers padded)
    let r1 ← sodium.hadamardProduct yPowers draws.sR
    let t1 := sodium.addScalars (← sodium.innerProduct l0 r1) (← sodium.innerProduct l1 r0)
    let t2 ← sodium.innerProduct l1 r1
    let T1 ← OptionT.lift (sodium.commitScalars draws.tau1 t1)
    let T2 ← OptionT.lift (sodium.commitScalars draws.tau2 t2)
    match ← OptionT.lift (sodium.hashT1T2 z T1 T2) with
    | none => return none
    | some x =>
      let tau0 ← sodium.innerProduct (xs.map (·.2)) (zPowers.drop 2)
      let tau ← sodium.evaluatePolynomial [tau0, draws.tau1, draws.tau2] x
      let mu := sodium.addScalars (sodium.mulScalars x draws.rho) draws.alpha
      let l ← sodium.vectorAddV l0 (sodium.vectorMult l1 x)
      let r ← sodium.vectorAddV r0 (sodium.vectorMult r1 x)
      let t ← sodium.innerProduct l r
      return (sodium.maybeHashVToNonZeroScalar
          ([x, x, tau, mu, t].map dataOfScalar)).map fun challenge =>
        { l := l
          r := r
          innerProductChallenge := challenge
          challengeY := y
          A := A
          S := S
          T1 := T1
          T2 := T2
          tau := tau
          mu := mu }

/-- One attempt of `bulletproof_MAKE`: `none` if a challenge is zero. -/
def bulletproofAttempt (xs : List (Nat × EcScalar)) (draws : BpDraws) :
    CheckedM (Option Bulletproof) := do
  let total := (ceilingLog2Review xs.length).1 * bitWidth
  match ← sodium.getBpVectors sha3 xs draws with
  | none => return none
  | some bp =>
    let challengeYInv := sodium.multiplicativeInverse bp.challengeY
    let challengeYInvPowers := sodium.scalarPowers challengeYInv total
    let GV ← sodium.getBpGeneratorGV sha3 total
    let HV ← sodium.getBpGeneratorHV sha3 total
    let IV ← sodium.vectorMultPV challengeYInvPowers HV
    let u ← OptionT.lift (sodium.multH bp.innerProductChallenge)
    match ← sodium.makeRecursiveInnerProductArgument GV IV bp.l bp.r u
      bp.innerProductChallenge with
    | none => return none
    | some ipa =>
      let t ← sodium.innerProduct bp.l bp.r
      return some
        { A := bp.A
          S := bp.S
          T1 := bp.T1
          T2 := bp.T2
          tau := bp.tau
          mu := bp.mu
          LR := ipa.LR
          a := ipa.a
          b := ipa.b
          t := t }

/-- The loop of `bulletproof_MAKE`: `none` if it still runs after the given attempts. -/
def bulletproofAttempts (xs : List (Nat × EcScalar)) :
    List BpDraws → CheckedM (Option Bulletproof)
  | [] => return none
  | draws :: rest => do
      match ← sodium.bulletproofAttempt sha3 xs draws with
      | none => bulletproofAttempts xs rest
      | some proof => return some proof

/-- `bulletproof_MAKE`. -/
def bulletproofMake (xs : List (Nat × EcScalar)) (draws : List BpDraws) :
    CheckedM (Option Bulletproof) := do
  CheckedM.require (¬ xs.isEmpty)
  CheckedM.require (xs.length ≤ maxOutputs)
  CheckedM.require (∀ x ∈ xs, sodium.isReduced x.2)
  sodium.bulletproofAttempts sha3 xs draws

/-- `toUnsafeBulletproof`. -/
def toUnsafeBulletproof (proof : Bulletproof) : PointM BulletproofUnsafe := do
  let A ← sodium.toInv8 proof.A
  let S ← sodium.toInv8 proof.S
  let T1 ← sodium.toInv8 proof.T1
  let T2 ← sodium.toInv8 proof.T2
  let L ← (proof.LR.map (·.1)).mapM sodium.toInv8
  let R ← (proof.LR.map (·.2)).mapM sodium.toInv8
  pure
    { A := A
      S := S
      T1 := T1
      T2 := T2
      tau := proof.tau
      mu := proof.mu
      L := L
      R := R
      a := proof.a
      b := proof.b
      t := proof.t }

/-! ## Verifying -/

/-- `get_hash_challenges`. -/
def getHashChallenges (commits : List EcPoint) (proof : Bulletproof) :
    PointM (Option HashChallenge) := do
  match ← sodium.hashVAS commits proof.A proof.S with
  | none => return none
  | some (y, z) =>
    match ← sodium.hashT1T2 z proof.T1 proof.T2 with
    | none => return none
    | some x =>
      return (sodium.maybeHashVToNonZeroScalar
          ([x, x, proof.tau, proof.mu, proof.t].map dataOfScalar)).map
        fun challenge =>
          { VAS := y, VASRehash := z, VAST1T2 := x, innerProductChallenge := challenge }

/-- `delta`, for the challenges `y` and `z`. -/
def verifierDelta (y z : EcScalar) (padded : Nat) : EcScalar :=
  let delta1 := sodium.mulScalars (sodium.subScalars z (sodium.mulScalars z z))
    (sodium.sumOfScalarPowers y (padded * bitWidth))
  let zSumSkip3 :=
    sodium.vectorSum (((sodium.scalarPowers z (padded + 3)).drop 3).take padded)
  let delta2 := sodium.mulScalars zSumSkip3 (sodium.sumOfScalarPowers 2 bitWidth)
  sodium.subScalars delta1 delta2

/-- `coefficient_T_0`. -/
def coefficientT0 (commits : List EcPoint) (y z : EcScalar) (padded : Nat) :
    CheckedM EcPoint := do
  let masked ← OptionT.lift (sodium.multH (sodium.verifierDelta y z padded))
  let committed ← sodium.vectorCommit
    (((sodium.scalarPowers z (padded + 3)).drop 2).take commits.length) commits
  OptionT.lift (sodium.addPoints masked committed)

/-- The check of the blinding terms. -/
def verifyBlindingTerms (commits : List EcPoint) (proof : Bulletproof)
    (challenges : HashChallenge) (padded : Nat) : CheckedM Bool := do
  let left ← OptionT.lift (do
    let masked ← sodium.multH proof.t
    sodium.addPoints masked (sodium.scalarmultBaseNoclamp proof.tau))
  let T0 ← sodium.coefficientT0 commits challenges.VAS challenges.VASRehash padded
  let right ← sodium.evaluatePolynomialP [T0, proof.T1, proof.T2] challenges.VAST1T2
  return decide (left = right)

/-- The inner product argument that the verifier checks. -/
def verifierArgument (proof : Bulletproof) (challenges : HashChallenge) (padded : Nat)
    (GV HV : List EcPoint) : CheckedM RecursiveInnerProductArgument := do
  let total := padded * bitWidth
  let z := challenges.VASRehash
  let y := challenges.VAS
  let yPowers := sodium.scalarPowers y total
  let yInvPowers := sodium.scalarPowers (sodium.multiplicativeInverse y) total
  let PG ← sodium.vectorCommit (sodium.scalarRepeat (sodium.subScalars 0 z) total) GV
  let IV ← sodium.vectorMultPV yInvPowers HV
  let PIScalars ← sodium.vectorAddV
    (sodium.zExpMultTwoExp (sodium.scalarPowers z (padded + 3)) padded)
    (sodium.vectorMult yPowers z)
  let PI ← sodium.vectorCommit PIScalars IV
  let u ← OptionT.lift (sodium.multH challenges.innerProductChallenge)
  let xS ← OptionT.lift (sodium.mult challenges.VAST1T2 proof.S)
  let tu ← OptionT.lift (sodium.mult proof.t u)
  let P ← OptionT.lift (sodium.sum
    [proof.A, xS, PG, PI, tu, sodium.scalarmultBaseNoclamp (sodium.subScalars 0 proof.mu)])
  return { P := P, G := GV.take total, H := IV, LR := proof.LR, a := proof.a, b := proof.b, u := u }

/-- `bulletproof_VERIFY` of `functional/bulletproofs_verify.cpp`. -/
def bulletproofVerifyWith (commits : List EcPoint) (proof : Bulletproof)
    (GV HV : List EcPoint) : CheckedM Bool := do
  if ¬ 1 ≤ commits.length then
    return false
  else if proof.LR.length = 0 then
    return false
  else if ¬ commits.length ≤ maxOutputs then
    return false
  else
    let padded := (ceilingLog2Review commits.length).1
    let rounds := (ceilingLog2Review commits.length).2 + (ceilingLog2Review bitWidth).2
    if proof.LR.length ≠ rounds then
      return false
    else
      match ← OptionT.lift (sodium.getHashChallenges commits proof) with
      | none => return false
      | some challenges =>
        if ← sodium.verifyBlindingTerms commits proof challenges padded then
          let ipa ← sodium.verifierArgument proof challenges padded GV HV
          sodium.verifyRecursiveInnerProductArgument ipa challenges.innerProductChallenge
        else
          return false

/-- `bulletproof_VERIFY` of `pseudo_functional/bulletproofs_verify.cpp`, with the generators of
`init_generators`. -/
def bulletproofVerify (commits : List EcPoint) (proof : Bulletproof) : CheckedM Bool := do
  let GV ← sodium.getBpGeneratorGV sha3 maxVectorLength
  let HV ← sodium.getBpGeneratorHV sha3 maxVectorLength
  sodium.bulletproofVerifyWith commits proof GV HV

end Sodium

end Memero
