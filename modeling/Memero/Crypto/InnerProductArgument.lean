import Memero.Crypto.Vectors

/-!
# The inner product argument

`innerProductArgument_gen.cpp` and `innerProductArgument_verify.cpp` of
`math/ringct/functional`. The prover halves its vectors until one entry is left; the verifier
halves the generators along the cross terms of the proof and compares before the last fold.
-/

namespace Memero

open List Nat CheckedM

/-- `InnerProductArgument`. -/
structure InnerProductArgument where
  P : EcPoint
  G : List EcPoint
  H : List EcPoint
  L : EcPoint
  R : EcPoint
  u : EcPoint

/-- `RecursiveInnerProductArgument`. -/
structure RecursiveInnerProductArgument where
  P : EcPoint
  G : List EcPoint
  H : List EcPoint
  LR : List (EcPoint × EcPoint)
  a : EcScalar
  b : EcScalar
  u : EcPoint

namespace Sodium

variable (sodium : Sodium)

/-- `maybe_hash_V_to_non_zero_scalar`. -/
def maybeHashVToNonZeroScalar (keys : List CryptoData) : Option EcScalar :=
  if sodium.hashDataVToScalar keys = 0 then none else some (sodium.hashDataVToScalar keys)

/-! ## Proving -/

/-- `init_inner_product_argument`. -/
def initInnerProductArgument (G H : List EcPoint) (a b : List EcScalar) (u : EcPoint) :
    CheckedM InnerProductArgument := do
  let as ← splitVector a
  let bs ← splitVector b
  let cL ← sodium.innerProduct as.1 bs.2
  let cR ← sodium.innerProduct as.2 bs.1
  let Gs ← splitVector G
  let Hs ← splitVector H
  let L ← sodium.homomorphicHash Gs.2 Hs.1 as.1 bs.2 u cL
  let R ← sodium.homomorphicHash Gs.1 Hs.2 as.2 bs.1 u cR
  let t ← sodium.innerProduct a b
  let P ← sodium.homomorphicHash G H a b u t
  return { P := P, G := G, H := H, L := L, R := R, u := u }

/-- `finish_inner_product_argument`. -/
def finishInnerProductArgument (a b : List EcScalar) (challenge : EcScalar) :
    CheckedM (List EcScalar × List EcScalar) := do
  let as ← splitVector a
  let bs ← splitVector b
  let challengeInv := sodium.multiplicativeInverse challenge
  let newA ← sodium.vectorAddV (sodium.vectorMult as.1 challenge)
    (sodium.vectorMult as.2 challengeInv)
  let newB ← sodium.vectorAddV (sodium.vectorMult bs.1 challengeInv)
    (sodium.vectorMult bs.2 challenge)
  return (newA, newB)

/-- `split_generators_with_challenge`. -/
def splitGeneratorsWithChallenge (G H : List EcPoint) (challenge : EcScalar) :
    CheckedM (List EcPoint × List EcPoint) := do
  let Gs ← splitVector G
  let Hs ← splitVector H
  let challengeInv := sodium.multiplicativeInverse challenge
  let newG ← sodium.vectorAddPV (← sodium.scalarMultPV challengeInv Gs.1)
    (← sodium.scalarMultPV challenge Gs.2)
  let newH ← sodium.vectorAddPV (← sodium.scalarMultPV challenge Hs.1)
    (← sodium.scalarMultPV challengeInv Hs.2)
  return (newG, newH)

/-- The recursion of `make_recursive_inner_product_argument`, for at most `fuel` calls: `none`
if a challenge is zero. -/
def makeArgumentRounds (P : EcPoint) (G0 H0 : List EcPoint) (u : EcPoint) :
    Nat → List EcPoint → List EcPoint → List EcScalar → List EcScalar → EcScalar →
      List (EcPoint × EcPoint) → CheckedM (Option RecursiveInnerProductArgument)
  | 0, _, _, _, _, _, _ => failure
  | fuel + 1, G, H, a, b, challenge, LR => do
      if G.isEmpty then
        return none
      else if G.length = 1 then
        return some
          { P := P, G := G0, H := H0, LR := LR, a := a.headD 0, b := b.headD 0, u := u }
      else
        let ipa ← sodium.initInnerProductArgument G H a b u
        let L ← OptionT.lift (sodium.toInv8 ipa.L)
        let R ← OptionT.lift (sodium.toInv8 ipa.R)
        match sodium.maybeHashVToNonZeroScalar [dataOfScalar challenge, L, R] with
        | none => return none
        | some newChallenge =>
          let halves ← sodium.finishInnerProductArgument a b newChallenge
          let generators ← sodium.splitGeneratorsWithChallenge G H newChallenge
          makeArgumentRounds P G0 H0 u fuel generators.1 generators.2 halves.1 halves.2
            newChallenge (LR ++ [(ipa.L, ipa.R)])

/-- `make_recursive_inner_product_argument`. Every round halves the vectors, so their length
bounds the number of calls. -/
def makeRecursiveInnerProductArgument (G H : List EcPoint) (a b : List EcScalar) (u : EcPoint)
    (challenge : EcScalar) : CheckedM (Option RecursiveInnerProductArgument) := do
  let t ← sodium.innerProduct a b
  let P ← sodium.homomorphicHash G H a b u t
  sodium.makeArgumentRounds P G H u (G.length + 1) G H a b challenge []

/-! ## Verifying -/

/-- `verify_half`. -/
def verifyHalf (P L R : EcPoint) (challenge : EcScalar) : PointM EcPoint := do
  let challengeInv := sodium.multiplicativeInverse challenge
  let left ← sodium.mult (sodium.mulScalars challenge challenge) L
  let both ← sodium.addPoints left P
  let right ← sodium.mult (sodium.mulScalars challengeInv challengeInv) R
  sodium.addPoints both right

/-- `verify_inner_product_argument`. -/
def verifyInnerProductArgument (ipa : InnerProductArgument) (challenge : EcScalar)
    (aHalf bHalf : List EcScalar) : CheckedM Bool := do
  let challengeInv := sodium.multiplicativeInverse challenge
  let product ← sodium.innerProduct aHalf bHalf
  let h ← sodium.homomorphicHashFull ipa.G ipa.H (sodium.vectorMult aHalf challengeInv)
    (sodium.vectorMult aHalf challenge) (sodium.vectorMult bHalf challenge)
    (sodium.vectorMult bHalf challengeInv) ipa.u product
  let p ← OptionT.lift (sodium.verifyHalf ipa.P ipa.L ipa.R challenge)
  return decide (h = p)

/-- The recursion of `verify_recursive_inner_product_argument` over the cross terms. -/
def verifyArgumentRounds (a b : EcScalar) (u : EcPoint) :
    List (EcPoint × EcPoint) → EcPoint → List EcPoint → List EcPoint → EcScalar → CheckedM Bool
  | [], _, _, _, _ => return false
  | (L, R) :: rest, P, G, H, challenge => do
      let inv8L ← OptionT.lift (sodium.toInv8 L)
      let inv8R ← OptionT.lift (sodium.toInv8 R)
      match sodium.maybeHashVToNonZeroScalar [dataOfScalar challenge, inv8L, inv8R] with
      | none => return false
      | some newChallenge =>
        if rest.isEmpty then
          sodium.verifyInnerProductArgument
            { P := P, G := G, H := H, L := L, R := R, u := u } newChallenge [a] [b]
        else
          let generators ← sodium.splitGeneratorsWithChallenge G H newChallenge
          let half ← OptionT.lift (sodium.verifyHalf P L R newChallenge)
          verifyArgumentRounds a b u rest half generators.1 generators.2 newChallenge

/-- `verify_recursive_inner_product_argument`. -/
def verifyRecursiveInnerProductArgument (ipa : RecursiveInnerProductArgument)
    (challenge : EcScalar) : CheckedM Bool :=
  sodium.verifyArgumentRounds ipa.a ipa.b ipa.u ipa.LR ipa.P ipa.G ipa.H challenge

end Sodium

/-! ## Both sides follow the argument -/

/-- The hash of some data, as a residue. -/
def Sodium.challengeOf (sodium : Sodium) (keys : List CryptoData) : ZMod sodium.order :=
  (sodium.hashDataVToScalar keys : Nat)

/-- The challenge that follows `c`. -/
def Sodium.nextChallenge {Γ : Type} [AddCommGroup Γ] (sodium : Sodium) (encode : Γ → EcPoint)
    (c : ZMod sodium.order) (L R : Γ) : ZMod sodium.order :=
  sodium.challengeOf
    [dataOfScalar c.val, encode (sodium.invEight • L), encode (sodium.invEight • R)]

namespace Sodium.Laws

open InnerProduct

/-- The challenge of a round is not zero, and no generator and no cross term is the identity. -/
structure GoodRound {F Γ : Type} [Field F] [AddCommGroup Γ] [Module F Γ] (u : Γ) (n : Nat) (x : F)
    (w : Witness F Γ) : Prop where
  challenge : x ≠ 0
  generatorsG : ∀ i < 2 * n, w.G i ≠ 0
  generatorsH : ∀ i < 2 * n, w.H i ≠ 0
  left : w.crossL n u ≠ 0
  right : w.crossR n u ≠ 0

/-- A round of the code folds the vectors, the generators and the commitment alike. -/
structure FoldsAlike {Γ : Type} [AddCommGroup Γ] (sodium : Sodium) [Fact sodium.order.Prime]
    [Module (ZMod sodium.order) Γ] (encode : Γ → EcPoint) (u : Γ) (n : Nat)
    (x : ZMod sodium.order) (w : Witness (ZMod sodium.order) Γ) : Prop where
  vectors : (sodium.finishInnerProductArgument (residues (2 * n) w.a) (residues (2 * n) w.b)
    x.val).Gives (residues n (w.fold n x).a, residues n (w.fold n x).b)
  generators : (sodium.splitGeneratorsWithChallenge (encodings encode (2 * n) w.G)
    (encodings encode (2 * n) w.H) x.val).Gives
      (encodings encode n (w.fold n x).G, encodings encode n (w.fold n x).H)
  commitment : (sodium.verifyHalf (encode (w.commitment (2 * n) u)) (encode (w.crossL n u))
    (encode (w.crossR n u)) x.val).Returns (encode ((w.fold n x).commitment n u))

section Rounds

variable {Γ : Type} [AddCommGroup Γ] {sodium : Sodium} {encode : Γ → EcPoint}
  (laws : sodium.Laws encode) [prime : Fact sodium.order.Prime]

include laws

omit prime in
theorem challengeOf_val (keys : List CryptoData) :
    (sodium.challengeOf keys).val = sodium.hashDataVToScalar keys :=
  ZMod.val_cast_of_lt (laws.reduce_lt _)

theorem maybeHashVToNonZeroScalar_challengeOf {keys : List CryptoData}
    (nonzero : sodium.challengeOf keys ≠ 0) :
    sodium.maybeHashVToNonZeroScalar keys = some (sodium.challengeOf keys).val := by
  have value := laws.challengeOf_val keys
  unfold maybeHashVToNonZeroScalar
  rw [← value, if_neg ((ZMod.val_ne_zero _).mpr nonzero)]

variable [Module (ZMod sodium.order) Γ]
variable {x : ZMod sodium.order}

theorem verifyHalf_encode {P L R : Γ} (challenge : x ≠ 0) (left : L ≠ 0) (right : R ≠ 0) :
    (sodium.verifyHalf (encode P) (encode L) (encode R) x.val).Returns
      (encode ((x * x) • L + P + (x⁻¹ * x⁻¹) • R)) := by
  unfold verifyHalf
  rw [laws.multiplicativeInverse_val challenge]
  dsimp only
  rw [mulScalars_val, mulScalars_val]
  apply PointM.Returns.bind (laws.mult_val fun _ => left)
  apply PointM.Returns.bind (laws.addPoints_encode _ _)
  apply PointM.Returns.bind (laws.mult_val fun _ => right)
  exact laws.addPoints_encode _ _

variable {n : Nat} (positive : 0 < n) {w : Witness (ZMod sodium.order) Γ} {u : Γ}

include positive

theorem initInnerProductArgument_gives (nonzero : u ≠ 0) (generatorsG : ∀ i < 2 * n, w.G i ≠ 0)
    (generatorsH : ∀ i < 2 * n, w.H i ≠ 0) :
    (sodium.initInnerProductArgument (encodings encode (2 * n) w.G) (encodings encode (2 * n) w.H)
      (residues (2 * n) w.a) (residues (2 * n) w.b) (encode u)).Gives
      { P := encode (w.commitment (2 * n) u)
        G := encodings encode (2 * n) w.G
        H := encodings encode (2 * n) w.H
        L := encode (w.crossL n u)
        R := encode (w.crossR n u)
        u := encode u } := by
  have lower : ∀ i < n, i < 2 * n := fun i inside => by omega
  have upper : ∀ i < n, n + i < 2 * n := fun i inside => by omega
  apply Gives.bind (splitVector_table positive _)
  apply Gives.bind (splitVector_table positive _)
  apply Gives.bind (innerProduct_residues le_rfl w.a fun i => w.b (n + i))
  apply Gives.bind (innerProduct_residues le_rfl (fun i => w.a (n + i)) w.b)
  apply Gives.bind (splitVector_table positive _)
  apply Gives.bind (splitVector_table positive _)
  apply Gives.bind (laws.homomorphicHash_encodings
    (fun i inside => generatorsG (n + i) (upper i inside))
    (fun i inside => generatorsH i (lower i inside)) nonzero)
  apply Gives.bind (laws.homomorphicHash_encodings
    (fun i inside => generatorsG i (lower i inside))
    (fun i inside => generatorsH (n + i) (upper i inside)) nonzero)
  apply Gives.bind (innerProduct_residues le_rfl w.a w.b)
  apply Gives.bind (laws.homomorphicHash_encodings generatorsG generatorsH nonzero)
  exact .pure _

theorem finishInnerProductArgument_gives (challenge : x ≠ 0) :
    (sodium.finishInnerProductArgument (residues (2 * n) w.a) (residues (2 * n) w.b) x.val).Gives
      (residues n (w.fold n x).a, residues n (w.fold n x).b) := by
  apply Gives.bind (splitVector_table positive _)
  apply Gives.bind (splitVector_table positive _)
  rw [laws.multiplicativeInverse_val challenge]
  dsimp only
  rw [← residues, ← residues, ← residues, ← residues, vectorMult_residues, vectorMult_residues,
    vectorMult_residues, vectorMult_residues]
  apply Gives.bind (vectorAddV_residues le_rfl _ _)
  apply Gives.bind (vectorAddV_residues le_rfl _ _)
  exact .pure _

theorem splitGeneratorsWithChallenge_gives (challenge : x ≠ 0)
    (generatorsG : ∀ i < 2 * n, w.G i ≠ 0) (generatorsH : ∀ i < 2 * n, w.H i ≠ 0) :
    (sodium.splitGeneratorsWithChallenge (encodings encode (2 * n) w.G)
      (encodings encode (2 * n) w.H) x.val).Gives
      (encodings encode n (w.fold n x).G, encodings encode n (w.fold n x).H) := by
  have lower : ∀ i < n, i < 2 * n := fun i inside => by omega
  have upper : ∀ i < n, n + i < 2 * n := fun i inside => by omega
  apply Gives.bind (splitVector_table positive _)
  apply Gives.bind (splitVector_table positive _)
  rw [laws.multiplicativeInverse_val challenge]
  apply Gives.bind
    (laws.scalarMultPV_encodings fun i inside => generatorsG i (lower i inside))
  apply Gives.bind
    (laws.scalarMultPV_encodings fun i inside => generatorsG (n + i) (upper i inside))
  apply Gives.bind (laws.vectorAddPV_encodings n _ _)
  apply Gives.bind
    (laws.scalarMultPV_encodings fun i inside => generatorsH i (lower i inside))
  apply Gives.bind
    (laws.scalarMultPV_encodings fun i inside => generatorsH (n + i) (upper i inside))
  apply Gives.bind (laws.vectorAddPV_encodings n _ _)
  exact .pure _

theorem verifyInnerProductArgument_gives (nonzero : u ≠ 0) (good : GoodRound u n x w) :
    (sodium.verifyInnerProductArgument
      { P := encode (w.commitment (2 * n) u)
        G := encodings encode (2 * n) w.G
        H := encodings encode (2 * n) w.H
        L := encode (w.crossL n u)
        R := encode (w.crossR n u)
        u := encode u } x.val (residues n (w.fold n x).a) (residues n (w.fold n x).b)).Gives
      true := by
  unfold verifyInnerProductArgument
  rw [laws.multiplicativeInverse_val good.challenge]
  dsimp only
  rw [vectorMult_residues, vectorMult_residues, vectorMult_residues, vectorMult_residues]
  apply Gives.bind (innerProduct_residues le_rfl _ _)
  apply Gives.bind (laws.homomorphicHashFull_encodings positive good.generatorsG
    good.generatorsH nonzero)
  apply Gives.bind (.lift (laws.verifyHalf_encode good.challenge good.left good.right))
  rw [← Witness.commitment_fold_generators, ← Witness.commitment_fold good.challenge,
    decide_eq_true rfl]
  exact .pure _

theorem foldsAlike (good : GoodRound u n x w) : FoldsAlike sodium encode u n x w where
  vectors := laws.finishInnerProductArgument_gives positive good.challenge
  generators := laws.splitGeneratorsWithChallenge_gives positive good.challenge good.generatorsG
    good.generatorsH
  commitment := by
    rw [Witness.commitment_fold good.challenge]
    exact laws.verifyHalf_encode good.challenge good.left good.right

end Rounds

/-! ### Whole runs -/

section Runs

variable {Γ : Type} [AddCommGroup Γ] {sodium : Sodium} {encode : Γ → EcPoint}
  (laws : sodium.Laws encode) [prime : Fact sodium.order.Prime] [Module (ZMod sodium.order) Γ]
  {u : Γ} (nonzero : u ≠ 0)

include laws nonzero

variable {c : ZMod sodium.order} {w : Witness (ZMod sodium.order) Γ}

omit laws nonzero in
/-- No cross term of a good run is the identity. -/
theorem cross_ne_zero {k : Nat}
    (along : Along (sodium.nextChallenge encode) u (GoodRound u) k c w) :
    ∀ pair ∈ (prove (sodium.nextChallenge encode) u k c w).1, pair.1 ≠ 0 ∧ pair.2 ≠ 0 := by
  induction k generalizing c w with
  | zero =>
    intro pair member
    cases member
  | succ k ih =>
    obtain ⟨good, later⟩ := along
    intro pair member
    rcases mem_cons.mp member with rfl | deeper
    · exact ⟨good.left, good.right⟩
    · exact ih later pair deeper

/-- The prover computes the run of the argument, given a call for every round and one more. -/
theorem makeArgumentRounds_gives (P : EcPoint) (G0 H0 : List EcPoint) {k fuel : Nat}
    (enough : k < fuel) (along : Along (sodium.nextChallenge encode) u (GoodRound u) k c w)
    (LR : List (EcPoint × EcPoint)) :
    (sodium.makeArgumentRounds P G0 H0 (encode u) fuel (encodings encode (2 ^ k) w.G)
      (encodings encode (2 ^ k) w.H) (residues (2 ^ k) w.a) (residues (2 ^ k) w.b) c.val
      LR).Gives (some
        { P := P
          G := G0
          H := H0
          LR := LR ++ (prove (sodium.nextChallenge encode) u k c w).1.map (Prod.map encode encode)
          a := ((prove (sodium.nextChallenge encode) u k c w).2.a 0).val
          b := ((prove (sodium.nextChallenge encode) u k c w).2.b 0).val
          u := encode u }) := by
  -- One call for every round: the fuel goes down with the number of rounds.
  induction k generalizing fuel c w LR with
  | zero =>
    obtain ⟨rest, rfl⟩ := exists_eq_add_one_of_ne_zero (ne_of_gt enough)
    have single : (encodings encode (2 ^ 0) w.G).length = 1 := encodings_length _ _ _
    have nonempty : ¬ (encodings encode (2 ^ 0) w.G).isEmpty = true := by
      rw [List.isEmpty_iff, ← List.length_eq_zero_iff]
      exact one_ne_zero
    simp only [prove, map_nil, append_nil]
    exact .pure _
  | succ k ih =>
    obtain ⟨rest, rfl⟩ := exists_eq_add_one_of_ne_zero (ne_zero_of_lt enough)
    obtain ⟨good, later⟩ := along
    have positive : 0 < 2 ^ k := Nat.two_pow_pos k
    have length : (encodings encode (2 ^ (k + 1)) w.G).length = 2 * 2 ^ k := by
      rw [encodings_length, pow_succ']
    have nonempty : ¬ (encodings encode (2 ^ (k + 1)) w.G).isEmpty = true := by
      rw [List.isEmpty_iff, ← List.length_eq_zero_iff]
      omega
    have several : ¬ (encodings encode (2 ^ (k + 1)) w.G).length = 1 := by
      omega
    rw [makeArgumentRounds, if_neg nonempty, if_neg several, pow_succ']
    apply Gives.bind (laws.initInnerProductArgument_gives positive nonzero
      good.generatorsG good.generatorsH)
    apply Gives.bind (.lift (laws.toInv8_encode good.left))
    apply Gives.bind (.lift (laws.toInv8_encode good.right))
    rw [laws.maybeHashVToNonZeroScalar_challengeOf good.challenge]
    apply Gives.bind (laws.finishInnerProductArgument_gives positive good.challenge)
    apply Gives.bind (laws.splitGeneratorsWithChallenge_gives positive good.challenge
      good.generatorsG good.generatorsH)
    have remaining := ih (lt_of_succ_lt_succ enough) later
      (LR ++ [(encode (w.crossL (2 ^ k) u), encode (w.crossR (2 ^ k) u))])
    rw [append_assoc] at remaining
    exact remaining

variable {k : Nat} (along : Along (sodium.nextChallenge encode) u (GoodRound u) (k + 1) c w)
include along

theorem makeRecursiveInnerProductArgument_gives :
    (sodium.makeRecursiveInnerProductArgument (encodings encode (2 ^ (k + 1)) w.G)
      (encodings encode (2 ^ (k + 1)) w.H) (residues (2 ^ (k + 1)) w.a)
      (residues (2 ^ (k + 1)) w.b) (encode u) c.val).Gives (some
        { P := encode (w.commitment (2 ^ (k + 1)) u)
          G := encodings encode (2 ^ (k + 1)) w.G
          H := encodings encode (2 ^ (k + 1)) w.H
          LR := (prove (sodium.nextChallenge encode) u (k + 1) c w).1.map (Prod.map encode encode)
          a := ((prove (sodium.nextChallenge encode) u (k + 1) c w).2.a 0).val
          b := ((prove (sodium.nextChallenge encode) u (k + 1) c w).2.b 0).val
          u := encode u }) := by
  have good := along.1
  have generatorsG : ∀ i < 2 ^ (k + 1), w.G i ≠ 0 := by
    rw [pow_succ']
    exact good.generatorsG
  have generatorsH : ∀ i < 2 ^ (k + 1), w.H i ≠ 0 := by
    rw [pow_succ']
    exact good.generatorsH
  have enough : k + 1 < 2 ^ (k + 1) + 1 := Nat.lt_succ_of_lt Nat.lt_two_pow_self
  apply Gives.bind (innerProduct_residues le_rfl w.a w.b)
  apply Gives.bind (laws.homomorphicHash_encodings generatorsG generatorsH nonzero)
  rw [encodings_length]
  exact laws.makeArgumentRounds_gives nonzero _ _ _ enough along []

/-- The verifier follows the same run and ends with the commitment to what is left. -/
theorem verifyArgumentRounds_gives :
    (sodium.verifyArgumentRounds
      ((prove (sodium.nextChallenge encode) u (k + 1) c w).2.a 0).val
      ((prove (sodium.nextChallenge encode) u (k + 1) c w).2.b 0).val (encode u)
      ((prove (sodium.nextChallenge encode) u (k + 1) c w).1.map (Prod.map encode encode))
      (encode (w.commitment (2 ^ (k + 1)) u)) (encodings encode (2 ^ (k + 1)) w.G)
      (encodings encode (2 ^ (k + 1)) w.H) c.val).Gives true := by
  induction k generalizing c w with
  | zero =>
    obtain ⟨good, -⟩ := along
    simp only [prove]
    apply Gives.bind (.lift (laws.toInv8_encode good.left))
    apply Gives.bind (.lift (laws.toInv8_encode good.right))
    rw [laws.maybeHashVToNonZeroScalar_challengeOf good.challenge]
    exact laws.verifyInnerProductArgument_gives one_pos nonzero good
  | succ k ih =>
    obtain ⟨good, later⟩ := along
    have accepted := ih later
    rw [Witness.commitment_fold good.challenge] at accepted
    apply Gives.bind (.lift (laws.toInv8_encode good.left))
    apply Gives.bind (.lift (laws.toInv8_encode good.right))
    rw [laws.maybeHashVToNonZeroScalar_challengeOf good.challenge]
    dsimp only
    rw [if_neg (by simp [prove]), pow_succ']
    apply CheckedM.Gives.bind (laws.splitGeneratorsWithChallenge_gives (Nat.two_pow_pos _)
      good.challenge good.generatorsG good.generatorsH)
    apply Gives.bind (.lift (laws.verifyHalf_encode good.challenge good.left good.right))
    exact accepted

end Runs

end Sodium.Laws

end Memero
