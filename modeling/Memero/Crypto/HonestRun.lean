import Memero.Crypto.Bulletproofs
import Memero.Lib.RangeProof

/-!
# Runs of the range proof prover

A run of `bulletproof_MAKE` in terms of the group: every vector of the prover is the one of the
range proof that its input and its drawn scalars determine. The prover returns a proof if no
challenge is zero and no point that it multiplies is the identity.
-/

namespace Memero

open List Nat CheckedM Sodium

open RangeProof InnerProduct

/-! ## Padding -/

theorem ceilingLog2Loop_spec {x fuel k : Nat} (enough : x ≤ 2 ^ k + fuel) :
    ∃ rounds, ceilingLog2Loop x fuel (2 ^ k) k = (2 ^ rounds, rounds) ∧ x ≤ 2 ^ rounds ∧
      (k < rounds → 2 ^ (rounds - 1) < x) := by
  induction fuel generalizing k with
  | zero => exact ⟨k, rfl, enough, fun more => absurd more (lt_irrefl k)⟩
  | succ fuel ih =>
    unfold ceilingLog2Loop
    split
    · rename_i below
      have positive := Nat.two_pow_pos k
      have larger : x ≤ 2 ^ (k + 1) + fuel := by
        omega
      obtain ⟨rounds, found, bound, least⟩ := ih larger
      rw [← pow_succ']
      refine ⟨rounds, found, bound, fun more => ?_⟩
      rcases lt_or_ge (k + 1) rounds with further | last
      · exact least further
      · rwa [show rounds - 1 = k by omega]
    · rename_i above
      exact ⟨k, rfl, Nat.le_of_not_lt above, fun more => absurd more (Nat.lt_irrefl k)⟩

/-- The padded number is a power of two, not below the number and below twice the number. -/
theorem ceilingLog2Review_spec (x : Nat) :
    ∃ rounds, ceilingLog2Review x = (2 ^ rounds, rounds) ∧ x ≤ 2 ^ rounds ∧
      (0 < rounds → 2 ^ (rounds - 1) < x) := by
  simpa [ceilingLog2Review] using @ceilingLog2Loop_spec x x 0 (by simp)

theorem padded_le_maxOutputs {x rounds : Nat} (few : x ≤ maxOutputs)
    (least : 0 < rounds → 2 ^ (rounds - 1) < x) : 2 ^ rounds ≤ maxOutputs := by
  have short : rounds ≤ 4 := by
    by_contra long
    have large : 2 ^ 4 ≤ 2 ^ (rounds - 1) := Nat.pow_le_pow_right Nat.two_pos (by omega)
    unfold maxOutputs at few
    omega
  exact Nat.pow_le_pow_right Nat.two_pos short

/-- A list with what is missing to a length. -/
theorem map_append_replicate {α β : Type} (operation : α → β) (items : List α) (default : α)
    {n : Nat} (short : items.length ≤ n) :
    items.map operation ++ replicate (n - items.length) (operation default) =
      table n fun i => operation (items.getD i default) := by
  apply ext_getElem
  · simp [short]
  · intro i _ _
    rw [getElem_append]
    split
    · rename_i inside
      rw [length_map] at inside
      simp [inside]
    · rename_i outside
      rw [length_map] at outside
      simp [Nat.le_of_not_lt outside]

theorem getD_mem {α : Type} {items : List α} {i : Nat} (inside : i < items.length)
    (default : α) : items.getD i default ∈ items := by
  rw [getD_eq_getElem?_getD, getElem?_eq_getElem inside]
  exact getElem_mem inside

/-! ## Bits -/

/-- A number below a power of two is the sum of its bits. -/
theorem sum_testBit (x width : Nat) :
    ∑ i ∈ Finset.range width, (x.testBit i).toNat * 2 ^ i = x % 2 ^ width := by
  induction width with
  | zero => simp [mod_one]
  | succ width ih =>
    rw [Finset.sum_range_succ, ih, pow_succ, mod_mul, toNat_testBit, mul_comm]

theorem vectorConcat_eq_flatten (xs : List (List EcScalar)) :
    vectorConcat xs = xs.flatten := by
  have start : ∀ first : List EcScalar, xs.foldl (· ++ ·) first = first ++ xs.flatten := by
    induction xs with
    | nil => simp
    | cons x xs ih => simp [ih]
  exact start []

/-! ## The run -/

/-- The generators in terms of the group. -/
structure BpGenerators {Γ : Type} [AddCommGroup Γ] (sodium : Sodium) (sha3 : List UInt8 → Hash)
    (encode : Γ → EcPoint) where
  g : Γ
  h : Γ
  G : Nat → Γ
  H : Nat → Γ
  base : ∀ a, a < sodium.order → sodium.scalarmultBaseNoclamp a = encode (a • g)
  second : encode h = sodium.H
  vectorG : ∀ i < maxVectorLength, encode (G i) =
    sodium.hashToPointViaField
      (sha3 (blob sodium.H ++ ascii "bulletproof" ++ writeVarint (i * 2 + 1)))
  vectorH : ∀ i < maxVectorLength, encode (H i) =
    sodium.hashToPointViaField (sha3 (blob sodium.H ++ ascii "bulletproof" ++ writeVarint (i * 2)))

/-- A run of the prover: the amounts with their blinding factors and the scalars it draws. -/
structure HonestRun {Γ : Type} [AddCommGroup Γ] (sodium : Sodium) (sha3 : List UInt8 → Hash)
    (encode : Γ → EcPoint) extends BpGenerators sodium sha3 encode where
  xs : List (Nat × EcScalar)
  draws : BpDraws

noncomputable section

namespace HonestRun

variable {sodium : Sodium} {sha3 : List UInt8 → Hash} {Γ : Type} [AddCommGroup Γ]
  {encode : Γ → EcPoint}

/-- The number of outputs after padding. -/
def padded (run : HonestRun sodium sha3 encode) : Nat :=
  (ceilingLog2Review run.xs.length).1

/-- The input is one that the prover accepts, and the scalars are of the kind it draws. -/
structure Fits (run : HonestRun sodium sha3 encode) : Prop where
  nonempty : run.xs ≠ []
  few : run.xs.length ≤ maxOutputs
  amounts : ∀ x ∈ run.xs, x.1 < 2 ^ 64
  masks : ∀ x ∈ run.xs, x.2 < sodium.order
  alpha : run.draws.alpha < sodium.order
  sL : run.draws.sL.length = run.padded * bitWidth ∧ ∀ s ∈ run.draws.sL, s < sodium.order
  sR : run.draws.sR.length = run.padded * bitWidth ∧ ∀ s ∈ run.draws.sR, s < sodium.order
  rho : run.draws.rho < sodium.order
  tau1 : run.draws.tau1 < sodium.order
  tau2 : run.draws.tau2 < sodium.order

variable [Fact sodium.order.Prime] (run : HonestRun sodium sha3 encode)

/-- The secrets of the range proof. -/
def secret : Secret (ZMod sodium.order) where
  width := bitWidth
  count := run.padded
  bit := fun i => ((run.xs.getD (i / bitWidth) (0, 0)).1.testBit (i % bitWidth)).toNat
  mask := fun j => (run.xs.getD j (0, 0)).2
  alpha := run.draws.alpha
  sL := fun i => run.draws.sL.getD i 0
  sR := fun i => run.draws.sR.getD i 0
  rho := run.draws.rho
  tau1 := run.draws.tau1
  tau2 := run.draws.tau2

/-! ### Vectors -/

/-- A list of reduced scalars, by its entries. -/
theorem eq_residues {scalars : List EcScalar} {n : Nat}
    (fits : scalars.length = n ∧ ∀ s ∈ scalars, s < sodium.order) :
    scalars = residues n fun i => ((scalars.getD i 0 : Nat) : ZMod sodium.order) := by
  obtain ⟨rfl, reduced⟩ := fits
  conv_lhs => rw [eq_table scalars 0]
  apply table_congr
  intro i inside
  exact (ZMod.val_cast_of_lt (reduced _ (getD_mem inside 0))).symm

omit [Fact sodium.order.Prime] in
theorem length_le_padded : run.xs.length ≤ run.padded := by
  obtain ⟨rounds, found, bound, -⟩ := ceilingLog2Review_spec run.xs.length
  rwa [padded, found]

theorem toNat_val (bit : Bool) : ((bit.toNat : Nat) : ZMod sodium.order).val = bit.toNat := by
  have prime : sodium.order.Prime := Fact.out
  apply ZMod.val_cast_of_lt
  cases bit with
  | false => exact prime.pos
  | true => exact prime.one_lt

theorem bits_eq :
    vectorConcat (run.xs.map (fun x => intToBits x.1) ++
      replicate (run.padded - run.xs.length) (sodium.scalarRepeat 0 bitWidth)) =
      residues run.secret.size run.secret.bit := by
  have bits : ∀ x : Nat, intToBits x =
      table bitWidth fun i => ((x.testBit i).toNat : ZMod sodium.order).val := by
    intro x
    apply table_congr
    intro i _
    rw [toNat_val]
    cases x.testBit i <;> rfl
  have padding : sodium.scalarRepeat 0 bitWidth = intToBits 0 := by
    have zeros := Laws.scalarRepeat_val (0 : ZMod sodium.order) bitWidth
    rw [ZMod.val_zero] at zeros
    rw [zeros, bits]
    simp [residues]
  rw [padding, map_append_replicate (fun x : Nat × EcScalar => intToBits x.1) run.xs (0, 0)
    run.length_le_padded, vectorConcat_eq_flatten]
  simp only [bits]
  rw [flatten_table _ _ (by decide : 0 < bitWidth)]
  rfl

theorem masks_eq (fits : run.Fits) : run.xs.map (·.2) = residues run.xs.length run.secret.mask := by
  conv_lhs => rw [eq_table run.xs (0, 0), map_table]
  apply table_congr
  intro j inside
  exact (ZMod.val_cast_of_lt (fits.masks _ (getD_mem inside _))).symm

theorem weights_eq {n : Nat} (enough : run.padded + 2 ≤ n) (laws : sodium.Laws encode)
    (z : ZMod sodium.order) :
    sodium.zExpMultTwoExp (sodium.scalarPowers z.val n) run.padded =
      residues run.secret.size (run.secret.weight z) := by
  rw [zExpMultTwoExp, laws.scalarPowers_two, Laws.scalarPowers_val, residues, drop_table, take_table (by omega), vectorMultVMonadic, map_table]
  simp only [Laws.vectorMult_residues]
  rw [vectorConcat_eq_flatten]
  simp only [residues]
  rw [flatten_table _ _ (by decide : 0 < bitWidth)]
  apply table_congr
  intro i _
  rw [add_comm 2]
  rfl

omit [Fact sodium.order.Prime] in
/-- The generators reach. -/
theorem padded_le (fits : run.Fits) : run.padded * bitWidth ≤ maxVectorLength := by
  obtain ⟨rounds, found, -, least⟩ := ceilingLog2Review_spec run.xs.length
  rw [padded, found]
  exact mul_le_mul_right bitWidth (padded_le_maxOutputs fits.few least)

omit [Fact sodium.order.Prime] in
theorem padded_mul_bitWidth :
    run.padded * bitWidth = 2 ^ ((ceilingLog2Review run.xs.length).2 + 6) := by
  obtain ⟨rounds, found, -⟩ := ceilingLog2Review_spec run.xs.length
  rw [padded, found, pow_add]
  rfl

/-- The bits of a value make up the amount. -/
theorem value_eq (fits : run.Fits) (j : Nat) :
    run.secret.value j = ((run.xs.getD j (0, 0)).1 : ZMod sodium.order) := by
  have small : (run.xs.getD j (0, 0)).1 < 2 ^ bitWidth := by
    rcases lt_or_ge j run.xs.length with inside | outside
    · exact fits.amounts _ (getD_mem inside _)
    · rw [getD_eq_getElem?_getD, getElem?_eq_none outside]
      exact Nat.two_pow_pos _
  have sum := sum_testBit (run.xs.getD j (0, 0)).1 bitWidth
  rw [mod_eq_of_lt small] at sum
  rw [← sum, cast_sum]
  apply Finset.sum_congr rfl
  intro i member
  have inside : i < bitWidth := Finset.mem_range.mp member
  have position : (j * bitWidth + i) / bitWidth = j ∧ (j * bitWidth + i) % bitWidth = i := by
    unfold bitWidth at inside ⊢
    omega
  change (((run.xs.getD ((j * bitWidth + i) / bitWidth) (0, 0)).1.testBit
    ((j * bitWidth + i) % bitWidth)).toNat : ZMod sodium.order) * 2 ^ i = _
  rw [position.1, position.2, cast_mul, cast_pow, cast_two]

theorem bit_mul_bit (i : Nat) : run.secret.bit i * run.secret.bit i = run.secret.bit i := by
  simp only [secret]
  cases testBit _ _ with
  | false => simp
  | true => simp

/-! ### Points and challenges -/

variable [Module (ZMod sodium.order) Γ]

/-- A point as it is hashed. -/
def inv8 (sodium : Sodium) (encode : Γ → EcPoint) (x : Γ) : EcPoint :=
  encode (sodium.invEight • x)

def V (j : Nat) : Γ :=
  run.secret.commitment run.g run.h j

def A : Γ :=
  run.secret.A run.g run.G run.H

def S : Γ :=
  run.secret.S run.g run.G run.H

def commitHash : ZMod sodium.order :=
  sodium.challengeOf (table run.xs.length fun j => inv8 sodium encode (run.V j))

def y : ZMod sodium.order :=
  sodium.challengeOf
    [dataOfScalar run.commitHash.val, inv8 sodium encode run.A, inv8 sodium encode run.S]

def z : ZMod sodium.order :=
  sodium.challengeOf [dataOfScalar run.y.val]

def T0 : Γ :=
  run.secret.T0 run.g run.h run.y run.z

def T1 : Γ :=
  run.secret.T1 run.g run.h run.y run.z

def T2 : Γ :=
  run.secret.T2 run.g run.h run.y

def x : ZMod sodium.order :=
  sodium.challengeOf
    [dataOfScalar run.z.val, dataOfScalar run.z.val, inv8 sodium encode run.T1,
      inv8 sodium encode run.T2]

def tau : ZMod sodium.order :=
  run.secret.tau run.z run.x

def mu : ZMod sodium.order :=
  run.secret.mu run.x

def t : ZMod sodium.order :=
  run.secret.t run.y run.z run.x

def innerProductChallenge : ZMod sodium.order :=
  sodium.challengeOf ([run.x.val, run.x.val, run.tau.val, run.mu.val, run.t.val].map dataOfScalar)

def u : Γ :=
  run.innerProductChallenge • run.h

def witness : Witness (ZMod sodium.order) Γ :=
  run.secret.witness run.G run.H run.y run.z run.x

/-- The number of rounds of the inner product argument. -/
def rounds : Nat :=
  (ceilingLog2Review run.xs.length).2 + 6

/-- The cross terms of the inner product argument and what it leaves. -/
def argument : List (Γ × Γ) × Witness (ZMod sodium.order) Γ :=
  prove (sodium.nextChallenge encode) run.u run.rounds run.innerProductChallenge run.witness

/-- No challenge is zero, and no point that the prover multiplies is the identity. -/
structure Regular : Prop where
  generatorsG : ∀ i < maxVectorLength, run.G i ≠ 0
  generatorsH : ∀ i < maxVectorLength, run.H i ≠ 0
  commits : ∀ j < run.xs.length, run.V j ≠ 0
  A : run.A ≠ 0
  S : run.S ≠ 0
  T1 : run.T1 ≠ 0
  T2 : run.T2 ≠ 0
  commitHash : run.commitHash ≠ 0
  y : run.y ≠ 0
  z : run.z ≠ 0
  x : run.x ≠ 0
  innerProductChallenge : run.innerProductChallenge ≠ 0
  argument : Along (sodium.nextChallenge encode) run.u (Sodium.Laws.GoodRound run.u) run.rounds
    run.innerProductChallenge run.witness

/-! ### The prover -/

section Calls

variable {run} (laws : sodium.Laws encode) (fits : run.Fits) (regular : run.Regular)

include laws

omit [Fact sodium.order.Prime] [Module (ZMod sodium.order) Γ] in
theorem h_ne_zero (run : HonestRun sodium sha3 encode) : run.h ≠ 0 := by
  rw [← laws.valid_encode, run.second]
  exact laws.second

omit laws in
theorem base_val (run : HonestRun sodium sha3 encode) (a : ZMod sodium.order) :
    sodium.scalarmultBaseNoclamp a.val = encode (a • run.g) := by
  rw [run.base _ (ZMod.val_lt a), Laws.val_nsmul]

theorem multH_val (run : HonestRun sodium sha3 encode) (a : ZMod sodium.order) :
    (sodium.multH a.val).Returns (encode (a • run.h)) := by
  rw [multH, ← run.second]
  exact laws.mult_val fun _ => h_ne_zero laws run

theorem commits_returns (fits : run.Fits) :
    (run.xs.mapM fun x => sodium.commit x.1 x.2).Returns
      (encodings encode run.xs.length run.V) := by
  conv => enter [1]; rw [eq_table run.xs (0, 0)]
  apply Laws.mapM_table
  intro j inside
  have member := getD_mem inside ((0, 0) : Nat × EcScalar)
  have committed := laws.commit_encode run.base (h_ne_zero laws run) run.second
    (fits.amounts _ member) (fits.masks _ member)
  rw [V, Secret.commitment, run.value_eq fits]
  simp only [secret, cast_smul_eq_nsmul]
  exact committed

variable {n : Nat}

omit [Fact sodium.order.Prime] [Module (ZMod sodium.order) Γ] in
theorem getBpGenerators_gives (few : n ≤ maxVectorLength) {position : Nat → Nat} {points : Nat → Γ}
    (encoded : ∀ i < maxVectorLength, encode (points i) = sodium.hashToPointViaField (sha3 (blob sodium.H ++ ascii "bulletproof" ++ writeVarint (position i))))
    (nonzero : ∀ i < maxVectorLength, points i ≠ 0) :
    ((List.range n).mapM fun i => sodium.getBpGenerator sha3 sodium.H (position i)).Gives
      (encodings encode n points) := by
  have range : List.range n = table n id := by rw [table, map_id]
  rw [range]
  apply Laws.mapM_table_gives
  intro i inside
  have below := lt_of_lt_of_le inside few
  have different : ¬ encode (points i) = encode 0 := laws.injective.ne (nonzero i below)
  rw [id, getBpGenerator, ← encoded i below, ← laws.zero]
  exact .bind (.require different) (.pure _)

theorem getBpGeneratorGV_gives (few : n ≤ maxVectorLength) (regular : run.Regular) :
    (sodium.getBpGeneratorGV sha3 n).Gives (encodings encode n run.G) :=
  getBpGenerators_gives laws few run.vectorG regular.generatorsG

theorem getBpGeneratorHV_gives (few : n ≤ maxVectorLength) (regular : run.Regular) :
    (sodium.getBpGeneratorHV sha3 n).Gives (encodings encode n run.H) :=
  getBpGenerators_gives laws few run.vectorH regular.generatorsH

theorem commitVectors_gives (run : HonestRun sodium sha3 encode) {a b : Nat → ZMod sodium.order}
    (c : ZMod sodium.order) (nonzeroG : ∀ i < n, run.G i ≠ 0) (nonzeroH : ∀ i < n, run.H i ≠ 0) :
    (sodium.commitVectors (residues n a) (residues n b) c.val (encodings encode n run.G)
      (encodings encode n run.H)).Gives
      (encode (dot n a run.G + dot n b run.H + c • run.g)) := by
  unfold commitVectors
  rw [base_val run]
  apply Gives.bind (laws.vectorCommit_encodings le_rfl fun i inside _ => nonzeroG i inside)
  apply Gives.bind (laws.vectorCommit_encodings le_rfl fun i inside _ => nonzeroH i inside)
  apply Gives.bind (.lift (laws.addPoints_encode _ _))
  exact .lift (laws.addPoints_encode _ _)

theorem commitScalars_returns (run : HonestRun sodium sha3 encode) (a b : ZMod sodium.order) :
    (sodium.commitScalars a.val b.val).Returns (encode (a • run.g + b • run.h)) := by
  unfold commitScalars
  rw [base_val run]
  exact (multH_val laws run b).bind (laws.addPoints_encode _ _)

omit [Fact sodium.order.Prime] [Module (ZMod sodium.order) Γ] in
theorem toInv8_returns {x : Γ} (nonzero : x ≠ 0) :
    (sodium.toInv8 (encode x)).Returns (inv8 sodium encode x) :=
  laws.toInv8_encode nonzero

/-- The challenges after the commitments, the same for prover and verifier. -/
theorem hashVAS_returns (regular : run.Regular) :
    (sodium.hashVAS (encodings encode run.xs.length run.V) (encode run.A) (encode run.S)).Returns
      (some (run.y.val, run.z.val)) := by
  apply PointM.Returns.bind
    (Laws.mapM_table fun j inside => toInv8_returns laws (regular.commits j inside))
  rw [laws.maybeHashVToNonZeroScalar_challengeOf regular.commitHash]
  apply PointM.Returns.bind (toInv8_returns laws regular.A)
  apply PointM.Returns.bind (toInv8_returns laws regular.S)
  rw [← commitHash, laws.maybeHashVToNonZeroScalar_challengeOf regular.y]
  dsimp only
  rw [← y, laws.maybeHashVToNonZeroScalar_challengeOf regular.z]
  exact .pure _

theorem hashT1T2_returns (regular : run.Regular) :
    (sodium.hashT1T2 run.z.val (encode run.T1) (encode run.T2)).Returns (some run.x.val) := by
  apply PointM.Returns.bind (toInv8_returns laws regular.T1)
  apply PointM.Returns.bind (toInv8_returns laws regular.T2)
  rw [laws.maybeHashVToNonZeroScalar_challengeOf regular.x]
  exact .pure _

omit [Module (ZMod sodium.order) Γ] laws in
theorem tau0_eq (run : HonestRun sodium sha3 encode) (z : ZMod sodium.order) :
    run.secret.tau0 z = dot run.xs.length run.secret.mask fun j => z ^ (2 + j) := by
  have missing : ∀ j ∈ Finset.range run.padded, j ∉ Finset.range run.xs.length →
      run.secret.mask j * z ^ (j + 2) = 0 := by
    intro j _ outside
    have beyond : run.xs.length ≤ j := Nat.le_of_not_lt (mt Finset.mem_range.mpr outside)
    simp [secret, getElem?_eq_none beyond]
  rw [Secret.tau0, show run.secret.count = run.padded from rfl,
    ← Finset.sum_subset (Finset.range_subset_range.mpr run.length_le_padded) missing]
  simp only [dot, smul_eq_mul, add_comm 2]

theorem getBpVectors_gives (fits : run.Fits) (regular : run.Regular) :
    (sodium.getBpVectors sha3 run.xs run.draws).Gives (some
      { l := residues run.secret.size run.witness.a
        r := residues run.secret.size run.witness.b
        innerProductChallenge := run.innerProductChallenge.val
        challengeY := run.y.val
        A := encode run.A
        S := encode run.S
        T1 := encode run.T1
        T2 := encode run.T2
        tau := run.tau.val
        mu := run.mu.val }) := by
  have size : run.secret.size = run.padded * bitWidth := rfl
  have few : run.secret.size ≤ maxVectorLength := run.padded_le fits
  have nonzeroG : ∀ i < run.secret.size, run.G i ≠ 0 :=
    fun i inside => regular.generatorsG i (lt_of_lt_of_le inside few)
  have nonzeroH : ∀ i < run.secret.size, run.H i ≠ 0 :=
    fun i inside => regular.generatorsH i (lt_of_lt_of_le inside few)
  have aR := laws.vectorSubtract_residues run.secret.size run.secret.bit 1
  rw [ZMod.val_one] at aR
  have alpha : run.draws.alpha = run.secret.alpha.val := (ZMod.val_cast_of_lt fits.alpha).symm
  have rho : run.draws.rho = run.secret.rho.val := (ZMod.val_cast_of_lt fits.rho).symm
  have tau1 : run.draws.tau1 = run.secret.tau1.val := (ZMod.val_cast_of_lt fits.tau1).symm
  have tau2 : run.draws.tau2 = run.secret.tau2.val := (ZMod.val_cast_of_lt fits.tau2).symm
  have sL : run.draws.sL = residues run.secret.size run.secret.sL := eq_residues fits.sL
  have sR : run.draws.sR = residues run.secret.size run.secret.sR := eq_residues fits.sR
  unfold getBpVectors
  dsimp only
  rw [show (ceilingLog2Review run.xs.length).1 = run.padded from rfl, run.bits_eq, aR, alpha, rho,
    tau1, tau2, sL, sR]
  apply Gives.bind (.lift (commits_returns laws fits))
  apply Gives.bind (getBpGeneratorGV_gives laws few regular)
  apply Gives.bind (getBpGeneratorHV_gives laws few regular)
  apply Gives.bind (commitVectors_gives laws run _ nonzeroG nonzeroH)
  apply Gives.bind (commitVectors_gives laws run _ nonzeroG nonzeroH)
  apply Gives.bind (.lift (hashVAS_returns laws regular))
  dsimp only
  rw [run.weights_eq le_rfl laws, laws.vectorSubtract_residues, Laws.vectorAdd_residues,
    Laws.scalarPowers_val, Laws.scalarPowers_val]
  apply Gives.bind (Laws.hadamardProduct_residues le_rfl _ _)
  apply Gives.bind (Laws.vectorAddV_residues le_rfl _ _)
  apply Gives.bind (Laws.hadamardProduct_residues le_rfl _ _)
  apply Gives.bind (Laws.innerProduct_residues le_rfl _ _)
  apply Gives.bind (Laws.innerProduct_residues le_rfl _ _)
  apply Gives.bind (Laws.innerProduct_residues le_rfl _ _)
  rw [Laws.addScalars_val]
  apply Gives.bind (.lift (commitScalars_returns laws run _ _))
  apply Gives.bind (.lift (commitScalars_returns laws run _ _))
  apply Gives.bind (.lift (hashT1T2_returns laws regular))
  have powers : (residues (run.padded + 2) fun i => run.z ^ i).drop 2 =
      residues run.padded fun i => run.z ^ (2 + i) := by
    rw [residues, drop_table]
    rfl
  rw [run.masks_eq fits, powers]
  apply Gives.bind (Laws.innerProduct_residues run.length_le_padded _ _)
  rw [← tau0_eq]
  apply Gives.bind (Laws.evaluatePolynomial_three _ _ _ _)
  rw [Laws.mulScalars_val, Laws.addScalars_val, Laws.vectorMult_residues,
    Laws.vectorMult_residues]
  apply Gives.bind (Laws.vectorAddV_residues le_rfl _ _)
  apply Gives.bind (Laws.vectorAddV_residues le_rfl _ _)
  apply Gives.bind (Laws.innerProduct_residues le_rfl _ _)
  change Gives (pure (Option.map _ (sodium.maybeHashVToNonZeroScalar
    ([run.x.val, run.x.val, run.tau.val, run.mu.val, run.t.val].map dataOfScalar)))) _
  rw [laws.maybeHashVToNonZeroScalar_challengeOf regular.innerProductChallenge]
  exact .pure _

/-- What the prover returns. -/
def proof (run : HonestRun sodium sha3 encode) : Bulletproof where
  A := encode run.A
  S := encode run.S
  T1 := encode run.T1
  T2 := encode run.T2
  tau := run.tau.val
  mu := run.mu.val
  LR := run.argument.1.map (Prod.map encode encode)
  a := (run.argument.2.a 0).val
  b := (run.argument.2.b 0).val
  t := run.t.val

omit laws in
theorem u_ne_zero (laws : sodium.Laws encode) (regular : run.Regular) : run.u ≠ 0 := by
  intro zero
  have inverse := inv_smul_smul₀ regular.innerProductChallenge run.h
  rw [← u, zero, smul_zero] at inverse
  exact h_ne_zero laws run inverse.symm

omit laws in
theorem witness_H_ne_zero (regular : run.Regular) : ∀ i < run.secret.size, run.witness.H i ≠ 0 := by
  have good := regular.argument.1.generatorsH
  rwa [← pow_succ', show 2 ^ (_ + 1) = run.secret.size from run.padded_mul_bitWidth.symm] at good

theorem bulletproofAttempt_gives (fits : run.Fits) (regular : run.Regular) :
    (sodium.bulletproofAttempt sha3 run.xs run.draws).Gives (some run.proof) := by
  have size : run.secret.size = run.padded * bitWidth := rfl
  have few : run.secret.size ≤ maxVectorLength := run.padded_le fits
  have powers : run.secret.size = 2 ^ run.rounds := run.padded_mul_bitWidth
  unfold bulletproofAttempt
  apply Gives.bind (getBpVectors_gives laws fits regular)
  dsimp only
  rw [laws.multiplicativeInverse_val regular.y, Laws.scalarPowers_val]
  apply Gives.bind (getBpGeneratorGV_gives laws few regular)
  apply Gives.bind (getBpGeneratorHV_gives laws few regular)
  apply Gives.bind (laws.vectorMultPV_encodings le_rfl fun i inside _ =>
    regular.generatorsH i (lt_of_lt_of_le inside few))
  apply Gives.bind (.lift (multH_val laws run _))
  rw [powers]
  apply Gives.bind
    (laws.makeRecursiveInnerProductArgument_gives (u_ne_zero laws regular) regular.argument)
  apply Gives.bind (Laws.innerProduct_residues le_rfl _ _)
  rw [← powers]
  exact .pure _

theorem bulletproofMake_gives (fits : run.Fits) (regular : run.Regular) (rest : List BpDraws) :
    (sodium.bulletproofMake sha3 run.xs (run.draws :: rest)).Gives (some run.proof) := by
  have nonempty : ¬ run.xs.isEmpty = true := by
    rw [List.isEmpty_iff]
    exact fits.nonempty
  have reduced : ∀ x ∈ run.xs, sodium.isReduced x.2 = true := by
    intro x member
    rw [isReduced, beq_iff_eq]
    exact mod_eq_of_lt (fits.masks x member)
  apply Gives.bind (.require nonempty)
  apply Gives.bind (.require fits.few)
  apply Gives.bind (.require reduced)
  apply Gives.bind (bulletproofAttempt_gives laws fits regular)
  exact .pure _

end Calls

end HonestRun

end

end Memero
