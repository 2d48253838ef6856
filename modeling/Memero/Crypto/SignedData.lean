import Memero.Crypto.ClsagGen
import Memero.Basic.Identifiers

/-!
# What a signature covers

The message of the ring signatures, `get_ring_signature_message` of `ringCT.cpp`, and the hash of a
round of `verify_clsag_signature`, with the hashing inside them written out. Lists of points are
hashed without their lengths: the two lists of a range proof one after the other, the ring and its
commitments likewise. The lengths follow from that of the whole, as the lists of a pair are
equally long.
-/

namespace Memero

open List Format BinaryFormat

/-- `serialize_rctsig_base` as it is called for the message. -/
def rctsigBaseBlob (fee : Nat) (ecdhEncryptedData : List Nat) (outputCommits : List EcPoint) :
    List UInt8 :=
  (Format.rctsigBase ecdhEncryptedData.length).write
    { type := .clsag
      fee := fee
      ecdhEncryptedData := ecdhEncryptedData
      outputCommits := outputCommits }

/-- An environment whose hashes are those of the program over `sha3`. -/
def Env.withSha3 (env : Env) (sha3 : List UInt8 → Hash) : Env :=
  { env with
    -- `hash_dataV`
    hashDataV := fun keys => if keys.isEmpty then 0 else sha3 (keys.flatMap blob)
    getRctsigBaseHash := fun fee ecdhEncryptedData outputCommits =>
      sha3 (rctsigBaseBlob fee ecdhEncryptedData outputCommits) }

/-- The range proof as it is hashed. -/
def BulletproofUnsafe.hashData (p : BulletproofUnsafe) : List CryptoData :=
  [p.A, p.S, p.T1, p.T2, dataOfScalar p.tau, dataOfScalar p.mu] ++ p.L ++ p.R ++
    [dataOfScalar p.a, dataOfScalar p.b, dataOfScalar p.t]

/-- The round as it is hashed. -/
def clsagRoundData (decoys : List OutputPublicData) (pseudoInputCommit : EcPoint) (message : Hash)
    (L R : EcPoint) : List CryptoData :=
  dataOfString "CLSAG_round" :: decoys.map (·.outputPublicKey) ++ decoys.map (·.commit) ++
    [pseudoInputCommit, dataOfScalar message, L, R]

section Covers

variable (sha3 : List UInt8 → Hash)

/-- The three hashes under the message. -/
def RctDataSizeChecked.messageData (rv : RctDataSizeChecked) : List CryptoData :=
  [dataOfScalar rv.message,
    dataOfScalar (sha3 (rctsigBaseBlob rv.fee rv.ecdhEncryptedData rv.outputCommits)),
    dataOfScalar (sha3 (rv.bulletproof.hashData.flatMap blob))]

/-- The strings that are hashed for the message. -/
def RctDataSizeChecked.hashedStrings (rv : RctDataSizeChecked) : List (List UInt8) :=
  [rctsigBaseBlob rv.fee rv.ecdhEncryptedData rv.outputCommits,
    rv.bulletproof.hashData.flatMap blob, (rv.messageData sha3).flatMap blob]

/-- What the types of the program can hold, and what `maybeSizeCheckedRctData` has checked. -/
structure RctDataSizeChecked.InRange (rv : RctDataSizeChecked) : Prop where
  message : rv.message < 256 ^ 32
  fee : rv.fee < 2 ^ 64
  ecdhEncryptedData : ∀ amount ∈ rv.ecdhEncryptedData, amount < 256 ^ 8
  outputCommits : ∀ point ∈ rv.outputCommits, point < 256 ^ 32
  bulletproof : rv.bulletproof.InRange
  sizes : rv.outputCommits.length = rv.ecdhEncryptedData.length

variable {sha3}

/-! ## Lists of points -/

theorem dataOfScalar_lt (x : Nat) : dataOfScalar x < 256 ^ 32 := by
  have below := ofBigEndian_lt (scalarBlob x)
  rwa [scalarBlob_length] at below

theorem dataOfScalar_inj {x y : Nat} (left : x < 256 ^ 32) (right : y < 256 ^ 32)
    (same : dataOfScalar x = dataOfScalar y) : x = y := by
  have first := bigEndian_ofBigEndian (scalarBlob x)
  have second := bigEndian_ofBigEndian (scalarBlob y)
  rw [scalarBlob_length] at first second
  apply scalarBlob_inj left right
  rw [← first, ← second]
  exact congrArg (bigEndian 32) same

theorem flatMap_blob_length (xs : List CryptoData) : (xs.flatMap blob).length = 32 * xs.length := by
  induction xs with
  | nil => rfl
  | cons x xs ih =>
    rw [flatMap_cons, length_append, ih, length_cons, blob, bigEndian_length]
    ring

theorem flatMap_blob_inj {xs ys : List CryptoData} (left : ∀ x ∈ xs, x < 256 ^ 32)
    (right : ∀ y ∈ ys, y < 256 ^ 32) (same : xs.flatMap blob = ys.flatMap blob) : xs = ys := by
  have lengths := congrArg List.length same
  rw [flatMap_blob_length, flatMap_blob_length] at lengths
  have length : ys.length = xs.length := by omega
  exact @write_inj _ (point.many xs.length) _ _ left
    (many_valid.mpr ⟨rfl, fun _ _ => rfl⟩) right
    (many_valid.mpr ⟨length, fun _ _ => rfl⟩) same

variable {env : Env} {a b : RctDataSizeChecked} {p : BulletproofUnsafe} {L R : EcPoint}

theorem hashDataV_withSha3 {keys : List CryptoData} (some : keys ≠ []) :
    (env.withSha3 sha3).hashDataV keys = sha3 (keys.flatMap blob) := by
  have empty : keys.isEmpty = false := by
    rwa [← Bool.not_eq_true, List.isEmpty_iff]
  unfold Env.withSha3
  dsimp only
  rw [empty]
  rfl

/-! ## The parts of the message -/

theorem rctsigBaseBlob_eq (fee : Nat) (ecdhEncryptedData : List Nat)
    (outputCommits : List EcPoint) :
    rctsigBaseBlob fee ecdhEncryptedData outputCommits =
      5 :: (writeVarint fee ++
        (ecdhEncryptedData.flatMap uint64.write ++ outputCommits.flatMap blob)) :=
  rfl

theorem flatMap_uint64_length (xs : List Nat) :
    (xs.flatMap uint64.write).length = 8 * xs.length := by
  induction xs with
  | nil => rfl
  | cons x xs ih =>
    rw [flatMap_cons, length_append, ih, length_cons, uint64_write, littleEndian_length]
    ring

/-- Encrypted amounts and commitments are as many, so the length of the whole gives their
number. -/
theorem rctsigBaseBlob_inj (rangeA : a.InRange) (rangeB : b.InRange)
    (same : rctsigBaseBlob a.fee a.ecdhEncryptedData a.outputCommits = rctsigBaseBlob b.fee b.ecdhEncryptedData b.outputCommits) :
    a.fee = b.fee ∧ a.ecdhEncryptedData = b.ecdhEncryptedData ∧
      a.outputCommits = b.outputCommits := by
  rw [rctsigBaseBlob_eq, rctsigBaseBlob_eq] at same
  obtain ⟨fee, rest⟩ := @write_append_inj _ varint64 _ _ _ _ rangeA.fee rfl
    rangeB.fee rfl (cons.inj same).2
  have lengths := congrArg List.length rest
  rw [length_append, length_append, flatMap_uint64_length, flatMap_uint64_length,
    flatMap_blob_length, flatMap_blob_length, rangeA.sizes, rangeB.sizes] at lengths
  have count : b.ecdhEncryptedData.length = a.ecdhEncryptedData.length := by omega
  obtain ⟨amounts, commits⟩ := append_inj rest
    (by rw [flatMap_uint64_length, flatMap_uint64_length, count])
  refine ⟨fee, ?_, flatMap_blob_inj rangeA.outputCommits rangeB.outputCommits commits⟩
  exact @write_inj _ (uint64.many a.ecdhEncryptedData.length) _ _
    rangeA.ecdhEncryptedData (many_valid.mpr ⟨rfl, fun _ _ => rfl⟩)
    rangeB.ecdhEncryptedData (many_valid.mpr ⟨count, fun _ _ => rfl⟩) amounts

theorem BulletproofUnsafe.hashData_lt (range : p.InRange) : ∀ x ∈ p.hashData, x < 256 ^ 32 := by
  have points := range.points
  unfold hashData
  simp only [mem_append, or_imp, forall_and, forall_mem_cons] at points ⊢
  obtain ⟨⟨⟨A, S, T1, T2, -⟩, L⟩, R⟩ := points
  refine ⟨⟨⟨⟨A, S, T1, T2, dataOfScalar_lt _, dataOfScalar_lt _, forall_mem_nil _⟩, L⟩, R⟩,
    dataOfScalar_lt _, dataOfScalar_lt _, dataOfScalar_lt _, forall_mem_nil _⟩

/-- The two lists of a range proof are as long as each other. -/
theorem BulletproofUnsafe.hashData_inj {q : BulletproofUnsafe} (rangeP : p.InRange)
    (rangeQ : q.InRange) (pairsP : p.L.length = p.R.length) (pairsQ : q.L.length = q.R.length)
    (same : p.hashData = q.hashData) : p = q := by
  unfold hashData at same
  have scalarsP := rangeP.scalars
  have scalarsQ := rangeQ.scalars
  simp only [forall_mem_cons] at scalarsP scalarsQ
  obtain ⟨tauP, muP, aP, bP, tP, -⟩ := scalarsP
  obtain ⟨tauQ, muQ, aQ, bQ, tQ, -⟩ := scalarsQ
  have lengths := congrArg List.length same
  simp only [length_append, length_cons] at lengths
  obtain ⟨front, back⟩ := append_inj' same (by simp only [length_cons])
  rw [append_assoc, append_assoc] at front
  obtain ⟨head, lists⟩ := append_inj front (by simp only [length_cons])
  obtain ⟨left, right⟩ := append_inj lists (by omega)
  simp only [cons.injEq] at head back
  obtain ⟨A, S, T1, T2, tau, mu, -⟩ := head
  obtain ⟨a, b, t, -⟩ := back
  have scalars := And.intro (dataOfScalar_inj tauP tauQ tau) <|
    And.intro (dataOfScalar_inj muP muQ mu) <| And.intro (dataOfScalar_inj aP aQ a) <|
      And.intro (dataOfScalar_inj bP bQ b) (dataOfScalar_inj tP tQ t)
  obtain ⟨tau, mu, a, b, t⟩ := scalars
  cases p
  cases q
  rw [BulletproofUnsafe.mk.injEq]
  exact ⟨A, S, T1, T2, tau, mu, left, right, a, b, t⟩

theorem getRingSignatureMessage_eq {rv : RctDataSizeChecked} (rings : rv.decoys ≠ []) :
    (env.withSha3 sha3).getRingSignatureMessage rv =
      some (sha3 ((rv.messageData sha3).flatMap blob)) := by
  have some : ¬ rv.decoys.isEmpty = true := by rwa [List.isEmpty_iff]
  have proof : rv.bulletproof.hashData ≠ [] := cons_ne_nil _ _
  have hashed := @hashDataV_withSha3 sha3 env _ proof
  unfold Env.getRingSignatureMessage
  rw [if_neg some]
  rfl

/-- One message is that of one signed content. -/
theorem eq_of_getRingSignatureMessage (bounded : ∀ s, sha3 s < 256 ^ 32) (rangeA : a.InRange)
    (rangeB : b.InRange) (pairsA : a.bulletproof.L.length = a.bulletproof.R.length)
    (pairsB : b.bulletproof.L.length = b.bulletproof.R.length) (ringsA : a.decoys ≠ [])
    (ringsB : b.decoys ≠ [])
    (apart : TellsApart sha3 (a.hashedStrings sha3 ++ b.hashedStrings sha3))
    (same : (env.withSha3 sha3).getRingSignatureMessage a = (env.withSha3 sha3).getRingSignatureMessage b) :
    a.message = b.message ∧ a.fee = b.fee ∧ a.ecdhEncryptedData = b.ecdhEncryptedData ∧
      a.outputCommits = b.outputCommits ∧ a.bulletproof = b.bulletproof := by
  have tells : ∀ s ∈ a.hashedStrings sha3, ∀ t ∈ b.hashedStrings sha3, sha3 s = sha3 t → s = t :=
    fun s inA t inB =>
      apart.injective s (mem_append_left _ inA) t (mem_append_right _ inB)
  unfold RctDataSizeChecked.hashedStrings at tells
  simp only [forall_mem_cons] at tells
  obtain ⟨⟨base, -⟩, ⟨-, proof, -⟩, ⟨-, -, top, -⟩, -⟩ := tells
  have small : ∀ rv : RctDataSizeChecked, ∀ x ∈ rv.messageData sha3, x < 256 ^ 32 := by
    intro rv
    unfold RctDataSizeChecked.messageData
    simp only [forall_mem_cons]
    exact ⟨dataOfScalar_lt _, dataOfScalar_lt _, dataOfScalar_lt _, forall_mem_nil _⟩
  rw [getRingSignatureMessage_eq ringsA, getRingSignatureMessage_eq ringsB] at same
  have hashes := flatMap_blob_inj (small a) (small b) (top (Option.some.inj same))
  unfold RctDataSizeChecked.messageData at hashes
  simp only [cons.injEq] at hashes
  obtain ⟨message, baseHash, proofHash, -⟩ := hashes
  obtain ⟨fee, amounts, commits⟩ := rctsigBaseBlob_inj rangeA rangeB
    (base (dataOfScalar_inj (bounded _) (bounded _) baseHash))
  have data := flatMap_blob_inj (BulletproofUnsafe.hashData_lt rangeA.bulletproof)
    (BulletproofUnsafe.hashData_lt rangeB.bulletproof)
    (proof (dataOfScalar_inj (bounded _) (bounded _) proofHash))
  exact ⟨dataOfScalar_inj rangeA.message rangeB.message message, fee, amounts, commits,
    BulletproofUnsafe.hashData_inj rangeA.bulletproof rangeB.bulletproof pairsA pairsB data⟩

/-! ## The rounds -/

/-- What the types of the program can hold. -/
def OutputPublicData.InRange (x : OutputPublicData) : Prop :=
  x.outputPublicKey < 256 ^ 32 ∧ x.commit < 256 ^ 32

variable {decoys : List OutputPublicData} {pseudoInputCommit : EcPoint}

theorem clsagRoundData_lt (ring : ∀ decoy ∈ decoys, decoy.InRange)
    (pseudo : pseudoInputCommit < 256 ^ 32) (left : L < 256 ^ 32) (right : R < 256 ^ 32)
    (message : Hash) : ∀ x ∈ clsagRoundData decoys pseudoInputCommit message L R, x < 256 ^ 32 := by
  have keys : ∀ x ∈ decoys.map (·.outputPublicKey), x < 256 ^ 32 :=
    forall_mem_map.mpr fun decoy member => (ring decoy member).1
  have commits : ∀ x ∈ decoys.map (·.commit), x < 256 ^ 32 :=
    forall_mem_map.mpr fun decoy member => (ring decoy member).2
  have domain : dataOfString "CLSAG_round" < 256 ^ 32 := by decide +kernel
  unfold clsagRoundData
  simp only [mem_append, or_imp, forall_and, forall_mem_cons, cons_append]
  exact ⟨domain, ⟨keys, commits⟩, pseudo, dataOfScalar_lt _, left, right, forall_mem_nil _⟩

theorem map_pair_inj {xs ys : List OutputPublicData}
    (keys : xs.map (·.outputPublicKey) = ys.map (·.outputPublicKey))
    (commits : xs.map (·.commit) = ys.map (·.commit)) : xs = ys := by
  induction xs generalizing ys with
  | nil => exact (map_eq_nil_iff.mp keys.symm).symm
  | cons x xs ih =>
    cases ys with
    | nil => cases keys
    | cons y ys =>
      obtain ⟨key, moreKeys⟩ := cons.inj keys
      obtain ⟨commit, moreCommits⟩ := cons.inj commits
      have head : x = y := by
        cases x
        cases y
        rw [OutputPublicData.mk.injEq]
        exact ⟨key, commit⟩
      rw [head, ih moreKeys moreCommits]

/-- The ring and its commitments are equally long. -/
theorem clsagRoundData_inj {others : List OutputPublicData} {pseudoOther L' R' : EcPoint}
    {message other : Hash} (range : message < 256 ^ 32) (rangeOther : other < 256 ^ 32)
    (same : clsagRoundData decoys pseudoInputCommit message L R = clsagRoundData others pseudoOther other L' R') :
    decoys = others ∧ pseudoInputCommit = pseudoOther ∧ message = other := by
  unfold clsagRoundData at same
  have lengths := congrArg List.length same
  simp only [length_append, length_cons, length_map] at lengths
  obtain ⟨front, back⟩ := append_inj' same (by simp only [length_cons])
  obtain ⟨keys, commits⟩ := append_inj front (by simp only [length_cons, length_map]; omega)
  simp only [cons.injEq] at back
  exact ⟨map_pair_inj (cons.inj keys).2 commits, back.1, dataOfScalar_inj range rangeOther back.2.1⟩

end Covers

/-- Confidential data with one ring. -/
def oneRingData : RctDataSizeChecked where
  message := 14
  decoys := [[{ outputPublicKey := 15, commit := 16 }]]
  signerKeyImages := [17]
  ecdhEncryptedData := oneRingTx.ringct.ecdhEncryptedData
  outputCommits := oneRingTx.ringct.outputCommits
  fee := oneRingTx.ringct.fee
  bulletproof :=
    { A := 5, S := 5, T1 := 5, T2 := 5, tau := 6, mu := 6, L := [5], R := [7], a := 6, b := 6,
      t := 6 }
  clsags := oneRingTx.ringct.p.clsags
  pseudoInputCommits := oneRingTx.ringct.p.pseudoInputCommits

/-- The same data with another signature. -/
def resignedData : RctDataSizeChecked :=
  { oneRingData with clsags := [{ s := [1], c1 := 2, blindingFactorSurplusKeyImage := 3 }] }

theorem oneRingData_inRange : oneRingData.InRange where
  message := by decide
  fee := by decide
  ecdhEncryptedData := by decide
  outputCommits := by decide
  bulletproof := ⟨by decide, by decide, by decide⟩
  sizes := rfl

/-- The same data, with a point of the range proof moved from one list to the other. -/
def movedData : RctDataSizeChecked :=
  { oneRingData with bulletproof := { oneRingData.bulletproof with L := [5, 7], R := [] } }

theorem movedData_same (env : Env) :
    env.getRingSignatureMessage oneRingData = env.getRingSignatureMessage movedData :=
  rfl

end Memero
