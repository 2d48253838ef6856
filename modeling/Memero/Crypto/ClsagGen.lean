import Memero.Crypto.Clsag
import Memero.Crypto.Scalars
import Memero.Lib.Tabulate

/-!
# Making ring signatures

`generate_clsag_signature` of `math/ringct/controller/clsagGen.cpp` and `toUnsafeCLSAG` of
`rctTypesUnsafe.cpp`. The signer starts behind the real member of the ring, goes round and
closes the ring with the scalar of the real member; the verifier starts at the first member.
Both apply the same steps to the challenge, one for each member, so both see the same
challenges. The scalar that the signer draws at a position of the ring is `random` of it.
-/

namespace Memero

open List

namespace Env

variable (env : Env)

/-- `L` of one round of the signer. -/
def signerL (s : EcScalar) (decoy : OutputPublicData) (decoyCommitSurplus : EcPoint)
    (cP cC : EcScalar) : PointM EcPoint := do
  let keyPart ← env.mult cP decoy.outputPublicKey
  let commitPart ← env.mult cC decoyCommitSurplus
  env.sum [env.scalarmultBaseNoclamp s, keyPart, commitPart]

/-- The hash of one round. -/
def clsagRoundHash (decoys : List OutputPublicData) (pseudoInputCommit : EcPoint)
    (message : Hash) (L R : EcPoint) : EcScalar :=
  env.hashDataVToScalar
    (dataOfString "CLSAG_round" :: decoys.map (·.outputPublicKey) ++
      decoys.map (·.commit) ++ [pseudoInputCommit, dataOfScalar message, L, R])

/-- The challenge that follows `c` at position `i`; `sig` holds the key images. -/
def signerRound (sig : Clsag) (decoys : List OutputPublicData)
    (decoyCommitSurplus : List EcPoint) (pseudoInputCommit : EcPoint) (message : Hash)
    (muP muC : EcScalar) (i : Nat) (s c : EcScalar) : CheckedM EcScalar :=
  match decoys[i]?, decoyCommitSurplus[i]? with
  | some decoy, some surplus => do
      let cP := env.mulScalars muP c
      let cC := env.mulScalars muC c
      let L ← OptionT.lift (env.signerL s decoy surplus cP cC)
      let R ← OptionT.lift (env.clsagR s decoy sig cP cC)
      return env.clsagRoundHash decoys pseudoInputCommit message L R
  | _, _ => failure

end Env

/-- A signature of which only the key images are known yet. -/
def Clsag.ofImages (signerKeyImage blindingFactorSurplusKeyImage : EcPoint) : Clsag :=
  { s := []
    c1 := 0
    signerKeyImage := signerKeyImage
    blindingFactorSurplusKeyImage := blindingFactorSurplusKeyImage }

/-- The variables of the signer's loop. `c1` has no value until the loop is at position
zero. -/
structure RingState where
  i : Nat
  c : EcScalar
  c1 : Option EcScalar
  s : List EcScalar
  deriving DecidableEq, Repr

/-- The loop of `generate_clsag_signature_internal`, which ends before `fuel` runs out. -/
def signerLoop (round : Nat → EcScalar → EcScalar → CheckedM EcScalar) (n indexInDecoys : Nat)
    (random : Nat → EcScalar) : Nat → RingState → CheckedM RingState
  | 0, _ => failure
  | fuel + 1, state =>
    if state.i = indexInDecoys then
      return state
    else do
      let sk := random state.i
      let c ← round state.i sk state.c
      let i := (state.i + 1) % n
      signerLoop round n indexInDecoys random fuel
        { i := i
          c := c
          c1 := if i = 0 then some c else state.c1
          s := state.s.set state.i sk }

namespace Env

variable (env : Env)

/-- `generate_clsag_signature_internal`. -/
def generateClsagSignatureInternal (random : Nat → EcScalar) (message : Hash)
    (signerSk signerBlindingFactorSurplus : EcScalar) (indexInDecoys : Nat)
    (pseudoInputCommit : EcPoint) (decoys : List OutputPublicData)
    (decoyCommitSurplus : List EcPoint) : CheckedM Clsag := do
  let n := decoys.length
  CheckedM.require (n = decoyCommitSurplus.length)
  CheckedM.require (indexInDecoys < n)
  match decoys[indexInDecoys]? with
  | none => failure
  | some member =>
    let signerPkHash := env.hashToPointViaField member.outputPublicKey
    let signerKeyImage ← OptionT.lift (env.mult signerSk signerPkHash)
    let D ← OptionT.lift (env.mult signerBlindingFactorSurplus signerPkHash)
    let sig := Clsag.ofImages signerKeyImage D
    let muP ← OptionT.lift
      (env.hashClsagDataWithKey sig pseudoInputCommit decoys "CLSAG_agg_0")
    let muC ← OptionT.lift
      (env.hashClsagDataWithKey sig pseudoInputCommit decoys "CLSAG_agg_1")
    let a := random indexInDecoys
    let hashPart ← OptionT.lift (env.mult a signerPkHash)
    let c := env.clsagRoundHash decoys pseudoInputCommit message
      (env.scalarmultBaseNoclamp a) hashPart
    let i := (indexInDecoys + 1) % n
    let state ← signerLoop
      (env.signerRound sig decoys decoyCommitSurplus pseudoInputCommit message muP muC) n
      indexInDecoys random n
      { i := i
        c := c
        c1 := if i = 0 then some c else none
        s := List.replicate n 0 }
    let last := env.subScalars a (env.mulScalars state.c (env.addScalars
      (env.mulScalars muC signerBlindingFactorSurplus) (env.mulScalars muP signerSk)))
    return { sig with s := state.s.set indexInDecoys last, c1 := state.c1.getD 0 }

/-- `generate_clsag_signature`. -/
def generateClsagSignature (random : Nat → EcScalar) (message : Hash)
    (signerSk signerBlindingFactor : EcScalar) (indexInDecoys : Nat)
    (pseudoInputBlindingFactor : EcScalar) (pseudoInputCommit : EcPoint)
    (decoys : List OutputPublicData) : CheckedM Clsag := do
  CheckedM.require (¬ decoys.isEmpty)
  let decoyCommitSurplus ← OptionT.lift
    (decoys.mapM fun decoy => env.subPoints decoy.commit pseudoInputCommit)
  env.generateClsagSignatureInternal random message signerSk
    (env.subScalars signerBlindingFactor pseudoInputBlindingFactor) indexInDecoys
    pseudoInputCommit decoys decoyCommitSurplus

/-- `toUnsafeCLSAG`, without the key image of the signer, which is copied. -/
def toUnsafeCLSAG (sig : Clsag) : PointM ClsagUnsafe := do
  let surplusKeyImage ← env.toInv8 sig.blindingFactorSurplusKeyImage
  return { s := sig.s, c1 := sig.c1, blindingFactorSurplusKeyImage := surplusKeyImage }

end Env

/-! ## Steps around the ring -/

section Chain

/-- The challenge after `count` steps from position `start` on. -/
def chain (step : Nat → EcScalar → EcScalar) : Nat → Nat → EcScalar → EcScalar
  | _, 0, c => c
  | start, count + 1, c => chain step (start + 1) count (step start c)

variable {step other : Nat → EcScalar → EcScalar}

theorem chain_add (start first second : Nat) (c : EcScalar) :
    chain step start (first + second) c =
      chain step (start + first) second (chain step start first c) := by
  induction first generalizing start c with
  | zero => rw [Nat.zero_add, Nat.add_zero, chain]
  | succ first ih =>
    rw [Nat.add_right_comm, chain, ih, chain, Nat.add_right_comm, Nat.add_assoc]

variable {start count fuel : Nat} {c : EcScalar} {entry : Nat → EcScalar}

theorem chain_congr (same : ∀ i, start ≤ i → i < start + count → step i = other i) (c : EcScalar) :
    chain step start count c = chain other start count c := by
  induction count generalizing start c with
  | zero => rfl
  | succ count ih =>
    rw [chain, same start (Nat.le_refl _) (by omega)]
    exact ih (fun i above below => same i (by omega) (by omega)) _

theorem chain_lt {bound : Nat} (small : ∀ i c, step i c < bound) (first : c < bound) :
    chain step start count c < bound := by
  induction count generalizing start c with
  | zero => exact first
  | succ count ih => exact ih (small start c)

variable {round : Nat → EcScalar → EcScalar → CheckedM EcScalar} {n index : Nat}
  {random : Nat → EcScalar}
  (inside : index < n)
  (rounds : ∀ i, i < n → i ≠ index → ∀ c, (round i (random i) c).Gives (step i c))

include inside rounds

/-- The positions below the real member; the first challenge is known by then. -/
theorem signerLoop_below {i : Nat} {c1 : EcScalar} (below : i ≤ index) (enough : index - i < fuel) :
    (signerLoop round n index random fuel
      { i := i, c := c, c1 := some c1, s := table n entry }).Gives
      { i := index
        c := chain step i (index - i) c
        c1 := some c1
        s := table n fun j => if i ≤ j ∧ j < index then random j else entry j } := by
  induction fuel generalizing i c entry with
  | zero => omega
  | succ fuel ih =>
    unfold signerLoop
    split
    · rename_i reached
      subst reached
      have nothing : (fun j => if i ≤ j ∧ j < i then random j else entry j) = entry := by
        funext j
        rw [if_neg (by omega)]
      rw [Nat.sub_self, nothing]
      exact .pure _
    · rename_i going
      have going : i ≠ index := going
      refine .bind (rounds i (by omega) going c) ?_
      have position : (i + 1) % n = i + 1 := Nat.mod_eq_of_lt (by omega)
      have entries : (fun j => if i + 1 ≤ j ∧ j < index then random j
          else Function.update entry i (random i) j) =
            fun j => if i ≤ j ∧ j < index then random j else entry j := by
        funext j
        rw [Function.update_apply]
        split
        · rw [if_pos (by omega)]
        · split
          · rename_i same
            rw [if_pos (by omega), same]
          · rw [if_neg (by omega)]
      have counted : index - i = index - (i + 1) + 1 := by omega
      dsimp only
      rw [position, table_set, counted, ← entries]
      exact ih (by omega) (by omega)

/-- The positions above the real member, then those below it. -/
theorem signerLoop_above {i : Nat} {c1 : Option EcScalar} (above : index < i) (within : i < n)
    (enough : n - i + index < fuel) :
    (signerLoop round n index random fuel
      { i := i, c := c, c1 := c1, s := table n entry }).Gives
      { i := index
        c := chain step 0 index (chain step i (n - i) c)
        c1 := some (chain step i (n - i) c)
        s := table n fun j => if i ≤ j ∨ j < index then random j else entry j } := by
  induction fuel generalizing i c c1 entry with
  | zero => omega
  | succ fuel ih =>
    unfold signerLoop
    rw [if_neg (Nat.ne_of_gt above)]
    refine .bind (rounds i within (Nat.ne_of_gt above) c) ?_
    have counted : n - i = n - (i + 1) + 1 := by omega
    dsimp only
    rw [table_set, counted]
    by_cases last : i + 1 = n
    · have position : (i + 1) % n = 0 := by rw [last, Nat.mod_self]
      have entries : table n (fun j => if 0 ≤ j ∧ j < index then random j
          else Function.update entry i (random i) j) =
            table n fun j => if i ≤ j ∨ j < index then random j else entry j := by
        refine map_congr_left fun j member => ?_
        have bound := mem_range.mp member
        rw [Function.update_apply]
        by_cases low : j < index
        · rw [if_pos ⟨Nat.zero_le j, low⟩, if_pos (.inr low)]
        · rw [if_neg (by omega)]
          by_cases same : j = i
          · rw [if_pos same, if_pos (by omega), same]
          · rw [if_neg same, if_neg (by omega)]
      rw [position, last, Nat.sub_self, ← entries]
      exact signerLoop_below inside rounds (Nat.zero_le _) (by omega)
    · have position : (i + 1) % n = i + 1 := Nat.mod_eq_of_lt (by omega)
      have entries : (fun j => if i + 1 ≤ j ∨ j < index then random j
          else Function.update entry i (random i) j) =
            fun j => if i ≤ j ∨ j < index then random j else entry j := by
        funext j
        rw [Function.update_apply]
        split
        · rw [if_pos (by omega)]
        · split
          · rename_i same
            rw [if_pos (by omega), same]
          · rw [if_neg (by omega)]
      rw [position, ← entries]
      exact ih (by omega) (by omega) (by omega)

/-- The loop goes from behind the real member round to it. -/
theorem signerLoop_gives (c : EcScalar) :
    (signerLoop round n index random n
      { i := (index + 1) % n
        c := c
        c1 := if (index + 1) % n = 0 then some c else none
        s := List.replicate n 0 }).Gives
      { i := index
        c := chain step 0 index (chain step (index + 1) (n - (index + 1)) c)
        c1 := some (chain step (index + 1) (n - (index + 1)) c)
        s := table n fun j => if j = index then 0 else random j } := by
  have zeros : replicate n 0 = table n fun _ => 0 := by
    rw [table, map_const', length_range]
  rw [zeros]
  by_cases last : index + 1 = n
  · have entries : table n (fun j => if 0 ≤ j ∧ j < index then random j else 0) =
        table n fun j => if j = index then 0 else random j := by
      refine map_congr_left fun j member => ?_
      have bound := mem_range.mp member
      by_cases same : j = index
      · rw [if_neg (by omega), if_pos same]
      · rw [if_pos (by omega), if_neg same]
    rw [last, Nat.mod_self, Nat.sub_self, ← entries]
    exact signerLoop_below inside rounds (Nat.zero_le _) (by omega)
  · have entries : (fun j => if index + 1 ≤ j ∨ j < index then random j else 0) =
        fun j => if j = index then 0 else random j := by
      funext j
      by_cases same : j = index
      · rw [if_neg (by omega), if_pos same]
      · rw [if_pos (by omega), if_neg same]
    rw [Nat.mod_eq_of_lt (by omega), ← entries]
    exact signerLoop_above inside rounds (Nat.lt_succ_self _) (by omega) (by omega)

end Chain

/-! ## One round -/

/-- A ring that no multiplication refuses: the keys and the points they are hashed to are not
the identity, nor is the difference of a commitment and the pseudo input commitment. -/
structure SigningRing {Γ : Type} (env : Env) (encode : Γ → EcPoint)
    (decoys : List OutputPublicData) (pseudoInputCommit : EcPoint) : Prop where
  members : ∀ decoy ∈ decoys, decoy.Sound env encode
  hashed : ∀ decoy ∈ decoys, env.isValidPoint (env.hashToPointViaField decoy.outputPublicKey) = true
  surplus : ∀ decoy ∈ decoys, decoy.commit ≠ pseudoInputCommit

/-- The group elements behind a ring member: its key, its commitment and the point its key is
hashed to. -/
structure RingMember (Γ : Type) where
  key : Γ
  commit : Γ
  hashed : Γ

/-- A member of a ring, with what keeps multiplications from refusing it. -/
structure RingMember.Encodes {Γ : Type} [AddCommGroup Γ] (env : Env) (encode : Γ → EcPoint)
    (pseudo : Γ) (decoy : OutputPublicData) (member : RingMember Γ) : Prop where
  key : decoy.outputPublicKey = encode member.key
  commit : decoy.commit = encode member.commit
  hashed : env.hashToPointViaField decoy.outputPublicKey = encode member.hashed
  keyNonzero : member.key ≠ 0
  hashedNonzero : member.hashed ≠ 0
  surplus : member.commit - pseudo ≠ 0

/-- What a round depends on besides the member, the scalar and the challenge. -/
structure RoundData (Γ : Type) where
  generator : Γ
  pseudo : Γ
  keyImage : Γ
  surplusKeyImage : Γ
  decoys : List OutputPublicData
  message : Hash
  muP : EcScalar
  muC : EcScalar

/-- The challenge after a round, in terms of the group. -/
def RoundData.next {Γ : Type} [AddCommGroup Γ] (env : Env) (encode : Γ → EcPoint)
    (data : RoundData Γ) (member : RingMember Γ) (s c : EcScalar) : EcScalar :=
  let cP := env.mulScalars data.muP c
  let cC := env.mulScalars data.muC c
  env.clsagRoundHash data.decoys (encode data.pseudo) data.message
    (encode [s • data.generator, cP • member.key, cC • (member.commit - data.pseudo)].sum)
    (encode [s • member.hashed, cP • data.keyImage, cC • data.surplusKeyImage].sum)

section Round

variable {env : Env} {Γ : Type} [AddCommGroup Γ] {encode : Γ → EcPoint}
  (laws : env.toSodium.Laws encode)

include laws

theorem SigningRing.encodes {decoys : List OutputPublicData} {pseudo : Γ}
    (ring : SigningRing env encode decoys (encode pseudo)) {decoy : OutputPublicData}
    (member : decoy ∈ decoys) :
    ∃ group : RingMember Γ, group.Encodes env encode pseudo decoy := by
  obtain ⟨key, keyNonzero, sameKey⟩ := (laws.valid _).mp (ring.members decoy member).key
  obtain ⟨commit, sameCommit⟩ := (ring.members decoy member).commit
  obtain ⟨hashed, hashedNonzero, sameHashed⟩ := (laws.valid _).mp (ring.hashed decoy member)
  refine ⟨⟨key, commit, hashed⟩, sameKey.symm, sameCommit.symm, sameHashed.symm, keyNonzero,
    hashedNonzero, ?_⟩
  intro zero
  have same : commit = pseudo := sub_eq_zero.mp zero
  exact ring.surplus decoy member (by rw [← sameCommit, same])

variable {generator pseudo : Γ}
  (base : ∀ a, a < env.order → env.scalarmultBaseNoclamp a = encode (a • generator))
  {decoy : OutputPublicData} {member : RingMember Γ} {s cP cC : EcScalar}

include base

section

variable (encodes : member.Encodes env encode pseudo decoy) (reduced : s < env.order)
  (keyReduced : cP < env.order) (commitReduced : cC < env.order)
include encodes reduced keyReduced commitReduced

theorem signerL_encode :
    (env.signerL s decoy (encode (member.commit - pseudo)) cP cC).Returns
      (encode [s • generator, cP • member.key, cC • (member.commit - pseudo)].sum) := by
  unfold Env.signerL
  rw [encodes.key, base s reduced]
  refine (laws.mult_encode keyReduced fun _ => encodes.keyNonzero).bind ?_
  refine (laws.mult_encode commitReduced fun _ => encodes.surplus).bind ?_
  exact laws.sum_encode [s • generator, cP • member.key, cC • (member.commit - pseudo)]

theorem clsagL_encode :
    (env.clsagL s decoy (encode pseudo) cP cC).Returns
      (encode [s • generator, cP • member.key, cC • (member.commit - pseudo)].sum) := by
  unfold Env.clsagL
  rw [encodes.commit]
  refine (laws.subPoints_encode member.commit pseudo).bind ?_
  exact signerL_encode laws base encodes reduced keyReduced commitReduced

end

omit base in
theorem clsagR_encode (encodes : member.Encodes env encode pseudo decoy) {sig : Clsag}
    {keyImage surplusKeyImage : Γ} (image : sig.signerKeyImage = encode keyImage)
    (surplusImage : sig.blindingFactorSurplusKeyImage = encode surplusKeyImage)
    (nonzero : keyImage ≠ 0) (surplusNonzero : surplusKeyImage ≠ 0)
    (reduced : s < env.order) (keyReduced : cP < env.order) (commitReduced : cC < env.order) :
    (env.clsagR s decoy sig cP cC).Returns
      (encode [s • member.hashed, cP • keyImage, cC • surplusKeyImage].sum) := by
  unfold Env.clsagR
  rw [encodes.hashed, image, surplusImage]
  refine (laws.mult_encode reduced fun _ => encodes.hashedNonzero).bind ?_
  refine (laws.mult_encode keyReduced fun _ => nonzero).bind ?_
  refine (laws.mult_encode commitReduced fun _ => surplusNonzero).bind ?_
  exact laws.sum_encode [s • member.hashed, cP • keyImage, cC • surplusKeyImage]

end Round

/-- A signature carries the key images of the round data. -/
structure RoundData.Carries {Γ : Type} [AddCommGroup Γ] (encode : Γ → EcPoint)
    (data : RoundData Γ) (sig : Clsag) : Prop where
  image : sig.signerKeyImage = encode data.keyImage
  surplusImage : sig.blindingFactorSurplusKeyImage = encode data.surplusKeyImage
  nonzero : data.keyImage ≠ 0
  surplusNonzero : data.surplusKeyImage ≠ 0

section Rounds

variable {env : Env} {Γ : Type} [AddCommGroup Γ] {encode : Γ → EcPoint}
  (laws : env.toSodium.Laws encode) {data : RoundData Γ}
  (base : ∀ a, a < env.order → env.scalarmultBaseNoclamp a = encode (a • data.generator))
  {sig : Clsag} (carries : data.Carries encode sig)
  {decoy : OutputPublicData} {member : RingMember Γ} {s : EcScalar}

include laws base carries

/-- One round of the verifier. -/
theorem clsagRound_next (encodes : member.Encodes env encode data.pseudo decoy)
    (reduced : s < env.order) (c : EcScalar) :
    (env.clsagRound sig data.decoys (encode data.pseudo) data.message data.muP data.muC c s
      decoy).Returns (data.next env encode member s c) := by
  have keyReduced := laws.mulScalars_lt data.muP c
  have commitReduced := laws.mulScalars_lt data.muC c
  refine (clsagL_encode laws base encodes reduced keyReduced commitReduced).bind ?_
  refine (clsagR_encode laws encodes carries.image carries.surplusImage carries.nonzero
    carries.surplusNonzero reduced keyReduced commitReduced).bind ?_
  exact .pure _

/-- One round of the signer. -/
theorem signerRound_next {surplus : List EcPoint} {i : Nat}
    (position : data.decoys[i]? = some decoy)
    (difference : surplus[i]? = some (encode (member.commit - data.pseudo)))
    (encodes : member.Encodes env encode data.pseudo decoy) (reduced : s < env.order)
    (c : EcScalar) :
    (env.signerRound sig data.decoys surplus (encode data.pseudo) data.message data.muP data.muC
      i s c).Gives (data.next env encode member s c) := by
  have keyReduced := laws.mulScalars_lt data.muP c
  have commitReduced := laws.mulScalars_lt data.muC c
  unfold Env.signerRound
  rw [position, difference]
  refine .bind (.lift (signerL_encode laws base encodes reduced keyReduced commitReduced)) ?_
  refine .bind (.lift (clsagR_encode laws encodes carries.image carries.surplusImage
    carries.nonzero carries.surplusNonzero reduced keyReduced commitReduced)) ?_
  exact .pure _

end Rounds

/-! ## The challenges of a verification -/

/-- The challenges that the loop over the ring computes if none of them is zero. -/
def Env.clsagChallenges (env : Env) (sig : Clsag) (decoys : List OutputPublicData)
    (pseudoInputCommit : EcPoint) (message : Hash) (muP muC : EcScalar) :
    EcScalar → List (EcScalar × OutputPublicData) → PointM (List EcScalar)
  | _, [] => pure []
  | c, (s, decoy) :: rest => do
      let next ← env.clsagRound sig decoys pseudoInputCommit message muP muC c s decoy
      let others ← clsagChallenges env sig decoys pseudoInputCommit message muP muC next rest
      return next :: others

/-- The challenges of `verify_clsag_signature`. -/
def Env.challengesOf (env : Env) (message : Hash) (sig : Clsag)
    (decoys : List OutputPublicData) (pseudoInputCommit : EcPoint) : PointM (List EcScalar) := do
  let muP ← env.hashClsagDataWithKey sig pseudoInputCommit decoys "CLSAG_agg_0"
  let muC ← env.hashClsagDataWithKey sig pseudoInputCommit decoys "CLSAG_agg_1"
  env.clsagChallenges sig decoys pseudoInputCommit message muP muC sig.c1 (sig.s.zip decoys)

/-- The challenges of `count` steps from position `start` on. -/
def chainList (step : Nat → EcScalar → EcScalar) : Nat → Nat → EcScalar → List EcScalar
  | _, 0, _ => []
  | start, count + 1, c => step start c :: chainList step (start + 1) count (step start c)

section Verifying

variable {env : Env} {Γ : Type} [AddCommGroup Γ] {encode : Γ → EcPoint}
  (laws : env.toSodium.Laws encode) {data : RoundData Γ}
  (base : ∀ a, a < env.order → env.scalarmultBaseNoclamp a = encode (a • data.generator))
  {sig : Clsag} (carries : data.Carries encode sig)
  {members : Nat → RingMember Γ} {entry : Nat → EcScalar}
  (reduced : ∀ i, entry i < env.order)

include laws base carries reduced

theorem clsagRounds_chain {items : List (EcScalar × OutputPublicData)} {start : Nat}
    {c : EcScalar} (each : ∀ k item, items[k]? = some item → item.1 = entry (start + k) ∧
      (members (start + k)).Encodes env encode data.pseudo item.2) :
    (env.clsagChallenges sig data.decoys (encode data.pseudo) data.message data.muP data.muC c
        items).Returns
      (chainList (fun i => data.next env encode (members i) (entry i)) start items.length c) ∧
    (0 ∉ chainList (fun i => data.next env encode (members i) (entry i)) start items.length c →
      (env.clsagRounds sig data.decoys (encode data.pseudo) data.message data.muP data.muC c
        items).Returns
        (some (chain (fun i => data.next env encode (members i) (entry i)) start items.length
          c))) := by
  induction items generalizing start c with
  | nil => exact ⟨.pure _, fun _ => .pure _⟩
  | cons item rest ih =>
    obtain ⟨s, decoy⟩ := item
    obtain ⟨sameScalar, encodes⟩ := each 0 (s, decoy) rfl
    rw [Nat.add_zero] at sameScalar encodes
    subst sameScalar
    have round := clsagRound_next laws base carries encodes (reduced start) c
    have later : ∀ k item, rest[k]? = some item → item.1 = entry (start + 1 + k) ∧
        (members (start + 1 + k)).Encodes env encode data.pseudo item.2 := by
      intro k item found
      rw [Nat.add_right_comm]
      exact each (k + 1) item found
    obtain ⟨challenges, accepted⟩ := ih later
    rw [length_cons, chainList]
    constructor
    · unfold Env.clsagChallenges
      exact round.bind (challenges.bind (.pure _))
    · intro nonzero
      rw [mem_cons, not_or] at nonzero
      refine round.bind ?_
      rw [if_neg (Ne.symm nonzero.1)]
      exact accepted nonzero.2

end Verifying

/-! ## Closing the ring -/

section Closing

variable {env : Env} {Γ : Type} [AddCommGroup Γ] {encode : Γ → EcPoint}
  (laws : env.toSodium.Laws encode)

include laws

/-- The scalar of the real member makes the round start from the drawn scalar again. -/
theorem closing_sum (a c muP muC sk z : EcScalar) (x : Γ) :
    [env.subScalars a (env.mulScalars c (env.addScalars (env.mulScalars muC z)
        (env.mulScalars muP sk))) • x,
      env.mulScalars muP c • sk • x, env.mulScalars muC c • z • x].sum = a • x := by
  let _ := AddCommGroup.zmodModule laws.torsion
  simp only [sum_cons, sum_nil, ← Nat.cast_smul_eq_nsmul (ZMod env.order),
    laws.cast_subScalars, Sodium.Laws.cast_mulScalars, Sodium.Laws.cast_addScalars]
  module

end Closing

/-! ## Completeness -/

/-- The value of `hash_clsag_data_with_key`. -/
def aggregationHash (env : Env) (decoys : List OutputPublicData)
    (pseudoInputCommit signerKeyImage surplusKeyImageInv8 : EcPoint) (hashKey : String) :
    EcScalar :=
  env.hashDataVToScalar
    (dataOfString hashKey :: decoys.map (·.outputPublicKey) ++ decoys.map (·.commit) ++
      [signerKeyImage, surplusKeyImageInv8, pseudoInputCommit])

section Completeness

variable {env : Env} {Γ : Type} [AddCommGroup Γ] {encode : Γ → EcPoint}
  (laws : env.toSodium.Laws encode) {data : RoundData Γ}
  (base : ∀ a, a < env.order → env.scalarmultBaseNoclamp a = encode (a • data.generator))
  {members : Nat → RingMember Γ}
  (encodes : ∀ i decoy, data.decoys[i]? = some decoy →
    (members i).Encodes env encode data.pseudo decoy)
  {random : Nat → EcScalar} (drawn : ∀ i, random i < env.order)

include laws in
omit base encodes drawn in
theorem hashClsagDataWithKey_encode (decoys : List OutputPublicData)
    (pseudoInputCommit signerKeyImage : EcPoint) {surplusKeyImage : Γ}
    (nonzero : surplusKeyImage ≠ 0) (hashKey : String) {sig : Clsag}
    (image : sig.signerKeyImage = signerKeyImage)
    (surplusImage : sig.blindingFactorSurplusKeyImage = encode surplusKeyImage) :
    (env.hashClsagDataWithKey sig pseudoInputCommit decoys hashKey).Returns
      (aggregationHash env decoys pseudoInputCommit signerKeyImage
        (encode (env.invEight • surplusKeyImage)) hashKey) := by
  unfold Env.hashClsagDataWithKey
  rw [image, surplusImage]
  exact (laws.toInv8_encode nonzero).bind (.pure _)

/-- The scalars of a signature: the drawn ones, and `last` for the real member. -/
def ringScalars (random : Nat → EcScalar) (index : Nat) (last : EcScalar) : Nat → EcScalar :=
  fun j => if j = index then last else random j

omit base encodes laws in
theorem ringScalars_lt (drawn : ∀ i, random i < env.order) {index : Nat} {last : EcScalar}
    (lastReduced : last < env.order) (i : Nat) : ringScalars random index last i < env.order := by
  unfold ringScalars
  split
  · exact lastReduced
  · exact drawn i

/-- A ring whose step at `index` leads back to the challenge the signer started with. -/
theorem chain_closed {step : Nat → EcScalar → EcScalar} {n index : Nat} (inside : index < n)
    {start : EcScalar}
    (closes : step index (chain step 0 index (chain step (index + 1) (n - (index + 1)) start)) =
      start) :
    chain step 0 n (chain step (index + 1) (n - (index + 1)) start) =
      chain step (index + 1) (n - (index + 1)) start := by
  have whole : n = index + (1 + (n - (index + 1))) := by omega
  conv_lhs => rw [whole]
  rw [chain_add, chain_add, Nat.zero_add, chain, chain, ← whole, closes]

include laws base encodes drawn

/-- The verifier accepts a ring that was closed. -/
theorem verifyClsagSignature_closed {sig : Clsag} (carries : data.Carries encode sig)
    (aggregateP : (env.hashClsagDataWithKey sig (encode data.pseudo) data.decoys
      "CLSAG_agg_0").Returns data.muP)
    (aggregateC : (env.hashClsagDataWithKey sig (encode data.pseudo) data.decoys
      "CLSAG_agg_1").Returns data.muC)
    {index : Nat} {last : EcScalar} (lastReduced : last < env.order)
    (scalars : sig.s = table data.decoys.length (ringScalars random index last))
    (nonempty : data.decoys ≠ [])
    (closed : chain (fun i => data.next env encode (members i) (ringScalars random index last i))
      0 data.decoys.length sig.c1 = sig.c1) :
    ∃ challenges,
      (env.challengesOf data.message sig data.decoys (encode data.pseudo)).Returns challenges ∧
      (0 ∉ challenges → (env.verifyClsagSignature data.message sig data.decoys
        (encode data.pseudo)).Returns true) := by
  have reduced : ∀ i, ringScalars random index last i < env.order :=
    ringScalars_lt drawn lastReduced
  have length : (sig.s.zip data.decoys).length = data.decoys.length := by
    simp [scalars]
  have each : ∀ k item, (sig.s.zip data.decoys)[k]? = some item →
      item.1 = ringScalars random index last (0 + k) ∧
        (members (0 + k)).Encodes env encode data.pseudo item.2 := by
    intro k item found
    rw [getElem?_zip_eq_some] at found
    rw [Nat.zero_add]
    refine ⟨?_, encodes k item.2 found.2⟩
    have position := found.1
    rw [scalars] at position
    exact table_getElem? position
  obtain ⟨challenges, accepted⟩ := @clsagRounds_chain env Γ _ encode laws data base sig carries
    members _ reduced _ 0 sig.c1 each
  rw [length] at challenges accepted
  refine ⟨_, aggregateP.bind (aggregateC.bind challenges), fun nonzero => ?_⟩
  have positive : ¬ data.decoys.length < 1 := by
    have := length_pos_iff.mpr nonempty
    omega
  have sizes : ¬ data.decoys.length ≠ sig.s.length := by simp [scalars]
  unfold Env.verifyClsagSignature
  rw [if_neg positive, if_neg sizes]
  refine aggregateP.bind (aggregateC.bind ((accepted nonzero).bind ?_))
  rw [closed, decide_eq_true rfl]
  exact .pure _

/-- What the signer knows: the secret of the real member's key and of its commitment surplus,
and the key images made from them. -/
structure RoundData.Signs (data : RoundData Γ) (member : RingMember Γ) (sk z : EcScalar) :
    Prop where
  key : member.key = sk • data.generator
  surplus : member.commit - data.pseudo = z • data.generator
  keyImage : data.keyImage = sk • member.hashed
  surplusKeyImage : data.surplusKeyImage = z • member.hashed

omit base encodes drawn in
/-- The round of the real member, with the scalar that closes the ring. -/
theorem RoundData.Signs.closes {member : RingMember Γ} {sk z : EcScalar}
    (signs : data.Signs member sk z) (a c : EcScalar) :
    data.next env encode member (env.subScalars a (env.mulScalars c (env.addScalars
        (env.mulScalars data.muC z) (env.mulScalars data.muP sk)))) c =
      env.clsagRoundHash data.decoys (encode data.pseudo) data.message
        (encode (a • data.generator)) (encode (a • member.hashed)) := by
  unfold RoundData.next
  dsimp only
  rw [signs.key, signs.surplus, signs.keyImage, signs.surplusKeyImage,
    closing_sum laws, closing_sum laws]

/-- What `generate_clsag_signature_internal` makes. -/
theorem generateClsagSignatureInternal_gives {index : Nat} {member : OutputPublicData}
    (real : data.decoys[index]? = some member) {sk z : EcScalar}
    (signs : data.Signs (members index) sk z) (skReduced : sk < env.order)
    (zReduced : z < env.order) {surplus : List EcPoint}
    (length : surplus.length = data.decoys.length)
    (differences : ∀ i, i < data.decoys.length →
      surplus[i]? = some (encode ((members i).commit - data.pseudo)))
    (carries : ∀ sig : Clsag, sig.signerKeyImage = encode data.keyImage →
      sig.blindingFactorSurplusKeyImage = encode data.surplusKeyImage →
      data.Carries encode sig ∧
      (env.hashClsagDataWithKey sig (encode data.pseudo) data.decoys
        "CLSAG_agg_0").Returns data.muP ∧
      (env.hashClsagDataWithKey sig (encode data.pseudo) data.decoys
        "CLSAG_agg_1").Returns data.muC) :
    ∃ sig last, (env.generateClsagSignatureInternal random data.message sk z index
        (encode data.pseudo) data.decoys surplus).Gives sig ∧
      sig.signerKeyImage = encode data.keyImage ∧
      sig.blindingFactorSurplusKeyImage = encode data.surplusKeyImage ∧
      sig.s = table data.decoys.length (ringScalars random index last) ∧ last < env.order ∧
      sig.c1 < env.order ∧
      chain (fun i => data.next env encode (members i) (ringScalars random index last i)) 0
        data.decoys.length sig.c1 = sig.c1 := by
  obtain ⟨inside, -⟩ := List.getElem?_eq_some_iff.mp real
  have own := encodes index member real
  set images := Clsag.ofImages (encode data.keyImage) (encode data.surplusKeyImage)
  obtain ⟨carried, aggregateP, aggregateC⟩ := carries images rfl rfl
  set drawnStep := fun i => data.next env encode (members i) (random i)
  have rounds : ∀ i, i < data.decoys.length → i ≠ index → ∀ c,
      (env.signerRound images data.decoys surplus (encode data.pseudo) data.message data.muP
        data.muC i (random i) c).Gives (drawnStep i c) := by
    intro i bound _ c
    have found : data.decoys[i]? = some data.decoys[i] := getElem?_eq_getElem bound
    exact signerRound_next laws base carried found (differences i bound) (encodes i _ found)
      (drawn i) c
  set start := env.clsagRoundHash data.decoys (encode data.pseudo) data.message
    (encode (random index • data.generator)) (encode (random index • (members index).hashed))
  set first := chain drawnStep (index + 1) (data.decoys.length - (index + 1)) start
  set last := env.subScalars (random index) (env.mulScalars (chain drawnStep 0 index first)
    (env.addScalars (env.mulScalars data.muC z) (env.mulScalars data.muP sk)))
  set step := fun i => data.next env encode (members i) (ringScalars random index last i)
  -- Away from the real member the scalars are the drawn ones.
  have same : ∀ i, i ≠ index → drawnStep i = step i := by
    intro i other
    simp only [drawnStep, step, ringScalars, if_neg other]
  have above : first = chain step (index + 1) (data.decoys.length - (index + 1)) start :=
    chain_congr (fun i low _ => same i (by omega)) start
  have below : chain drawnStep 0 index first = chain step 0 index first :=
    chain_congr (fun i _ high => same i (by omega)) first
  have closes : step index (chain step 0 index first) = start := by
    rw [← below]
    simp only [step, ringScalars]
    exact signs.closes laws (random index) _
  refine ⟨{ images with s := table data.decoys.length (ringScalars random index last), c1 := first },
    last, ?_, rfl, rfl, rfl, laws.subScalars_lt _ _, ?_, ?_⟩
  · unfold Env.generateClsagSignatureInternal
    refine .bind (.require length.symm) (.bind (.require inside) ?_)
    rw [real]
    dsimp only
    rw [own.hashed]
    refine .bind (.lift (laws.mult_encode skReduced fun _ => own.hashedNonzero)) ?_
    refine .bind (.lift (laws.mult_encode zReduced fun _ => own.hashedNonzero)) ?_
    rw [← signs.keyImage, ← signs.surplusKeyImage]
    refine .bind (.lift aggregateP) (.bind (.lift aggregateC) ?_)
    refine .bind (.lift (laws.mult_encode (drawn index) fun _ => own.hashedNonzero)) ?_
    rw [base _ (drawn index)]
    refine .bind (signerLoop_gives inside rounds start) ?_
    have scalars : Function.update (fun j => if j = index then 0 else random j) index last =
        ringScalars random index last := by
      funext j
      rw [Function.update_apply, ringScalars]
      split
      · rfl
      · rfl
    rw [table_set, scalars]
    exact .pure _
  · exact chain_lt (fun i c => laws.reduce_lt _) (laws.reduce_lt _)
  · rw [above] at closes ⊢
    exact chain_closed inside closes

end Completeness

/-- A signature made for a ring whose real member has the signer's key, and a commitment to
the same amount as the pseudo input commitment, is accepted, unless a challenge is zero. -/
theorem generateClsagSignature_verifies {env : Env} {Γ : Type} [AddCommGroup Γ]
    {encode : Γ → EcPoint} (laws : env.toSodium.Laws encode) {random : Nat → EcScalar}
    (drawn : ∀ i, random i < env.order) {message : Hash}
    {signerSk signerBlindingFactor pseudoInputBlindingFactor : EcScalar}
    (skReduced : signerSk < env.order) (blindingReduced : signerBlindingFactor < env.order)
    (pseudoReduced : pseudoInputBlindingFactor < env.order)
    {decoys : List OutputPublicData} {pseudoInputCommit : EcPoint}
    (ring : SigningRing env encode decoys pseudoInputCommit) {indexInDecoys : Nat}
    {member : OutputPublicData} (real : decoys[indexInDecoys]? = some member)
    (key : member.outputPublicKey = env.scalarmultBaseNoclamp signerSk) {amount : Nat}
    (bounded : amount < 2 ^ 64)
    (opens : (env.commit amount signerBlindingFactor).Returns member.commit)
    (pseudoOpens : (env.commit amount pseudoInputBlindingFactor).Returns pseudoInputCommit) :
    ∃ sig unsafeSig safe challenges,
      (env.generateClsagSignature random message signerSk signerBlindingFactor indexInDecoys
        pseudoInputBlindingFactor pseudoInputCommit decoys).Gives sig ∧
      (env.toUnsafeCLSAG sig).Returns unsafeSig ∧
      env.maybeSafeCLSAG unsafeSig sig.signerKeyImage = some safe ∧
      (env.challengesOf message safe decoys pseudoInputCommit).Returns challenges ∧
      (0 ∉ challenges →
        (env.verifyClsagSignature message safe decoys pseudoInputCommit).Returns true) := by
  obtain ⟨generator, base⟩ := laws.base
  obtain ⟨second, secondNonzero, isSecond⟩ := (laws.valid _).mp laws.second
  have committed := opens.unique
    (laws.commit_encode base secondNonzero isSecond bounded blindingReduced)
  have pseudoCommitted := pseudoOpens.unique
    (laws.commit_encode base secondNonzero isSecond bounded pseudoReduced)
  set pseudo : Γ := pseudoInputBlindingFactor • generator + amount • second with isPseudo
  subst pseudoCommitted
  -- The group elements behind the ring.
  have chosen : ∀ i : Nat, ∃ group : RingMember Γ, ∀ decoy, decoys[i]? = some decoy →
      group.Encodes env encode pseudo decoy := by
    intro i
    cases found : decoys[i]? with
    | none => exact ⟨⟨0, 0, 0⟩, fun decoy same => by cases same⟩
    | some decoy =>
      obtain ⟨group, encodes⟩ := ring.encodes laws (mem_of_getElem? found)
      exact ⟨group, fun other same => by cases same; exact encodes⟩
  choose members encodes using chosen
  have own := encodes indexInDecoys member real
  set z := env.subScalars signerBlindingFactor pseudoInputBlindingFactor with isSurplus
  have zReduced : z < env.order := laws.subScalars_lt _ _
  have ownKey : (members indexInDecoys).key = signerSk • generator :=
    laws.injective (own.key.symm.trans (key.trans (base signerSk skReduced)))
  have ownSurplus : (members indexInDecoys).commit - pseudo = z • generator := by
    rw [laws.injective (own.commit.symm.trans committed), isSurplus]
    let _ := AddCommGroup.zmodModule laws.torsion
    simp only [← Nat.cast_smul_eq_nsmul (ZMod env.order), laws.cast_subScalars]
    module
  have skNonzero : signerSk ≠ 0 := by
    rintro rfl
    exact own.keyNonzero (by rw [ownKey, zero_nsmul])
  have zNonzero : z ≠ 0 := by
    intro zero
    exact own.surplus (by rw [ownSurplus, zero, zero_nsmul])
  set hashed := (members indexInDecoys).hashed
  have imageNonzero := laws.nsmul_ne_zero skNonzero skReduced own.hashedNonzero
  have surplusNonzero := laws.nsmul_ne_zero zNonzero zReduced own.hashedNonzero
  have aggregate := hashClsagDataWithKey_encode laws decoys (encode pseudo)
    (encode (signerSk • hashed)) surplusNonzero
  set data : RoundData Γ :=
    { generator := generator
      pseudo := pseudo
      keyImage := signerSk • hashed
      surplusKeyImage := z • hashed
      decoys := decoys
      message := message
      muP := aggregationHash env decoys (encode pseudo) (encode (signerSk • hashed))
        (encode (env.invEight • z • hashed)) "CLSAG_agg_0"
      muC := aggregationHash env decoys (encode pseudo) (encode (signerSk • hashed))
        (encode (env.invEight • z • hashed)) "CLSAG_agg_1" }
  have signs : data.Signs (members indexInDecoys) signerSk z := ⟨ownKey, ownSurplus, rfl, rfl⟩
  have carries : ∀ sig : Clsag, sig.signerKeyImage = encode data.keyImage →
      sig.blindingFactorSurplusKeyImage = encode data.surplusKeyImage →
      data.Carries encode sig := fun sig image surplusImage =>
    ⟨image, surplusImage, imageNonzero, surplusNonzero⟩
  have subtracted : ∀ decoy ∈ decoys, (env.subPoints decoy.commit (encode pseudo)).Returns
      ((env.subPoints decoy.commit (encode pseudo)).value fun _ => 0) := by
    intro decoy listed
    obtain ⟨group, isGroup⟩ := ring.encodes laws listed
    have returns := laws.subPoints_encode group.commit pseudo
    rw [← isGroup.commit] at returns
    rw [returns.value_eq]
    exact returns
  have differences : ∀ i, i < decoys.length →
      (decoys.map fun decoy => (env.subPoints decoy.commit (encode pseudo)).value fun _ => 0)[i]? =
        some (encode ((members i).commit - pseudo)) := by
    intro i bound
    have found : decoys[i]? = some decoys[i] := getElem?_eq_getElem bound
    rw [getElem?_map, found, Option.map_some, (encodes i _ found).commit,
      (laws.subPoints_encode _ _).value_eq]
  obtain ⟨sig, last, made, image, surplusImage, scalars, lastReduced, firstReduced, closed⟩ :=
    @generateClsagSignatureInternal_gives env Γ _ encode laws data base members encodes random
      drawn indexInDecoys member real signerSk z signs skReduced zReduced _ (by simp [data])
      differences fun sig image surplusImage => ⟨carries sig image surplusImage,
        aggregate "CLSAG_agg_0" image surplusImage, aggregate "CLSAG_agg_1" image surplusImage⟩
  obtain ⟨challenges, computed, accepted⟩ := @verifyClsagSignature_closed env Γ _ encode laws
    data base members encodes random drawn sig (carries sig image surplusImage)
    (aggregate "CLSAG_agg_0" image surplusImage) (aggregate "CLSAG_agg_1" image surplusImage)
    indexInDecoys last lastReduced scalars (ne_nil_of_mem (mem_of_getElem? real)) closed
  refine ⟨sig, _, sig, challenges, ?_, (?_ : (env.toUnsafeCLSAG sig).Returns
    { s := sig.s
      c1 := sig.c1
      blindingFactorSurplusKeyImage := encode (env.invEight • z • hashed) }), ?_, computed,
    accepted⟩
  · unfold Env.generateClsagSignature
    have nonempty : ¬ decoys.isEmpty = true := by
      rw [List.isEmpty_iff]
      exact ne_nil_of_mem (mem_of_getElem? real)
    exact .bind (.require nonempty) (.bind (.lift (.mapM subtracted)) made)
  · unfold Env.toUnsafeCLSAG
    rw [surplusImage]
    exact (laws.toInv8_encode surplusNonzero).bind (.pure _)
  · have reduced : ∀ s ∈ sig.s, env.isReduced s = true := by
      intro s listed
      obtain ⟨j, found⟩ := getElem?_of_mem listed
      rw [scalars] at found
      rw [table_getElem? found, Sodium.isReduced, beq_iff_eq]
      exact Nat.mod_eq_of_lt (ringScalars_lt drawn lastReduced j)
    have first : env.isReduced sig.c1 = true := beq_iff_eq.mpr (Nat.mod_eq_of_lt firstReduced)
    unfold Env.maybeSafeCLSAG
    rw [if_neg (not_not.mpr (all_eq_true.mpr reduced)), if_neg (not_not.mpr first),
      laws.maybeFromInv8_encode surplusNonzero, Option.map_some]
    rw [← surplusImage]

/-! ## A ring of two -/

/-- The cyclic group, with nothing of interest around it. -/
def cyclicSetting : Env where
  toSodium := cyclicSodium cyclicOrder
  getTransactionHash := fun _ => 0
  getTransactionPrefixHash := fun _ => 0
  getBlockHash := fun _ => 0
  getMiningHash := fun _ => 0
  getTransactionWeight := fun _ => 0
  getRctsigBaseHash := fun _ _ _ => 0
  bulletproofVerify := fun _ _ _ => true
  feePerWeight := fun _ _ => 0
  fixedDifficulty := 0
  txpoolMaxWeight := 0
  clock := fun _ => 0
  memory := fun _ _ => 0

theorem cyclicSetting_laws :
    cyclicSetting.toSodium.Laws fun x : ZMod cyclicOrder => cyclicEncode x :=
  cyclicSodium_laws cyclicOrder_prime (by decide +kernel) (by decide +kernel)

/-- A ring whose second member belongs to the secret key one and commits to five with the
blinding factor three. -/
def ringOfTwo : List OutputPublicData :=
  [{ outputPublicKey := identity + 7, commit := identity + 20 },
    { outputPublicKey := identity + 1, commit := identity + 13 }]

theorem ringOfTwo_signing :
    SigningRing cyclicSetting (fun x : ZMod cyclicOrder => cyclicEncode x) ringOfTwo
      (identity + 14) where
  members := by
    intro decoy member
    have checked : ∀ decoy ∈ ringOfTwo, cyclicSetting.isValidPoint decoy.outputPublicKey = true ∧
        cyclicSetting.isValidPoint decoy.commit = true := by
      decide +kernel
    obtain ⟨key, commit⟩ := checked decoy member
    exact ⟨key, cyclicSetting_laws.mem_range commit⟩
  hashed := by decide +kernel
  surplus := by decide +kernel

theorem generateClsagSignature_verifies_two :
    ∃ sig unsafeSig safe challenges,
      (cyclicSetting.generateClsagSignature (fun _ => 1) 0 1 3 1 4 (identity + 14)
        ringOfTwo).Gives sig ∧
      (cyclicSetting.toUnsafeCLSAG sig).Returns unsafeSig ∧
      cyclicSetting.maybeSafeCLSAG unsafeSig sig.signerKeyImage = some safe ∧
      (cyclicSetting.challengesOf 0 safe ringOfTwo (identity + 14)).Returns challenges ∧
      (0 ∉ challenges →
        (cyclicSetting.verifyClsagSignature 0 safe ringOfTwo (identity + 14)).Returns true) :=
  generateClsagSignature_verifies cyclicSetting_laws (fun _ => by decide +kernel)
    (by decide +kernel) (by decide +kernel) (by decide +kernel) ringOfTwo_signing rfl
    (by decide +kernel) (by decide : 5 < 2 ^ 64)
    (.bind (.ofResult (by decide +kernel : cyclicSetting.scalarmultNoclamp 5 cyclicSetting.H =
      some (identity + 10))) (.ofResult (by decide +kernel)))
    (.bind (.ofResult (by decide +kernel : cyclicSetting.scalarmultNoclamp 5 cyclicSetting.H =
      some (identity + 10))) (.ofResult (by decide +kernel)))

end Memero
