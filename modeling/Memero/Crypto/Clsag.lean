import Memero.Crypto.Laws

/-!
# When the verification of a ring signature is defined

`verify_clsag_signature` multiplies the keys of the ring, the key image and the differences of
the commitments by hashes. The conditions under which none of these multiplications is refused
are collected along the loop, and they turn out to be exact: if one of them fails, some
multiplication is refused.
-/

namespace Memero

open List PointM

/-! ## Operands -/

/-- A signature whose parts `maybeSafeCLSAG` has checked. -/
structure Clsag.Checked (env : Env) (sig : Clsag) : Prop where
  s : ∀ s ∈ sig.s, s < env.order
  c1 : sig.c1 < env.order
  surplus : env.isValidPoint sig.blindingFactorSurplusKeyImage = true

/-- A ring member whose key has been checked and whose commitment is a point. -/
structure OutputPublicData.Sound {Γ : Type} (env : Env) (encode : Γ → EcPoint)
    (decoy : OutputPublicData) : Prop where
  key : env.isValidPoint decoy.outputPublicKey = true
  commit : decoy.commit ∈ Set.range encode

/-- The operands of one round are accepted; with the challenge zero only the hash point is
multiplied. -/
structure RoundOperands (env : Env) (sig : Clsag) (pseudoInputCommit : EcPoint) (c s : EcScalar)
    (decoy : OutputPublicData) : Prop where
  hashed : s ≠ 0 → env.isValidPoint (env.hashToPointViaField decoy.outputPublicKey) = true
  keyImage : c ≠ 0 → env.isValidPoint sig.signerKeyImage = true
  surplus : c ≠ 0 → decoy.commit ≠ pseudoInputCommit

/-- The operands of all rounds are accepted. Only the first challenge can be zero. -/
structure ClsagOperands (env : Env) (sig : Clsag) (pseudoInputCommit : EcPoint) (c : EcScalar)
    (items : List (EcScalar × OutputPublicData)) : Prop where
  hashed : ∀ item ∈ items, item.1 ≠ 0 →
    env.isValidPoint (env.hashToPointViaField item.2.outputPublicKey) = true
  challenged : ∀ item ∈ (if c = 0 then items.tail else items),
    env.isValidPoint sig.signerKeyImage = true ∧ item.2.commit ≠ pseudoInputCommit

section Operands

variable {env : Env} {sig : Clsag} {pseudoInputCommit : EcPoint}

theorem clsagOperands_cons {c next s : EcScalar} {decoy : OutputPublicData}
    {rest : List (EcScalar × OutputPublicData)} (nonzero : next ≠ 0) :
    ClsagOperands env sig pseudoInputCommit c ((s, decoy) :: rest) ↔
      RoundOperands env sig pseudoInputCommit c s decoy ∧
        ClsagOperands env sig pseudoInputCommit next rest := by
  have later : ∀ item ∈ rest, item ∈ (if c = 0 then rest else (s, decoy) :: rest) := by
    intro item member
    split
    · exact member
    · exact mem_cons_of_mem _ member
  constructor
  · intro operands
    have first : c ≠ 0 → env.isValidPoint sig.signerKeyImage = true ∧
        decoy.commit ≠ pseudoInputCommit := by
      intro challenge
      exact operands.challenged (s, decoy) (by rw [if_neg challenge]; exact mem_cons_self)
    refine ⟨⟨operands.hashed _ mem_cons_self, fun challenge => (first challenge).1,
      fun challenge => (first challenge).2⟩, fun item member => ?_, fun item member => ?_⟩
    · exact operands.hashed item (mem_cons_of_mem _ member)
    · rw [if_neg nonzero] at member
      exact operands.challenged item (later item member)
  · rintro ⟨round, operands⟩
    have others := operands.challenged
    rw [if_neg nonzero] at others
    refine ⟨fun item member => ?_, fun item member => ?_⟩
    · rcases mem_cons.mp member with rfl | member
      · exact round.hashed
      · exact operands.hashed item member
    · split at member
      · exact others item member
      · rename_i challenge
        rcases mem_cons.mp member with rfl | member
        · exact ⟨round.keyImage challenge, round.surplus challenge⟩
        · exact others item member

end Operands

namespace Env

variable {env : Env} {Γ : Type} [AddCommGroup Γ] {encode : Γ → EcPoint}
  (laws : env.toSodium.Laws encode)

include laws

theorem checked_of_maybeSafeCLSAG {sig : ClsagUnsafe} {signerKeyImage : EcPoint} {safe : Clsag}
    (checked : env.maybeSafeCLSAG sig signerKeyImage = some safe) : safe.Checked env := by
  unfold maybeSafeCLSAG at checked
  split at checked
  · cases checked
  rename_i scalars
  split at checked
  · cases checked
  rename_i challenge
  obtain ⟨surplusKeyImage, inverted, rfl⟩ := Option.map_eq_some_iff.mp checked
  unfold Sodium.maybeFromInv8 Sodium.maybeSafePoint at inverted
  split at inverted
  · rename_i valid
    cases inverted
    refine ⟨fun s member => laws.lt_of_isReduced ?_, laws.lt_of_isReduced (not_not.mp challenge),
      laws.mult8_valid valid⟩
    exact all_eq_true.mp (not_not.mp scalars) s member
  · cases inverted

/-! ## One round -/

section Round

variable {sig : Clsag} {decoys : List OutputPublicData} {pseudoInputCommit : EcPoint}
  {message : Hash} {muP muC c cP cC s : EcScalar} {decoy : OutputPublicData}

theorem clsagL_returns (member : decoy.Sound env encode)
    (pseudo : pseudoInputCommit ∈ Set.range encode) (reduced : s < env.order)
    (keyReduced : cP < env.order) (commitReduced : cC < env.order)
    (surplus : cC ≠ 0 → decoy.commit ≠ pseudoInputCommit) :
    ∃ L, (env.clsagL s decoy pseudoInputCommit cP cC).Returns L := by
  obtain ⟨difference, subtracted, valid⟩ := laws.subPoints_returns member.commit pseudo
  obtain ⟨keyPart, keyEncoded, keyMultiplied⟩ :=
    laws.mult_returns keyReduced fun _ => member.key
  obtain ⟨commitPart, commitEncoded, commitMultiplied⟩ :=
    laws.mult_returns commitReduced fun nonzero => valid.mpr (surplus nonzero)
  have encoded : ∀ point ∈ [env.scalarmultBaseNoclamp s, keyPart, commitPart],
      point ∈ Set.range encode := by
    intro point listed
    simp only [mem_cons, not_mem_nil, or_false] at listed
    rcases listed with rfl | rfl | rfl
    · exact laws.base_mem reduced
    · exact keyEncoded
    · exact commitEncoded
  obtain ⟨L, -, summed⟩ := laws.sum_returns encoded
  exact ⟨L, subtracted.bind (keyMultiplied.bind (commitMultiplied.bind summed))⟩

/-- The surplus of a member with the commitment of the input is the identity. -/
theorem clsagL_fails (member : decoy.Sound env encode)
    (pseudo : pseudoInputCommit ∈ Set.range encode) (nonzero : cC ≠ 0)
    (same : decoy.commit = pseudoInputCommit) :
    (env.clsagL s decoy pseudoInputCommit cP cC).Fails := by
  obtain ⟨difference, subtracted, valid⟩ := laws.subPoints_returns member.commit pseudo
  have invalid : env.isValidPoint difference = false := by
    rw [Bool.eq_false_iff, ne_eq, valid]
    exact not_not.mpr same
  exact .after_returns subtracted <| .after (env.mult_counts _ _) fun _ =>
    (laws.mult_fails nonzero invalid).bind fun _ => env.sum_counts _

theorem clsagR_returns (checked : sig.Checked env) (reduced : s < env.order)
    (keyReduced : cP < env.order) (commitReduced : cC < env.order)
    (hashed : s ≠ 0 → env.isValidPoint (env.hashToPointViaField decoy.outputPublicKey) = true)
    (keyImage : cP ≠ 0 → env.isValidPoint sig.signerKeyImage = true) :
    ∃ R, (env.clsagR s decoy sig cP cC).Returns R := by
  obtain ⟨hashPart, hashEncoded, hashMultiplied⟩ := laws.mult_returns reduced hashed
  obtain ⟨keyPart, keyEncoded, keyMultiplied⟩ := laws.mult_returns keyReduced keyImage
  obtain ⟨commitPart, commitEncoded, commitMultiplied⟩ :=
    laws.mult_returns commitReduced fun _ => checked.surplus
  have encoded : ∀ point ∈ [hashPart, keyPart, commitPart], point ∈ Set.range encode := by
    intro point listed
    simp only [mem_cons, not_mem_nil, or_false] at listed
    rcases listed with rfl | rfl | rfl
    · exact hashEncoded
    · exact keyEncoded
    · exact commitEncoded
  obtain ⟨R, -, summed⟩ := laws.sum_returns encoded
  exact ⟨R, hashMultiplied.bind (keyMultiplied.bind (commitMultiplied.bind summed))⟩

theorem clsagR_fails_of_keyImage (nonzero : cP ≠ 0)
    (invalid : env.isValidPoint sig.signerKeyImage = false) :
    (env.clsagR s decoy sig cP cC).Fails :=
  .after (env.mult_counts _ _) fun _ => (laws.mult_fails nonzero invalid).bind fun _ =>
    .bind (env.mult_counts _ _) fun _ => env.sum_counts _

theorem clsagR_fails_of_hash (nonzero : s ≠ 0)
    (invalid : env.isValidPoint (env.hashToPointViaField decoy.outputPublicKey) = false) :
    (env.clsagR s decoy sig cP cC).Fails :=
  (laws.mult_fails nonzero invalid).bind fun _ => .bind (env.mult_counts _ _) fun _ =>
    .bind (env.mult_counts _ _) fun _ => env.sum_counts _

/-- A round with accepted operands returns a challenge. -/
theorem clsagRound_returns (checked : sig.Checked env) (member : decoy.Sound env encode)
    (pseudo : pseudoInputCommit ∈ Set.range encode) (reduced : s < env.order)
    (operands : RoundOperands env sig pseudoInputCommit c s decoy) :
    ∃ keys, (env.clsagRound sig decoys pseudoInputCommit message muP muC c s decoy).Returns
      (env.hashDataVToScalar keys) := by
  have challenged : ∀ {mu}, env.mulScalars mu c ≠ 0 → c ≠ 0 := by
    intro mu nonzero zero
    exact nonzero (by simp [zero, Sodium.mulScalars])
  obtain ⟨L, left⟩ := clsagL_returns laws member pseudo reduced (laws.mulScalars_lt muP c)
    (laws.mulScalars_lt muC c) fun nonzero => operands.surplus (challenged nonzero)
  obtain ⟨R, right⟩ := clsagR_returns laws checked reduced (laws.mulScalars_lt muP c)
    (laws.mulScalars_lt muC c) operands.hashed
    fun nonzero => operands.keyImage (challenged nonzero)
  exact ⟨_, left.bind (right.bind (.pure _))⟩

/-- A key image that is refused fails every round with a challenge. -/
theorem clsagRound_fails_of_keyImage (muPNonzero : muP ≠ 0) (muPReduced : muP < env.order)
    (nonzero : c ≠ 0) (reduced : c < env.order)
    (invalid : env.isValidPoint sig.signerKeyImage = false) :
    (env.clsagRound sig decoys pseudoInputCommit message muP muC c s decoy).Fails :=
  .after (env.clsagL_counts _ _ _ _ _) fun _ =>
    (clsagR_fails_of_keyImage laws
      (laws.mulScalars_ne_zero muPNonzero muPReduced nonzero reduced) invalid).bind fun _ => .pure _

/-- A round with other operands does not return without a failure. -/
theorem clsagRound_fails (member : decoy.Sound env encode)
    (pseudo : pseudoInputCommit ∈ Set.range encode) (muPNonzero : muP ≠ 0)
    (muPReduced : muP < env.order) (muCNonzero : muC ≠ 0) (muCReduced : muC < env.order)
    (reduced : c < env.order)
    (refused : ¬ RoundOperands env sig pseudoInputCommit c s decoy) :
    (env.clsagRound sig decoys pseudoInputCommit message muP muC c s decoy).Fails := by
  by_contra defined
  refine refused ⟨fun nonzero => ?_, fun nonzero => ?_, fun nonzero same => ?_⟩
  · by_contra invalid
    exact defined (.after (env.clsagL_counts _ _ _ _ _) fun _ =>
      (clsagR_fails_of_hash laws nonzero (Bool.eq_false_iff.mpr invalid)).bind fun _ => .pure _)
  · by_contra invalid
    exact defined (clsagRound_fails_of_keyImage laws muPNonzero muPReduced nonzero reduced
      (Bool.eq_false_iff.mpr invalid))
  · have challenge := laws.mulScalars_ne_zero muCNonzero muCReduced nonzero reduced
    exact defined ((clsagL_fails laws member pseudo challenge same).bind fun _ =>
      .bind (env.clsagR_counts _ _ _ _ _) fun _ => .pure _)

end Round

/-! ## The loop over the ring -/

section Rounds

variable {sig : Clsag} {decoys : List OutputPublicData} {pseudoInputCommit : EcPoint}
  {message : Hash} {muP muC c : EcScalar} {items : List (EcScalar × OutputPublicData)}

theorem hashDataVToScalar_lt (keys : List CryptoData) : env.hashDataVToScalar keys < env.order :=
  laws.reduce_lt _

theorem clsagRounds_returns (checked : sig.Checked env)
    (members : ∀ item ∈ items, item.1 < env.order ∧ item.2.Sound env encode)
    (pseudo : pseudoInputCommit ∈ Set.range encode)
    (operands : ClsagOperands env sig pseudoInputCommit c items) :
    ∃ result, (env.clsagRounds sig decoys pseudoInputCommit message muP muC c items).Returns
      result := by
  induction items generalizing c with
  | nil => exact ⟨some c, .pure _⟩
  | cons item rest ih =>
    have member := members _ mem_cons_self
    have round := ((clsagOperands_cons Nat.one_ne_zero).mp operands).1
    obtain ⟨keys, returned⟩ := clsagRound_returns laws checked member.2 pseudo member.1 round
    by_cases zero : env.hashDataVToScalar keys = 0
    · refine ⟨none, returned.bind ?_⟩
      rw [if_pos zero]
      exact .pure _
    · obtain ⟨result, others⟩ :=
        ih (fun item listed => members item (mem_cons_of_mem _ listed))
          ((clsagOperands_cons zero).mp operands).2
      refine ⟨result, returned.bind ?_⟩
      rw [if_neg zero]
      exact others

variable (nonzeroHash : ∀ keys, env.hashDataVToScalar keys ≠ 0)

include nonzeroHash

theorem clsagRounds_fails (checked : sig.Checked env)
    (members : ∀ item ∈ items, item.1 < env.order ∧ item.2.Sound env encode)
    (pseudo : pseudoInputCommit ∈ Set.range encode) (muPNonzero : muP ≠ 0)
    (muPReduced : muP < env.order) (muCNonzero : muC ≠ 0) (muCReduced : muC < env.order)
    (reduced : c < env.order) (refused : ¬ ClsagOperands env sig pseudoInputCommit c items) :
    (env.clsagRounds sig decoys pseudoInputCommit message muP muC c items).Fails := by
  induction items generalizing c with
  | nil => exact absurd ⟨by simp, by simp⟩ refused
  | cons item rest ih =>
    obtain ⟨s, decoy⟩ := item
    have member := members _ mem_cons_self
    by_cases round : RoundOperands env sig pseudoInputCommit c s decoy
    · obtain ⟨keys, returned⟩ := clsagRound_returns laws checked member.2 pseudo member.1 round
      apply Fails.after_returns returned
      rw [if_neg (nonzeroHash keys)]
      apply ih (fun item listed => members item (mem_cons_of_mem _ listed))
        (hashDataVToScalar_lt laws keys)
      intro operands
      exact refused ((clsagOperands_cons (nonzeroHash keys)).mpr ⟨round, operands⟩)
    · exact (clsagRound_fails laws member.2 pseudo muPNonzero muPReduced muCNonzero muCReduced
        reduced round).bind fun next =>
          .ite (.pure _) (env.clsagRounds_counts _ _ _ _ _ _ _ _)

/-- With two members or more, a key image that is refused fails the second round. -/
theorem clsagRounds_fails_of_keyImage (muPNonzero : muP ≠ 0) (muPReduced : muP < env.order)
    (invalid : env.isValidPoint sig.signerKeyImage = false) (more : 2 ≤ items.length) :
    (env.clsagRounds sig decoys pseudoInputCommit message muP muC c items).Fails := by
  match items with
  | [] => cases more
  | [_] => exact absurd more (by simp)
  | first :: second :: rest =>
    apply Fails.after_yields (env.clsagRound_counts _ _ _ _ _ _ _ _ _)
      (env.clsagRound_yields _ _ _ _ _ _ _ _ _)
    rintro next ⟨keys, rfl⟩
    rw [if_neg (nonzeroHash keys)]
    exact (clsagRound_fails_of_keyImage laws muPNonzero muPReduced (nonzeroHash keys)
      (hashDataVToScalar_lt laws keys) invalid).bind fun next =>
        .ite (.pure _) (env.clsagRounds_counts _ _ _ _ _ _ _ _)

end Rounds

/-! ## The signature -/

section Signature

variable {sig : Clsag} {decoys : List OutputPublicData} {pseudoInputCommit : EcPoint}

theorem hashClsagDataWithKey_returns (checked : sig.Checked env) (hashKey : String) :
    ∃ keys, (env.hashClsagDataWithKey sig pseudoInputCommit decoys hashKey).Returns
      (env.hashDataVToScalar keys) := by
  obtain ⟨inverted, -, multiplied⟩ := laws.mult_returns laws.invEight.1 fun _ => checked.surplus
  exact ⟨_, multiplied.bind (.pure _)⟩

omit [AddCommGroup Γ] laws in
theorem zip_members (checked : sig.Checked env)
    (ring : ∀ decoy ∈ decoys, decoy.Sound env encode) :
    ∀ item ∈ sig.s.zip decoys, item.1 < env.order ∧ item.2.Sound env encode := by
  intro item member
  obtain ⟨s, decoy⟩ := item
  exact ⟨checked.s s (of_mem_zip member).1, ring decoy (of_mem_zip member).2⟩

/-- The operands of the multiplications of `verify_clsag_signature` are accepted, or there are
none since the sizes are wrong. -/
def SignatureOperands (env : Env) (sig : Clsag) (decoys : List OutputPublicData)
    (pseudoInputCommit : EcPoint) : Prop :=
  decoys = [] ∨ decoys.length ≠ sig.s.length ∨
    ClsagOperands env sig pseudoInputCommit sig.c1 (sig.s.zip decoys)

omit laws in
theorem verifyClsagSignature_of_missized (message : Hash)
    (missized : decoys = [] ∨ decoys.length ≠ sig.s.length) :
    env.verifyClsagSignature message sig decoys pseudoInputCommit = pure false := by
  unfold verifyClsagSignature
  by_cases empty : decoys = []
  · rw [if_pos (by simp [empty])]
  · rw [if_neg (Nat.not_lt.mpr (length_pos_iff.mpr empty)), if_pos (missized.resolve_left empty)]

omit laws in
theorem verifyClsagSignature_of_sized (message : Hash) (nonempty : decoys ≠ [])
    (sizes : decoys.length = sig.s.length) :
    env.verifyClsagSignature message sig decoys pseudoInputCommit = (do
      let muP ← env.hashClsagDataWithKey sig pseudoInputCommit decoys "CLSAG_agg_0"
      let muC ← env.hashClsagDataWithKey sig pseudoInputCommit decoys "CLSAG_agg_1"
      let c ← env.clsagRounds sig decoys pseudoInputCommit message muP muC sig.c1
        (sig.s.zip decoys)
      return decide (c = some sig.c1)) := by
  unfold verifyClsagSignature
  rw [if_neg (Nat.not_lt.mpr (length_pos_iff.mpr nonempty)), if_neg (not_not.mpr sizes)]

theorem verifyClsagSignature_returns (message : Hash) (checked : sig.Checked env)
    (ring : ∀ decoy ∈ decoys, decoy.Sound env encode)
    (pseudo : pseudoInputCommit ∈ Set.range encode)
    (operands : SignatureOperands env sig decoys pseudoInputCommit) :
    ∃ verified, (env.verifyClsagSignature message sig decoys pseudoInputCommit).Returns
      verified := by
  by_cases missized : decoys = [] ∨ decoys.length ≠ sig.s.length
  · rw [verifyClsagSignature_of_missized message missized]
    exact ⟨false, .pure _⟩
  · obtain ⟨nonempty, sizes⟩ := not_or.mp missized
    rw [verifyClsagSignature_of_sized message nonempty (not_not.mp sizes)]
    obtain ⟨keysP, returnedP⟩ := hashClsagDataWithKey_returns laws checked "CLSAG_agg_0"
    obtain ⟨keysC, returnedC⟩ := hashClsagDataWithKey_returns laws checked "CLSAG_agg_1"
    obtain ⟨result, rounds⟩ :=
      clsagRounds_returns laws checked (zip_members checked ring) pseudo
        ((operands.resolve_left nonempty).resolve_left sizes)
    exact ⟨_, returnedP.bind (returnedC.bind (rounds.bind (.pure _)))⟩

variable (nonzeroHash : ∀ keys, env.hashDataVToScalar keys ≠ 0)

include nonzeroHash

theorem verifyClsagSignature_fails (message : Hash) (checked : sig.Checked env)
    (ring : ∀ decoy ∈ decoys, decoy.Sound env encode)
    (pseudo : pseudoInputCommit ∈ Set.range encode)
    (refused : ¬ SignatureOperands env sig decoys pseudoInputCommit) :
    (env.verifyClsagSignature message sig decoys pseudoInputCommit).Fails := by
  obtain ⟨nonempty, others⟩ := not_or.mp refused
  obtain ⟨sizes, operands⟩ := not_or.mp others
  rw [verifyClsagSignature_of_sized message nonempty (not_not.mp sizes)]
  obtain ⟨keysP, returnedP⟩ := hashClsagDataWithKey_returns laws checked "CLSAG_agg_0"
  obtain ⟨keysC, returnedC⟩ := hashClsagDataWithKey_returns laws checked "CLSAG_agg_1"
  apply Fails.after_returns returnedP
  apply Fails.after_returns returnedC
  exact (clsagRounds_fails laws nonzeroHash checked (zip_members checked ring) pseudo
    (nonzeroHash keysP) (hashDataVToScalar_lt laws keysP) (nonzeroHash keysC)
    (hashDataVToScalar_lt laws keysC) checked.c1 operands).bind fun _ => .pure _

/-- A key image that is refused makes the verification of every ring of two or more fail,
whatever the ring holds. -/
theorem verifyClsagSignature_fails_of_keyImage (message : Hash)
    (sizes : decoys.length = sig.s.length) (more : 2 ≤ decoys.length)
    (invalid : env.isValidPoint sig.signerKeyImage = false) :
    (env.verifyClsagSignature message sig decoys pseudoInputCommit).Fails := by
  have nonempty : decoys ≠ [] := by
    rintro rfl
    cases more
  rw [verifyClsagSignature_of_sized message nonempty sizes]
  apply Fails.after_yields (env.hashClsagDataWithKey_counts _ _ _ _)
    (env.hashClsagDataWithKey_yields _ _ _ _)
  rintro muP ⟨keys, rfl⟩
  apply Fails.after (env.hashClsagDataWithKey_counts _ _ _ _)
  intro muC
  exact (clsagRounds_fails_of_keyImage laws nonzeroHash (nonzeroHash keys)
    (hashDataVToScalar_lt laws keys) invalid (by simp [← sizes, more])).bind fun _ => .pure _

/-- Verification is defined exactly if its operands are accepted: no call fails and the verdict
does not depend on uninitialised memory. -/
theorem verifyClsagSignature_defined_iff (message : Hash) (checked : sig.Checked env)
    (ring : ∀ decoy ∈ decoys, decoy.Sound env encode)
    (pseudo : pseudoInputCommit ∈ Set.range encode) :
    ((∀ uninit, (env.verifyClsagSignature message sig decoys pseudoInputCommit).failures
        uninit = 0) ∧
      ∀ uninit other, (env.verifyClsagSignature message sig decoys pseudoInputCommit).value
        uninit = (env.verifyClsagSignature message sig decoys pseudoInputCommit).value other) ↔
      SignatureOperands env sig decoys pseudoInputCommit := by
  constructor
  · rintro ⟨clean, -⟩
    by_contra refused
    have failed := verifyClsagSignature_fails laws nonzeroHash message checked ring pseudo refused
    exact failed.failures_ne_zero (fun _ => identity) (clean _)
  · intro operands
    obtain ⟨verified, returned⟩ :=
      verifyClsagSignature_returns laws message checked ring pseudo operands
    refine ⟨returned.failures_eq, fun uninit other => ?_⟩
    rw [returned.value_eq, returned.value_eq]

end Signature

end Env

end Memero
