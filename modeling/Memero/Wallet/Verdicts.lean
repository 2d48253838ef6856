import Memero.Basic.RoundTrip
import Memero.Wallet.Process

/-!
# What the scan says of each output

The scan of a transaction, output by output: an output is somebody else's, fails although it is the
wallet's own, or is accepted. The vector of scan results has no entry for an output that fails, so
an entry stands at the position of its output only as long as none has failed.
-/

namespace Memero

open List Nat Option WalletSetup

/-- What the scan says of an output, with the entry that it leaves in the vector of results. -/
inductive Verdict where
  | foreign (info : TxScanInfo)
  | failed
  | accepted (info : TxScanInfo)
  deriving DecidableEq, Repr

namespace Verdict

/-- The entry in the vector of results. -/
def scanInfo? : Verdict → Option TxScanInfo
  | foreign info => some info
  | failed => none
  | accepted info => some info

/-- The result for an output that is accepted. -/
def accepted? : Verdict → Option TxScanInfo
  | foreign _ => none
  | failed => none
  | accepted info => some info

variable {verdict : Verdict}

theorem accepted?_eq_some {info : TxScanInfo} :
    verdict.accepted? = some info ↔ verdict = accepted info := by
  cases verdict <;> simp [accepted?]

theorem scanInfo?_eq_none : verdict.scanInfo? = none ↔ verdict = failed := by
  cases verdict <;> simp [scanInfo?]

end Verdict

/-- The outputs that are accepted, with their positions from `i` on. -/
def acceptedFrom : Nat → List Verdict → List (Nat × TxScanInfo)
  | _, [] => []
  | i, verdict :: rest =>
    ((verdict.accepted?).map fun info => (i, info)).toList ++ acceptedFrom (i + 1) rest

/-- No output of the wallet fails ahead of one that is accepted. -/
def Aligned (verdicts : List Verdict) : Prop :=
  ∀ before after : List Verdict, verdicts = before ++ after → .failed ∈ before →
    ∀ verdict ∈ after, verdict.accepted? = none

namespace WalletSetup

variable (setup : WalletSetup)

/-- What the scan says of the output `i`: the result of `scan_output` for that position. -/
def verdict (memory : Nat → ScanMemory) (subaddresses : Table EcPoint SubaddressIndex)
    (tx : Transaction) (minerTx : Bool) (i : Nat) (out : TxOut) (ecdhKey : EcPoint) :
    Except WalletError Verdict :=
  let secret := (setup.env.deriveTxOutputEcdhSharedSecret ecdhKey setup.keys.viewSecretKey).value
    (memory i).calls
  let checkInfo := setup.scanOutputForSubaddresses (memory i) out secret i subaddresses
  match checkInfo.received with
  | none => .ok (.foreign checkInfo)
  | some _ =>
    (setup.scanOutput (memory i) tx minerTx i checkInfo []).map fun info =>
      if info.error then .failed else .accepted info

/-- What the scan says of the outputs from `i` on. -/
def verdictsFrom (memory : Nat → ScanMemory) (subaddresses : Table EcPoint SubaddressIndex)
    (tx : Transaction) (minerTx : Bool) : Nat → List (TxOut × EcPoint) →
    Except WalletError (List Verdict)
  | _, [] => .ok []
  | i, (out, ecdhKey) :: rest => do
      let first ← setup.verdict memory subaddresses tx minerTx i out ecdhKey
      let others ← verdictsFrom memory subaddresses tx minerTx (i + 1) rest
      return first :: others

/-- What the scan says of the outputs of a transaction. -/
def verdicts (memory : Nat → ScanMemory) (subaddresses : Table EcPoint SubaddressIndex)
    (tx : Transaction) (height : Nat) (minerTx : Bool) : Except WalletError (List Verdict) :=
  if txLockedTooFarAway tx height then
    .ok []
  else
    match setup.env.getAllOutputEcdhPublicKeysFromExtra tx.extra tx.vout.length with
    | none => .ok []
    | some ecdhKeys =>
      setup.verdictsFrom memory subaddresses tx minerTx 0 (tx.vout.zip ecdhKeys)

end WalletSetup

namespace ScannedOutputs

/-- The body of the loop over the outputs, once the output `i` has been looked at. -/
def take (scanned : ScannedOutputs) (i : Nat) : Verdict → Except WalletError ScannedOutputs
  | .foreign info => .ok { scanned with infos := scanned.infos ++ [info] }
  | .failed => .ok scanned
  | .accepted info =>
    match info.received with
    | none => .error .undefined
    | some received => scanned.accept i info received.index

/-- The loop over the outputs from `i` on. -/
def collect : Nat → List Verdict → ScannedOutputs → Except WalletError ScannedOutputs
  | _, [], scanned => .ok scanned
  | i, verdict :: rest, scanned => do
      let scanned ← scanned.take i verdict
      collect (i + 1) rest scanned

variable {scanned final : ScannedOutputs} {i : Nat}

theorem accept_outs {info : TxScanInfo} {index : SubaddressIndex}
    (taken : scanned.accept i info index = .ok final) :
    final.outs = scanned.outs ++ [i] ∧ final.infos = scanned.infos ++ [info] := by
  unfold accept at taken
  dsimp only at taken
  split at taken
  · cases taken
  · cases taken
    exact ⟨rfl, rfl⟩

theorem take_outs {verdict : Verdict} (taken : scanned.take i verdict = .ok final) :
    final.outs = scanned.outs ++ ((verdict.accepted?).map fun _ => i).toList ∧
      final.infos = scanned.infos ++ verdict.scanInfo?.toList := by
  cases verdict with
  | foreign info =>
    cases taken
    exact ⟨(append_nil _).symm, rfl⟩
  | failed =>
    cases taken
    exact ⟨(append_nil _).symm, (append_nil _).symm⟩
  | accepted info =>
    rw [take] at taken
    split at taken
    · cases taken
    · exact accept_outs taken

/-- The positions of what is accepted, and the entries of what does not fail. -/
theorem collect_outs {verdicts : List Verdict}
    (collected : collect i verdicts scanned = .ok final) :
    final.outs = scanned.outs ++ (acceptedFrom i verdicts).map Prod.fst ∧
      final.infos = scanned.infos ++ verdicts.filterMap Verdict.scanInfo? := by
  induction verdicts generalizing i scanned with
  | nil =>
    cases collected
    exact ⟨(append_nil _).symm, (append_nil _).symm⟩
  | cons verdict rest ih =>
    obtain ⟨middle, taken, later⟩ := except_bind_eq_ok.mp collected
    obtain ⟨outs, infos⟩ := take_outs taken
    obtain ⟨laterOuts, laterInfos⟩ := ih later
    rw [laterOuts, laterInfos, outs, infos, acceptedFrom]
    constructor
    · cases verdict <;> simp [Verdict.accepted?]
    · cases verdict <;> simp [Verdict.scanInfo?, filterMap_cons]

end ScannedOutputs

namespace WalletSetup

variable (setup : WalletSetup) {memory : Nat → ScanMemory}
  {subaddresses : Table EcPoint SubaddressIndex} {tx : Transaction} {minerTx : Bool}

theorem openAmount_received (memory : ScanMemory) (i : Nat) (info : TxScanInfo)
    (secret : EcPoint) :
    (setup.openAmount memory tx minerTx i info secret).received = info.received := by
  unfold openAmount
  split
  · split
    · rfl
    · rfl
  · rfl

variable {i : Nat} {outs : List Nat} {scanned final : ScannedOutputs}

theorem scanOutput_received {memory : ScanMemory} {infoIn info : TxScanInfo}
    (scanned : setup.scanOutput memory tx minerTx i infoIn outs = .ok info) :
    info.received = infoIn.received := by
  unfold scanOutput at scanned
  split at scanned
  · cases scanned
  · cases scanned
  · split at scanned
    · cases scanned
    · split at scanned
      · cases scanned
      · split at scanned
        · cases scanned
        · dsimp only at scanned
          split at scanned
          · cases scanned
            exact setup.openAmount_received _ _ _ _
          · split at scanned
            · cases scanned
              exact setup.openAmount_received _ _ _ _
            · cases scanned
              exact setup.openAmount_received _ _ _ _

theorem scanOutput_fresh (memory : ScanMemory) (infoIn : TxScanInfo) (fresh : i ∉ outs) :
    setup.scanOutput memory tx minerTx i infoIn outs =
      setup.scanOutput memory tx minerTx i infoIn [] := by
  unfold scanOutput
  simp only [if_neg fresh, if_neg (not_mem_nil : i ∉ ([] : List Nat))]

/-- The body of the loop looks at the output and takes what it says. -/
theorem scanStep_eq (memory : Nat → ScanMemory) (subaddresses : Table EcPoint SubaddressIndex)
    (fresh : i ∉ scanned.outs) (out : TxOut) (ecdhKey : EcPoint) :
    setup.scanStep memory subaddresses tx minerTx scanned i out ecdhKey =
      setup.verdict memory subaddresses tx minerTx i out ecdhKey >>= scanned.take i := by
  unfold scanStep verdict
  dsimp only
  set checkInfo := setup.scanOutputForSubaddresses (memory i) out
    ((setup.env.deriveTxOutputEcdhSharedSecret ecdhKey setup.keys.viewSecretKey).value
      (memory i).calls) i subaddresses
  have unset : checkInfo.error = false := rfl
  cases check : checkInfo.received with
  | none => rfl
  | some received =>
    rw [setup.scanOutput_fresh _ _ fresh]
    cases result : setup.scanOutput (memory i) tx minerTx i checkInfo [] with
    | error error => rfl
    | ok info =>
      have kept := (setup.scanOutput_received result).trans check
      change (if info.error = true then _ else _) = ScannedOutputs.take _ _ (if _ then _ else _)
      split
      · rfl
      · rw [ScannedOutputs.take, kept]

/-- The loop over the outputs succeeds if each can be looked at and all can be collected. -/
theorem scanLoop_eq_ok {items : List (TxOut × EcPoint)} (earlier : ∀ o ∈ scanned.outs, o < i) :
    setup.scanLoop memory subaddresses tx minerTx i items scanned = .ok final ↔
      ∃ verdicts, setup.verdictsFrom memory subaddresses tx minerTx i items = .ok verdicts ∧
        ScannedOutputs.collect i verdicts scanned = .ok final := by
  induction items generalizing i scanned with
  | nil =>
    constructor
    · intro done
      exact ⟨[], rfl, done⟩
    · rintro ⟨verdicts, none, done⟩
      cases none
      exact done
  | cons item rest ih =>
    have fresh : i ∉ scanned.outs := fun member => lt_irrefl i (earlier i member)
    have later : ∀ {verdict middle}, scanned.take i verdict = .ok middle →
        ∀ o ∈ middle.outs, o < i + 1 := by
      intro verdict middle taken o member
      rw [(ScannedOutputs.take_outs taken).1, mem_append] at member
      rcases member with old | new
      · exact lt_succ_of_lt (earlier o old)
      · rw [mem_toList, map_eq_some_iff] at new
        obtain ⟨info, -, rfl⟩ := new
        exact lt_succ_self i
    simp only [scanLoop, verdictsFrom, setup.scanStep_eq memory subaddresses fresh,
      except_bind_eq_ok]
    constructor
    · rintro ⟨middle, ⟨verdict, looked, taken⟩, looped⟩
      obtain ⟨verdicts, others, collected⟩ := (ih (later taken)).mp looped
      refine ⟨verdict :: verdicts, ⟨verdict, looked, verdicts, others, rfl⟩, ?_⟩
      rw [ScannedOutputs.collect, except_bind_eq_ok]
      exact ⟨middle, taken, collected⟩
    · rintro ⟨_, ⟨verdict, looked, verdicts, others, same⟩, collected⟩
      cases same
      rw [ScannedOutputs.collect, except_bind_eq_ok] at collected
      obtain ⟨middle, taken, collected⟩ := collected
      exact ⟨middle, ⟨verdict, looked, taken⟩, (ih (later taken)).mpr ⟨verdicts, others, collected⟩⟩

/-- The scan of a transaction, in terms of what it says of each output. -/
theorem scanOutputs_eq_ok {height : Nat} :
    setup.scanOutputs memory subaddresses tx height minerTx = .ok final ↔
      ∃ verdicts, setup.verdicts memory subaddresses tx height minerTx = .ok verdicts ∧
        ScannedOutputs.collect 0 verdicts .empty = .ok final := by
  have nothing : (Except.ok .empty : Except WalletError ScannedOutputs) = .ok final ↔
      ∃ verdicts : List Verdict, (Except.ok [] : Except WalletError _) = .ok verdicts ∧
        ScannedOutputs.collect 0 verdicts .empty = .ok final := by
    constructor
    · intro done
      exact ⟨[], rfl, done⟩
    · rintro ⟨verdicts, none, done⟩
      cases none
      exact done
  unfold scanOutputs verdicts
  split
  · exact nothing
  · cases setup.env.getAllOutputEcdhPublicKeysFromExtra tx.extra tx.vout.length with
    | none => exact nothing
    | some ecdhKeys => exact setup.scanLoop_eq_ok fun o member => absurd member not_mem_nil

end WalletSetup

/-! ## What is accepted -/

/-- The assumptions on the library, as far as the key images of outputs depend on them. -/
structure WalletSetup.Honest {Γ : Type} [AddCommGroup Γ] (setup : WalletSetup)
    (encode : Γ → EcPoint) : Prop where
  laws : setup.env.toSodium.Laws encode
  generates : setup.env.isValidPoint (setup.env.scalarmultBaseNoclamp 1) = true
  hashed : ∀ key, setup.env.isValidPoint (setup.env.hashToPointViaField key) = true

/-- The key image that goes with a public key. -/
def WalletSetup.KeyImageOf (setup : WalletSetup) (pub : EcPoint) (ki : KeyImage) : Prop :=
  ∃ sec, sec < setup.env.order ∧ setup.env.toPk sec = pub ∧ (setup.env.deriveKeyImage sec).Returns ki

namespace WalletSetup.Honest

variable {Γ : Type} [AddCommGroup Γ] {setup : WalletSetup} {encode : Γ → EcPoint}
  (honest : setup.Honest encode)

include honest

variable {ki : KeyImage}

theorem keyImageOf_unique {pub : EcPoint} {other : KeyImage} (first : setup.KeyImageOf pub ki)
    (second : setup.KeyImageOf pub other) : ki = other := by
  obtain ⟨sec, small, isPub, image⟩ := first
  obtain ⟨sec', small', isPub', image'⟩ := second
  obtain ⟨g, base⟩ := honest.laws.base
  have generates : g ≠ 0 := by
    have valid := honest.generates
    rwa [base 1 honest.laws.prime.one_lt, honest.laws.valid_encode, one_nsmul] at valid
  have same : sec • g = sec' • g := honest.laws.injective
    ((base sec small).symm.trans ((isPub.trans isPub'.symm).trans (base sec' small')))
  rw [(honest.laws.nsmul_left_inj generates small small').mp same] at image
  exact image.unique image'

theorem deriveOutputKeyPairAndKeyImage_value {outKey secret : EcPoint} {i : Nat}
    {index : SubaddressIndex} {uninit : Uninit} {keyPair : Keypair}
    (derived : (setup.env.deriveOutputKeyPairAndKeyImage setup.sha3 setup.keys outKey secret i index).value uninit = some (keyPair, ki)) :
    setup.KeyImageOf keyPair.pub ki := by
  unfold Sodium.deriveOutputKeyPairAndKeyImage at derived
  dsimp only at derived
  set sec := setup.env.computeOutputSecretKeyFromSubaddressSpendSk setup.sha3 secret i
    (setup.env.getSubaddressSpendSecretKey setup.sha3 setup.keys index)
  have small : sec < setup.env.order := honest.laws.addScalars_lt _ _
  obtain ⟨image, -, returns⟩ := honest.laws.mult_returns small fun _ =>
    honest.hashed (setup.env.toPk sec)
  split at derived
  · cases derived
  · have found : PointM.Returns (setup.env.deriveKeyImage sec >>= fun ki =>
        pure (some (Keypair.mk sec (setup.env.toPk sec), ki)))
        (some (Keypair.mk sec (setup.env.toPk sec), image)) := returns.bind (.pure _)
    have same := derived.symm.trans (found.value_eq uninit)
    cases same
    exact ⟨sec, small, rfl, returns⟩

end WalletSetup.Honest

/-- What is known of an output that was accepted. -/
structure TxScanInfo.Accepted (setup : WalletSetup) (out : TxOut) (info : TxScanInfo) : Prop where
  received : info.received ≠ none
  pub : info.outputKeyPair.pub = out.outputPublicKey
  image : setup.KeyImageOf info.outputKeyPair.pub info.ki
  money : info.moneyTransfered = info.amount
  positive : 0 < info.amount
  amount : out.amount ≠ 0 → info.amount = out.amount
  fits : info.amount < 2 ^ 64

section Accepted

variable {Γ : Type} [AddCommGroup Γ] {setup : WalletSetup} {encode : Γ → EcPoint}
  {subaddresses : Table EcPoint SubaddressIndex} {tx : Transaction} {minerTx : Bool} {i : Nat}
  {out : TxOut} {ecdhKey : EcPoint}
variable {memory : ScanMemory} {verdicts : List Verdict}

theorem decodeRct_lt {rv : RctData} (range : rv.InRange) {secret : EcPoint} {amount : Nat}
    {mask : EcScalar} (decoded : setup.decodeRct memory rv secret i = some (amount, mask)) :
    amount < 2 ^ 64 := by
  unfold decodeRct at decoded
  split at decoded
  · cases decoded
  · rename_i checked sized
    have data : checked.ecdhEncryptedData = rv.ecdhEncryptedData := by
      unfold maybeSizeCheckedRctData at sized
      split at sized
      · cases sized
      · split at sized
        · split at sized
          · cases sized
          · split at sized
            · cases sized
            · cases sized
              rfl
        · cases sized
    have yields : (setup.env.decodeRingctCommitment setup.sha3 checked
        (setup.env.hashTxOutputSharedSecretToScalar setup.sha3 secret i) i).Yields
        fun result => result.1 < 2 ^ 64 := by
      unfold Env.decodeRingctCommitment
      rw [data]
      split
      · rename_i maskedAmount C found isCommit
        refine .bind (.trivial _) fun point _ => .bind (.trivial _) fun _ _ => .pure ?_
        exact xor_lt_two_pow (range.ecdhEncryptedData _ (mem_of_getElem? found))
          (mod_lt _ (by decide))
      · exact .failure
    exact yields memory.calls 0 (amount, mask) decoded

theorem openAmount_money (memory : ScanMemory) (range : tx.ringct.InRange) (minerTx : Bool)
    (i : Nat) (info : TxScanInfo) (fits : info.moneyTransfered < 2 ^ 64) (secret : EcPoint) :
    (setup.openAmount memory tx minerTx i info secret).moneyTransfered < 2 ^ 64 ∧
      (info.moneyTransfered ≠ 0 → (setup.openAmount memory tx minerTx i info secret).moneyTransfered =
        info.moneyTransfered) ∧
      (setup.openAmount memory tx minerTx i info secret).outputKeyPair = info.outputKeyPair ∧
      (setup.openAmount memory tx minerTx i info secret).ki = info.ki := by
  unfold openAmount
  split
  · rename_i hidden
    split
    · exact ⟨fits, fun _ => rfl, rfl, rfl⟩
    · rename_i amount mask decoded
      exact ⟨decodeRct_lt range decoded, fun shown => absurd hidden.1 shown, rfl, rfl⟩
  · exact ⟨fits, fun _ => rfl, rfl, rfl⟩

/-- An output of the wallet that `scan_output` finds no fault with. -/
theorem scanOutput_accepted (honest : setup.Honest encode) (range : tx.InRange)
    (found : tx.vout[i]? = some out) {infoIn info : TxScanInfo}
    (shown : infoIn.moneyTransfered = out.amount)
    (scanned : setup.scanOutput memory tx minerTx i infoIn [] = .ok info)
    (clean : info.error = false) : info.Accepted setup out := by
  have received := setup.scanOutput_received scanned
  unfold scanOutput at scanned
  rw [found] at scanned
  cases owner : infoIn.received with
  | none =>
    rw [owner] at scanned
    cases scanned
  | some subaddress =>
    rw [owner] at scanned received
    dsimp only at scanned
    split at scanned
    · cases scanned
    · rename_i keyPair ki derived
      rw [if_neg (not_mem_nil : i ∉ ([] : List Nat))] at scanned
      split at scanned
      · cases scanned
      · rename_i same
        have outRange := range.txPrefix.vout _ (mem_of_getElem? found)
        obtain ⟨fits, kept, keys, image⟩ := openAmount_money memory range.ringct minerTx i
          { infoIn with outputKeyPair := keyPair, ki := ki, received := some subaddress }
          (shown ▸ outRange.1) subaddress.txOutputSharedSecret
        split at scanned
        · rename_i error
          cases scanned
          rw [clean] at error
          cases error
        · split at scanned
          · cases scanned
            cases clean
          · rename_i nonzero
            cases scanned
            refine ⟨?_, ?_, ?_, rfl, pos_of_ne_zero nonzero, ?_, fits⟩
            · rw [received]
              exact some_ne_none _
            · exact (congrArg Keypair.pub keys).trans (not_not.mp same)
            · exact keys ▸ image ▸ honest.deriveOutputKeyPairAndKeyImage_value derived
            · intro positive
              exact (kept (shown ▸ positive)).trans shown

variable {memory : Nat → ScanMemory}

theorem verdict_foreign {info : TxScanInfo}
    (looked : setup.verdict memory subaddresses tx minerTx i out ecdhKey = .ok (.foreign info)) :
    info.received = none := by
  unfold verdict at looked
  dsimp only at looked
  split at looked
  · rename_i none
    cases looked
    exact none
  · rename_i received some
    obtain ⟨scanned, -, same⟩ := except_map_eq_ok.mp looked
    split at same <;> cases same

theorem verdict_accepted (honest : setup.Honest encode) (range : tx.InRange)
    (found : tx.vout[i]? = some out) {info : TxScanInfo}
    (looked : setup.verdict memory subaddresses tx minerTx i out ecdhKey = .ok (.accepted info)) :
    info.Accepted setup out := by
  unfold verdict at looked
  dsimp only at looked
  split at looked
  · cases looked
  · rename_i received isReceived
    obtain ⟨scanned, result, same⟩ := except_map_eq_ok.mp looked
    split at same
    · cases same
    · rename_i clean
      cases same
      refine scanOutput_accepted honest range found ?_ result (Bool.eq_false_iff.mpr clean)
      -- the amount of an output that was received is the public one
      unfold scanOutputForSubaddresses at isReceived ⊢
      dsimp only at isReceived ⊢
      rw [isReceived]
      rfl

theorem verdictsFrom_facts (honest : setup.Honest encode) (range : tx.InRange)
    {items : List (TxOut × EcPoint)}
    (outputs : ∀ k out key, items[k]? = some (out, key) → tx.vout[i + k]? = some out)
    (looked : setup.verdictsFrom memory subaddresses tx minerTx i items = .ok verdicts) :
    (∀ info, .foreign info ∈ verdicts → info.received = none) ∧
      ∀ o info, (o, info) ∈ acceptedFrom i verdicts →
        ∃ out, tx.vout[o]? = some out ∧ info.Accepted setup out := by
  induction items generalizing i verdicts with
  | nil =>
    cases looked
    exact ⟨fun _ member => (nomatch member), fun _ _ member => (nomatch member)⟩
  | cons item rest ih =>
    obtain ⟨first, isFirst, looked⟩ := except_bind_eq_ok.mp looked
    obtain ⟨others, areOthers, same⟩ := except_bind_eq_ok.mp looked
    cases same
    have found : tx.vout[i]? = some item.1 := outputs 0 item.1 item.2 rfl
    obtain ⟨foreign, accepted⟩ := ih (fun k out key member => by
      rw [add_assoc, add_comm 1]
      exact outputs (k + 1) out key member) areOthers
    constructor
    · intro info member
      rcases mem_cons.mp member with rfl | later
      · exact verdict_foreign isFirst
      · exact foreign info later
    · intro o info member
      rw [acceptedFrom, mem_append] at member
      rcases member with here | later
      · rw [mem_toList, map_eq_some_iff] at here
        obtain ⟨other, isAccepted, same⟩ := here
        cases same
        rw [Verdict.accepted?_eq_some.mp isAccepted] at isFirst
        exact ⟨item.1, found, verdict_accepted honest range found isFirst⟩
      · exact accepted o info later

theorem verdicts_facts (honest : setup.Honest encode) (range : tx.InRange) {height : Nat}
    (looked : setup.verdicts memory subaddresses tx height minerTx = .ok verdicts) :
    (∀ info, .foreign info ∈ verdicts → info.received = none) ∧
      ∀ o info, (o, info) ∈ acceptedFrom 0 verdicts →
        ∃ out, tx.vout[o]? = some out ∧ info.Accepted setup out := by
  have nothing : ∀ verdicts : List Verdict, (Except.ok [] : Except WalletError _) = .ok verdicts →
      (∀ info, .foreign info ∈ verdicts → info.received = none) ∧
        ∀ o info, (o, info) ∈ acceptedFrom 0 verdicts →
          ∃ out, tx.vout[o]? = some out ∧ info.Accepted setup out := by
    rintro verdicts same
    cases same
    exact ⟨fun _ member => (nomatch member), fun _ _ member => (nomatch member)⟩
  unfold WalletSetup.verdicts at looked
  split at looked
  · exact nothing _ looked
  · split at looked
    · exact nothing _ looked
    · refine verdictsFrom_facts honest range (fun k out key member => ?_) looked
      rw [getElem?_zip_eq_some] at member
      rw [zero_add]
      exact member.1

end Accepted

/-! ## Alignment -/

theorem acceptedFrom_append (i : Nat) (before after : List Verdict) :
    acceptedFrom i (before ++ after) =
      acceptedFrom i before ++ acceptedFrom (i + before.length) after := by
  induction before generalizing i with
  | nil => rfl
  | cons verdict rest ih =>
    rw [cons_append, acceptedFrom, acceptedFrom, ih, append_assoc, length_cons,
      add_right_comm, add_assoc]

variable {verdicts : List Verdict} {info : TxScanInfo}

theorem acceptedFrom_eq_nil {i : Nat} :
    acceptedFrom i verdicts = [] ↔ ∀ verdict ∈ verdicts, verdict.accepted? = none := by
  induction verdicts generalizing i with
  | nil => simp [acceptedFrom]
  | cons verdict rest ih => simp [acceptedFrom, ih]

/-- What is accepted at a position. -/
theorem mem_acceptedFrom {i o : Nat} (member : (o, info) ∈ acceptedFrom i verdicts) :
    ∃ before after, verdicts = before ++ .accepted info :: after ∧ o = i + before.length := by
  induction verdicts generalizing i with
  | nil => cases member
  | cons verdict rest ih =>
    rw [acceptedFrom, mem_append] at member
    rcases member with here | later
    · rw [mem_toList, map_eq_some_iff] at here
      obtain ⟨other, accepted, same⟩ := here
      cases same
      rw [Verdict.accepted?_eq_some.mp accepted]
      exact ⟨[], rest, rfl, rfl⟩
    · obtain ⟨before, after, rfl, position⟩ := ih later
      refine ⟨verdict :: before, after, rfl, ?_⟩
      rw [length_cons]
      omega

/-- Where nothing has failed, the entries stand at the positions of their outputs. -/
theorem length_filterMap_entry :
    (verdicts.filterMap Verdict.scanInfo?).length = verdicts.length ↔ .failed ∉ verdicts := by
  rw [filterMap_length_eq_length]
  constructor
  · intro all member
    cases all _ member
  · intro none verdict member
    cases found : verdict.scanInfo? with
    | none =>
      rw [Verdict.scanInfo?_eq_none.mp found] at member
      exact absurd member none
    | some info => rfl

theorem aligned_entry (aligned : Aligned verdicts) {o : Nat}
    (member : (o, info) ∈ acceptedFrom 0 verdicts) :
    (verdicts.filterMap Verdict.scanInfo?)[o]? = some info := by
  obtain ⟨before, after, rfl, rfl⟩ := mem_acceptedFrom member
  have clean : .failed ∉ before := by
    intro failed
    have refused := aligned before _ rfl failed _ mem_cons_self
    cases refused
  rw [zero_add, filterMap_append, ← length_filterMap_entry.mpr clean,
    List.getElem?_append_right (Nat.le_refl _), Nat.sub_self]
  rfl

theorem aligned_of_none (none : acceptedFrom 0 verdicts = []) : Aligned verdicts := by
  rintro before after rfl - verdict member
  exact acceptedFrom_eq_nil.mp none verdict (mem_append_right _ member)

/-- If something was accepted, there is a last output that was. -/
theorem exists_last_accepted (some : acceptedFrom 0 verdicts ≠ []) :
    ∃ before info after, verdicts = before ++ .accepted info :: after ∧
      ∀ verdict ∈ after, verdict.accepted? = none := by
  induction verdicts using reverseRecOn with
  | nil => exact absurd rfl some
  | append_singleton front last ih =>
    cases isAccepted : last.accepted? with
    | some info =>
      rw [Verdict.accepted?_eq_some.mp isAccepted]
      exact ⟨front, info, [], rfl, fun _ member => absurd member not_mem_nil⟩
    | none =>
      have earlier : acceptedFrom 0 front ≠ [] := by
        intro empty
        rw [acceptedFrom_append, empty, acceptedFrom, isAccepted] at some
        exact some rfl
      obtain ⟨before, info, after, rfl, none⟩ := ih earlier
      refine ⟨before, info, after ++ [last], ?_, ?_⟩
      · rw [append_assoc, cons_append]
      · intro verdict member
        rcases mem_append.mp member with old | new
        · exact none verdict old
        · rwa [mem_singleton.mp new]

variable {before after : List Verdict}

/-- An entry that stands at the position of the last accepted output and was received: nothing
failed ahead of that output. -/
theorem clean_of_entry {entry : TxScanInfo} (none : ∀ verdict ∈ after, verdict.accepted? = .none)
    (foreign : ∀ other, .foreign other ∈ after → other.received = .none)
    (found : ((before ++ .accepted info :: after).filterMap Verdict.scanInfo?)[before.length]? = some entry)
    (received : entry.received ≠ .none) : .failed ∉ before := by
  by_contra failed
  have shorter : (before.filterMap Verdict.scanInfo?).length < before.length :=
    lt_of_le_of_ne (length_filterMap_le _ _) (mt length_filterMap_entry.mp (not_not.mpr failed))
  rw [filterMap_append, getElem?_append_right (le_of_lt shorter),
    filterMap_cons_some (show (Verdict.accepted info).scanInfo? = some info from rfl)] at found
  obtain ⟨k, position⟩ := exists_eq_succ_of_ne_zero (sub_ne_zero_of_lt shorter)
  rw [position] at found
  obtain ⟨verdict, member, isEntry⟩ := mem_filterMap.mp (mem_of_getElem? found)
  cases verdict with
  | accepted other => cases none _ member
  | failed => cases isEntry
  | foreign other =>
    cases isEntry
    exact received (foreign _ member)

/-- Nothing failed ahead of the last output that was accepted. -/
theorem aligned_of_clean (none : ∀ verdict ∈ after, verdict.accepted? = .none)
    (clean : .failed ∉ before) : Aligned (before ++ .accepted info :: after) := by
  intro first second split failed verdict member
  rw [append_eq_append_iff] at split
  rcases split with ⟨middle, rfl, rest⟩ | ⟨middle, rfl, rest⟩
  · cases middle with
    | nil =>
      rw [append_nil] at failed
      exact absurd failed clean
    | cons head tail =>
      obtain ⟨-, rfl⟩ := cons.inj rest
      exact none verdict (mem_append_right _ member)
  · exact absurd (mem_append_left _ failed) clean

end Memero
