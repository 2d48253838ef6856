import Memero.Wallet.Accounting

/-!
# Attribution of outputs

What `process_new_transaction` records for the outputs of a transaction. The results of the scan are
looked up by the position of the output, so each output gets its own exactly if no output of the
wallet has failed ahead of one that is accepted. In that case the function returns; otherwise the
last accepted output finds the entry of somebody else's, or none at all.
-/

namespace Memero

open List Option WalletM WalletSetup Prod Wallet

open Exec

open Exec (bind_eq_ok)

/-! ## Rules for the functions of the wallet -/

variable {condition : Prop}
variable {error : InternalError} {w after : Wallet}

theorem WalletM.throwIf_of_not [Decidable condition] (fails : ¬ condition) :
    throwIf condition error = pure () :=
  if_neg fails

theorem WalletM.when_of [Decidable condition] {body : WalletM Unit} (holds : condition) :
    when condition body = body :=
  if_pos holds

theorem WalletM.throwIf_eq_ok [Decidable condition] {value : Unit} :
    (throwIf condition error).run w = (.ok value, after) ↔ ¬ condition ∧ after = w := by
  unfold throwIf
  split
  · rename_i holds
    simp [holds]
  · rename_i fails
    simp [fails, eq_comm]

theorem WalletM.unchecked_eq_ok {α : Type} {value : Option α} {result : α} :
    (unchecked value).run w = (.ok result, after) ↔ value = some result ∧ after = w := by
  cases value with
  | none => simp [unchecked]
  | some value => simp [unchecked, eq_comm]

/-! ## What is recorded -/

/-- The transfer `td` carries what the scan found for the output `o`. The mask is only scanned where
the amount is hidden. -/
structure TxCall.Carries (call : TxCall) (o : Nat) (info : TxScanInfo) (td : TransferDetails) :
    Prop where
  txid : td.txid = call.txid
  tx : td.tx = call.tx.txPrefix
  height : td.blockHeight = call.height
  position : td.internalOutputIndex = o
  pub : td.publicKey? = some info.outputKeyPair.pub
  image : td.outputKeyImage = info.ki
  amount : td.amount = info.amount
  mask : ∀ out, call.tx.vout[o]? = some out → out.amount = 0 → td.mask = info.mask
  index : info.received.map SubaddressReceiveInfo.index = some td.subaddrIndex

/-- One accepted output is recorded: a new public key adds one transfer, a larger output for a known
one overwrites its transfer, and any other output changes nothing. -/
inductive RecordStep (setup : WalletSetup) (call : TxCall) (o : Nat) (info : TxScanInfo) :
    Wallet → Wallet → Prop
  | added {w : Wallet} (td : TransferDetails)
      (unknown : w.pubKeys.find info.outputKeyPair.pub = none) (carries : call.Carries o info td)
      (unspent : td.spent = false ∧ td.spentHeight = 0) (known : td.outputKeyImageKnown = true)
      (whole : td.outputKeyImagePartial = false) :
      RecordStep setup call o info w (w.addTransfer setup td info.outputKeyPair.pub)
  | ignored {w : Wallet} (k : Nat) (td : TransferDetails)
      (known : w.pubKeys.find info.outputKeyPair.pub = some k) (found : w.transfers[k]? = some td)
      (covered : td.spent = true ∨ info.amount ≤ td.amount) : RecordStep setup call o info w w
  | replaced {w : Wallet} (k : Nat) (td new : TransferDetails)
      (known : w.pubKeys.find info.outputKeyPair.pub = some k) (found : w.transfers[k]? = some td)
      (unspent : td.spent = false) (larger : td.amount < info.amount)
      (carries : call.Carries o info new)
      (marks : new.spent = td.spent ∧ new.spentHeight = td.spentHeight)
      (kept : new.outputKeyImageKnown = td.outputKeyImageKnown ∧
        new.outputKeyImagePartial = td.outputKeyImagePartial) :
      RecordStep setup call o info w (w.setTransfer setup k new)

/-- The accepted outputs are recorded, each once and in order. -/
inductive RecordSteps (setup : WalletSetup) (call : TxCall) :
    List (Nat × TxScanInfo) → Wallet → Wallet → Prop
  | nil (w : Wallet) : RecordSteps setup call [] w w
  | cons {o : Nat} {info : TxScanInfo} {rest : List (Nat × TxScanInfo)} {w middle after : Wallet}
      (first : RecordStep setup call o info w middle)
      (others : RecordSteps setup call rest middle after) :
      RecordSteps setup call ((o, info) :: rest) w after

/-- The indices of a wallet lead to the transfers they are named after, and a transfer has the key
image of its public key. -/
structure Wallet.Sound (setup : WalletSetup) (w : Wallet) : Prop where
  keyed : ∀ pub k, w.pubKeys.find pub = some k →
    ∃ td, w.transfers[k]? = some td ∧ td.publicKey? = some pub
  imaged : ∀ ki k, w.outputKeyImages.find ki = some k →
    ∃ td, w.transfers[k]? = some td ∧ td.outputKeyImage = ki
  images : ∀ td ∈ w.transfers, ∃ pub, td.publicKey? = some pub ∧
    setup.KeyImageOf pub td.outputKeyImage

section Steps

variable {Γ : Type} [AddCommGroup Γ] {setup : WalletSetup} {encode : Γ → EcPoint} {call : TxCall}
  {o : Nat} {info : TxScanInfo} {w after : Wallet}
variable {td : TransferDetails} {k : Nat}

theorem Wallet.Sound.addTransfer (sound : w.Sound setup) {pub : EcPoint}
    (isPub : td.publicKey? = some pub) (image : setup.KeyImageOf pub td.outputKeyImage) :
    (w.addTransfer setup td pub).Sound setup := by
  have old : ∀ {k : Nat} {other : TransferDetails}, w.transfers[k]? = some other →
      (w.transfers ++ [td])[k]? = some other := by
    intro k other found
    have below : k < w.transfers.length := (List.getElem?_eq_some_iff.mp found).1
    rwa [getElem?_append_left below]
  have new : (w.transfers ++ [td])[w.transfers.length]? = some td :=
    getElem?_concat_length
  constructor
  · intro other k found
    rcases Table.eq_or_find_of_find_set found with ⟨rfl, rfl⟩ | earlier
    · exact ⟨td, new, isPub⟩
    · obtain ⟨entry, isEntry, isOther⟩ := sound.keyed other k earlier
      exact ⟨entry, old isEntry, isOther⟩
  · intro ki k found
    rcases Table.eq_or_find_of_find_set found with ⟨rfl, rfl⟩ | earlier
    · exact ⟨td, new, rfl⟩
    · obtain ⟨entry, isEntry, isImage⟩ := sound.imaged ki k earlier
      exact ⟨entry, old isEntry, isImage⟩
  · intro other member
    rcases mem_append.mp member with earlier | last
    · exact sound.images other earlier
    · rw [mem_singleton.mp last]
      exact ⟨pub, isPub, image⟩

/-- Public key and key image of each transfer. -/
def Wallet.transferKeys (w : Wallet) : List (Option EcPoint × KeyImage) :=
  w.transfers.map fun td => (td.publicKey?, td.outputKeyImage)

theorem getElem?_of_transferKeys (keys : after.transferKeys = w.transferKeys)
    (found : after.transfers[k]? = some td) :
    ∃ old, w.transfers[k]? = some old ∧ old.publicKey? = td.publicKey? ∧
      old.outputKeyImage = td.outputKeyImage := by
  have same := congrArg (fun keys => keys[k]?) keys
  simp only [transferKeys, getElem?_map, found] at same
  obtain ⟨old, isOld, equal⟩ := map_eq_some_iff.mp same.symm
  exact ⟨old, isOld, congrArg fst equal, congrArg snd equal⟩

/-- Overwriting a transfer by one with the same keys. -/
theorem transferKeys_set {new : TransferDetails} (found : w.transfers[k]? = some td)
    (pub : new.publicKey? = td.publicKey?) (image : new.outputKeyImage = td.outputKeyImage) :
    (w.transfers.set k new).map
      (fun td => (td.publicKey?, td.outputKeyImage)) = w.transferKeys := by
  have same : (w.transfers.map fun td => (td.publicKey?, td.outputKeyImage))[k]? =
      some (new.publicKey?, new.outputKeyImage) := by
    rw [getElem?_map, found, pub, image]
    rfl
  obtain ⟨_, isSame⟩ := List.getElem?_eq_some_iff.mp same
  rw [map_set, ← isSame, set_getElem_self, transferKeys]

/-- What has the keys of the transfers and the indices of a sound wallet is sound. -/
theorem Wallet.Sound.congr (sound : w.Sound setup) (keys : after.transferKeys = w.transferKeys)
    (pubKeys : after.pubKeys = w.pubKeys) (images : after.outputKeyImages = w.outputKeyImages) :
    after.Sound setup := by
  refine ⟨?_, ?_, ?_⟩
  · intro pub k found
    rw [pubKeys] at found
    obtain ⟨td, isTransfer, isPub⟩ := sound.keyed pub k found
    obtain ⟨new, isNew, same, -⟩ := getElem?_of_transferKeys keys.symm isTransfer
    exact ⟨new, isNew, same.trans isPub⟩
  · intro ki k found
    rw [images] at found
    obtain ⟨td, isTransfer, isImage⟩ := sound.imaged ki k found
    obtain ⟨new, isNew, -, same⟩ := getElem?_of_transferKeys keys.symm isTransfer
    exact ⟨new, isNew, same.trans isImage⟩
  · intro td member
    obtain ⟨k, found⟩ := getElem?_of_mem member
    obtain ⟨old, isOld, samePub, sameImage⟩ := getElem?_of_transferKeys keys found
    rw [← samePub, ← sameImage]
    exact sound.images old (mem_of_getElem? isOld)

/-- The transfer that an output replaces has its keys. -/
theorem Wallet.Sound.keys_of_known (honest : setup.Honest encode) (sound : w.Sound setup)
    (image : setup.KeyImageOf info.outputKeyPair.pub info.ki)
    (isKnown : w.pubKeys.find info.outputKeyPair.pub = some k) (found : w.transfers[k]? = some td) :
    td.publicKey? = some info.outputKeyPair.pub ∧ td.outputKeyImage = info.ki := by
  obtain ⟨other, isOther, isPub⟩ := sound.keyed _ _ isKnown
  rw [found] at isOther
  cases isOther
  obtain ⟨pub, isKey, isImage⟩ := sound.images td (mem_of_getElem? found)
  rw [isPub] at isKey
  cases isKey
  exact ⟨isPub, honest.keyImageOf_unique isImage image⟩

/-- Recording an output keeps the indices of a wallet. -/
theorem RecordStep.sound (honest : setup.Honest encode)
    (step : RecordStep setup call o info w after)
    (image : setup.KeyImageOf info.outputKeyPair.pub info.ki) (sound : w.Sound setup) :
    after.Sound setup := by
  cases step with
  | added td unknown carries => exact sound.addTransfer carries.pub (carries.image ▸ image)
  | ignored => exact sound
  | replaced k td new known found unspent larger carries =>
    obtain ⟨isPub, isImage⟩ := sound.keys_of_known honest image known found
    exact sound.congr (transferKeys_set found (carries.pub.trans isPub.symm)
      (carries.image.trans isImage.symm)) rfl rfl

end Steps

/-! ## The loop over the accepted outputs -/

section Recording

variable {Γ : Type} [AddCommGroup Γ] {setup : WalletSetup} {encode : Γ → EcPoint} {call : TxCall}
  {o : Nat} {info : TxScanInfo} {out : TxOut} {w : Wallet} {received : SubaddressReceiveInfo}

theorem TxScanInfo.Accepted.outputAmount_eq (accepted : info.Accepted setup out) :
    TxCall.outputAmount out info = info.amount := by
  unfold TxCall.outputAmount
  split
  · rename_i shown
    exact (accepted.amount shown).symm
  · rfl

section Transfers

variable (found : call.tx.vout[o]? = some out) (accepted : info.Accepted setup out)
  (isReceived : info.received = some received)

include found

theorem mask_of_hidden {other : TxOut} (isOther : call.tx.vout[o]? = some other)
    (hidden : other.amount = 0) : (call.maskAndRct out info).1 = info.mask := by
  rw [found] at isOther
  cases isOther
  rw [TxCall.maskAndRct, if_pos hidden]

include accepted isReceived

theorem newTransfer_carries (globalIndex : Nat) :
    call.Carries o info (call.newTransfer o out info received.index globalIndex) where
  txid := rfl
  tx := rfl
  height := rfl
  position := rfl
  pub := (congrArg (Option.map TxOut.outputPublicKey) found).trans (congrArg some accepted.pub.symm)
  image := rfl
  amount := accepted.outputAmount_eq
  mask := fun _ => mask_of_hidden found
  index := by rw [isReceived]; rfl

theorem replacement_carries {td : TransferDetails} (image : td.outputKeyImage = info.ki)
    (globalIndex : Nat) :
    call.Carries o info (call.replacement td o out info received.index globalIndex) :=
  { newTransfer_carries found accepted isReceived globalIndex with image := image }

end Transfers

variable {infos : List TxScanInfo}
variable {sums : Received}

/-- An accepted output whose entry stands at its position is recorded. -/
theorem recordOutput_step (honest : setup.Honest encode) (sound : w.Sound setup)
    (chain : call.pool = false) (sizes : call.tx.vout.length = call.oIndices.length)
    (found : call.tx.vout[o]? = some out) (accepted : info.Accepted setup out)
    (entry : infos[o]? = some info) {rest : List TxScanInfo} (covers : sums.Covers (info :: rest)) :
    ∃ left after, (setup.recordOutput call infos o sums).run w = (.ok left, after) ∧
      RecordStep setup call o info w after ∧ left.Covers rest := by
  have below : o < call.tx.vout.length := (List.getElem?_eq_some_iff.mp found).1
  obtain ⟨globalIndex, isGlobal⟩ : ∃ globalIndex, call.oIndices[o]? = some globalIndex :=
    ⟨_, getElem?_eq_getElem (sizes ▸ below)⟩
  obtain ⟨received, isReceived⟩ := ne_none_iff_exists'.mp accepted.received
  have enough : ¬ (sums.moneyGot.find received.index).getD 0 < info.amount :=
    Nat.not_lt_of_le (covers.amount_le isReceived)
  have listed : ¬ info.amount ∉ (sums.individual.find received.index).getD [] :=
    not_not.mpr (covers.amount_mem isReceived)
  unfold recordOutput
  rw [throwIf_of_not (Nat.not_le_of_lt below), found, entry]
  simp only [unchecked, pure_bind_run, get_bind_run]
  cases known : w.pubKeys.find info.outputKeyPair.pub with
  | none =>
    refine ⟨_, _, ?_, .added (call.newTransfer o out info received.index globalIndex) known
      (newTransfer_carries found accepted isReceived globalIndex) ⟨rfl, rfl⟩ rfl rfl,
      covers.counted isReceived⟩
    unfold recordNew
    rw [when_of chain, isGlobal, isReceived, accepted.outputAmount_eq]
    rfl
  | some k =>
    obtain ⟨td, isTransfer, -⟩ := sound.keyed _ _ known
    dsimp only
    rw [isTransfer]
    dsimp only
    split
    · rename_i covered
      refine ⟨_, _, ?_, .ignored k td known isTransfer covered, covers.dropped isReceived⟩
      unfold recordIgnored
      rw [isReceived]
      simp only [unchecked, pure_bind_run]
      rw [throwIf_of_not enough, throwIf_of_not listed]
      rfl
    · rename_i smaller
      rw [not_or, Bool.not_eq_true, Nat.not_le] at smaller
      obtain ⟨unspent, larger⟩ := smaller
      have image := (sound.keys_of_known honest accepted.image known isTransfer).2
      refine ⟨_, _, ?_, .replaced k td
        (call.replacement td o out info received.index globalIndex) known isTransfer unspent larger
        (replacement_carries found accepted isReceived image globalIndex) ⟨rfl, rfl⟩ ⟨rfl, rfl⟩,
        covers.exchanged isReceived accepted.positive larger⟩
      unfold recordReplaced
      rw [isReceived]
      simp only [unchecked, pure_bind_run]
      rw [throwIf_of_not enough, throwIf_of_not (Nat.not_lt_of_lt larger),
        when_of chain, isGlobal, throwIf_of_not (not_not.mpr accepted.pub.symm),
        throwIf_of_not (by rw [unspent]; decide), accepted.outputAmount_eq]
      rfl

/-- The entries of the accepted outputs stand at their positions: every one of them is recorded. -/
theorem recordOutputs_steps (honest : setup.Honest encode) (chain : call.pool = false)
    {accepted : List (Nat × TxScanInfo)}
    (sizes : accepted ≠ [] → call.tx.vout.length = call.oIndices.length)
    (known : ∀ o info, (o, info) ∈ accepted → ∃ out, call.tx.vout[o]? = some out ∧ info.Accepted setup out)
    (entries : ∀ o info, (o, info) ∈ accepted → infos[o]? = some info) (sound : w.Sound setup)
    (covers : sums.Covers (accepted.map snd)) :
    ∃ left after,
      (setup.recordOutputs call infos (accepted.map fst) sums).run w = (.ok left, after) ∧
      RecordSteps setup call accepted w after ∧ after.Sound setup ∧ left.Covers [] := by
  induction accepted generalizing w sums with
  | nil => exact ⟨sums, w, rfl, .nil w, sound, covers⟩
  | cons item rest ih =>
    obtain ⟨o, info⟩ := item
    obtain ⟨out, found, good⟩ := known o info mem_cons_self
    have same := sizes (cons_ne_nil _ _)
    obtain ⟨left, middle, ran, step, coversRest⟩ := recordOutput_step honest sound chain same found
      good (entries o info mem_cons_self) covers
    obtain ⟨final, after, others, steps, soundAfter, coversNone⟩ := ih (fun _ => same)
      (fun o info member => known o info (mem_cons_of_mem _ member))
      (fun o info member => entries o info (mem_cons_of_mem _ member))
      (step.sound honest good.image sound) coversRest
    refine ⟨final, after, ?_, .cons step steps, soundAfter, coversNone⟩
    rw [map_cons, recordOutputs, bind_ok ran]
    exact others

variable {left : Received} {after : Wallet}

theorem received_of_returns {next : SubaddressReceiveInfo → WalletM Received}
    (ran : (unchecked info.received >>= next).run w = (.ok left, after)) :
    info.received ≠ none := by
  obtain ⟨received, _, isReceived, _⟩ := bind_eq_ok.mp ran
  rw [(unchecked_eq_ok.mp isReceived).1]
  exact some_ne_none received

/-- An output that is recorded has an entry at its position, and that of an output that was
received. -/
theorem recordOutput_entry (chain : call.pool = false)
    (ran : (setup.recordOutput call infos o sums).run w = (.ok left, after)) :
    ∃ entry, infos[o]? = some entry ∧ entry.received ≠ none := by
  obtain ⟨_, _, _, ran⟩ := bind_eq_ok.mp ran
  obtain ⟨out, _, _, ran⟩ := bind_eq_ok.mp ran
  obtain ⟨entry, _, isEntry, ran⟩ := bind_eq_ok.mp ran
  refine ⟨entry, (unchecked_eq_ok.mp isEntry).1, ?_⟩
  obtain ⟨current, _, _, ran⟩ := bind_eq_ok.mp ran
  split at ran
  · unfold recordNew at ran
    rw [when_of chain] at ran
    obtain ⟨_, _, ran, _⟩ := bind_eq_ok.mp ran
    obtain ⟨_, _, _, ran⟩ := bind_eq_ok.mp ran
    obtain ⟨received, _, isReceived, _⟩ := bind_eq_ok.mp ran
    rw [(unchecked_eq_ok.mp isReceived).1]
    exact some_ne_none received
  · split at ran
    · cases ran
    · split at ran
      · exact received_of_returns ran
      · exact received_of_returns ran

theorem recordOutputs_entry (chain : call.pool = false) {outs : List Nat}
    (ran : (setup.recordOutputs call infos outs sums).run w = (.ok left, after))
    (member : o ∈ outs) : ∃ entry, infos[o]? = some entry ∧ entry.received ≠ none := by
  induction outs generalizing w sums with
  | nil => cases member
  | cons first rest ih =>
    obtain ⟨middle, state, step, others⟩ := bind_eq_ok.mp ran
    rcases mem_cons.mp member with rfl | later
    · exact recordOutput_entry chain step
    · exact ih others later

end Recording

/-! ## The inputs -/

/-- What an input does to the transfers. -/
def Wallet.spend (call : TxCall) (w : Wallet) : TxIn → Wallet
  | .gen _ => w
  | .fromKey input =>
    match w.outputKeyImages.find input.outputKeyImage with
    | none => w
    | some k =>
      match w.transfers[k]? with
      | none => w
      | some td => { w with transfers := w.transfers.set k (call.spend input td) }

/-- The inputs of the transaction mark what they spend. -/
def Wallet.spendAll (call : TxCall) (w : Wallet) : Wallet :=
  call.tx.vin.foldl (Wallet.spend call) w

section Inputs

variable {setup : WalletSetup} {call : TxCall} {w : Wallet}

/-- An input changes transfers only, and not their keys. -/
theorem Wallet.spend_eq (call : TxCall) (w : Wallet) (input : TxIn) :
    ∃ transfers, w.spend call input = { w with transfers := transfers } ∧
      (w.spend call input).transferKeys = w.transferKeys := by
  cases input with
  | gen height => exact ⟨_, rfl, rfl⟩
  | fromKey input =>
    rw [spend]
    split
    · exact ⟨_, rfl, rfl⟩
    · split
      · exact ⟨_, rfl, rfl⟩
      · rename_i td found
        have keys : (call.spend input td).publicKey? = td.publicKey? ∧
            (call.spend input td).outputKeyImage = td.outputKeyImage := by
          unfold TxCall.spend
          split <;> exact ⟨rfl, rfl⟩
        exact ⟨_, rfl, transferKeys_set found keys.1 keys.2⟩

theorem Wallet.Sound.spend (sound : w.Sound setup) (input : TxIn) :
    (w.spend call input).Sound setup := by
  obtain ⟨transfers, same, keys⟩ := w.spend_eq call input
  exact sound.congr keys (by rw [same]) (by rw [same])

/-- An account is known once something was spent. -/
def WalletSetup.Spending.Located (spending : WalletSetup.Spending) : Prop :=
  0 < spending.moneySpent → spending.subaddrAccount ≠ none

variable {spending : WalletSetup.Spending}

theorem spendInput_run (call : TxCall) (sound : w.Sound setup) (located : spending.Located)
    (input : TxIn) :
    ∃ result, (spendInput call spending input).run w =
      (.ok result, w.spend call input) ∧ result.Located := by
  cases input with
  | gen height => exact ⟨spending, rfl, located⟩
  | fromKey input =>
    rw [spendInput, spend]
    simp only [get_bind_run]
    cases known : w.outputKeyImages.find input.outputKeyImage with
    | none => exact ⟨spending, rfl, located⟩
    | some k =>
      obtain ⟨td, found, -⟩ := sound.imaged _ _ known
      dsimp only
      rw [found]
      exact ⟨_, rfl, fun _ => some_ne_none _⟩

theorem spendInputs_run (call : TxCall) (sound : w.Sound setup) (located : spending.Located)
    (inputs : List TxIn) :
    ∃ result, (spendInputs call inputs spending).run w =
      (.ok result, inputs.foldl (spend call) w) ∧ result.Located := by
  induction inputs generalizing w spending with
  | nil => exact ⟨spending, rfl, located⟩
  | cons input rest ih =>
    obtain ⟨middle, ran, middleLocated⟩ := spendInput_run call sound located input
    obtain ⟨result, others, resultLocated⟩ := ih (sound.spend input) middleLocated
    refine ⟨result, ?_, resultLocated⟩
    rw [spendInputs, bind_ok ran]
    exact others

end Inputs

/-! ## The records -/

/-- A transaction of a block is filed: what was spent and what was received, under its height. -/
structure Wallet.Filed (call : TxCall) (w after : Wallet) : Prop where
  confirmed : after.confirmedTxs = w.confirmedTxs ∨
    ∃ entry, entry.blockHeight = call.height ∧
      after.confirmedTxs = w.confirmedTxs.set call.txid entry
  payments : ∃ made, (∀ payment ∈ made, payment.blockHeight = call.height) ∧
    after.payments = w.payments ++ made
  others : after = { w with confirmedTxs := after.confirmedTxs, payments := after.payments }

section Filing

variable {setup : WalletSetup} {call : TxCall} {w : Wallet} {sums : Received}
  {spending : WalletSetup.Spending}

theorem fileOutgoing_run (call : TxCall) (sums : Received) (w : Wallet)
    (located : spending.Located) :
    ∃ after, (fileOutgoing call sums spending).run w = (.ok (), after) ∧
      (after = w ∨ ∃ entry, entry.blockHeight = call.height ∧
        after = { w with confirmedTxs := w.confirmedTxs.set call.txid entry }) := by
  unfold fileOutgoing when
  split
  · rename_i spent
    obtain ⟨account, isAccount⟩ := ne_none_iff_exists'.mp (located spent.1)
    rw [isAccount]
    simp only [unchecked, pure_bind_run, modify_bind_run]
    set received := selfReceived sums.moneyGot account
    set entry := outgoingEntry call (w.confirmedTxs.find call.txid) spending.moneySpent
      received account spending.subaddrIndices
    split
    · simp only [get_bind_run, Table.find_set_self]
      refine ⟨_, rfl, .inr ⟨{ entry with change := received }, rfl, ?_⟩⟩
      dsimp only
      rw [Table.set_set_self]
    · exact ⟨_, rfl, .inr ⟨_, rfl, rfl⟩⟩
  · exact ⟨w, rfl, .inl rfl⟩

theorem sum64_eq_wrap (amounts : List Nat) : sum64 amounts = Word.wrap 64 amounts.sum := by
  have folded := @Word.foldl_add 64 0 amounts
  rwa [Nat.zero_add] at folded

/-- The two totals agree. -/
theorem total_eq (covers : sums.Covers []) (change : SubaddressIndex × Nat → Bool) :
    sums.total = Word.add 64 (sum64 ((sums.moneyGot.filter change).map snd))
      (sum64 ((sums.moneyGot.filter fun row => ! change row).map snd)) := by
  have split := ((filter_append_perm change sums.moneyGot).map snd).sum_eq
  have total := covers.total
  rw [map_nil, sum_nil, Nat.add_zero, Word.wrap_of_lt covers.word] at total
  rw [total, sum64_eq_wrap, sum64_eq_wrap, Table.total, ← split]
  simp [Word.add, Word.wrap]

theorem filePayments_run (chain : call.pool = false) (covers : sums.Covers [])
    (spending : Spending) (w : Wallet) :
    ∃ after, (filePayments call sums spending).run w = (.ok (), after) ∧
      ∃ made, (∀ payment ∈ made, payment.blockHeight = call.height) ∧
        after = { w with payments := w.payments ++ made } := by
  unfold filePayments
  dsimp only
  split
  · refine ⟨w, rfl, [], ?_, ?_⟩
    · intro payment member
      cases member
    · rw [append_nil]
  · rw [if_neg (not_not.mpr (total_eq covers _))]
    simp only [chain]
    refine ⟨_, rfl, _, ?_, rfl⟩
    intro payment member
    obtain ⟨row, -, rfl⟩ := mem_map.mp member
    rfl

/-- What follows the outputs: the inputs are spent, and the transaction is filed. -/
theorem fileTransaction_run (chain : call.pool = false) (sound : w.Sound setup)
    (covers : sums.Covers []) :
    ∃ after, (fileTransaction call sums).run w = (.ok (), after) ∧
      Filed call (w.spendAll call) after := by
  have sizes : ¬ sums.moneyGot.length ≠ sums.individual.length := by
    have same := covers.keys.length_eq
    rw [length_map, length_map] at same
    exact not_not.mpr same
  unfold fileTransaction
  rw [throwIf_of_not sizes]
  simp only [pure_bind_run]
  obtain ⟨spending, spent, located⟩ := spendInputs_run call sound
    (show Spending.Located ⟨0, none, []⟩ from fun positive =>
      absurd positive (by decide))
    call.tx.vin
  rw [bind_ok spent]
  obtain ⟨middle, outgoing, isOutgoing⟩ := fileOutgoing_run call sums (w.spendAll call) located
  obtain ⟨after, paid, made, heights, isAfter⟩ := filePayments_run chain covers spending middle
  refine ⟨after, (bind_ok outgoing).trans paid, ?_⟩
  rcases isOutgoing with rfl | ⟨entry, height, rfl⟩
  · subst isAfter
    exact ⟨.inl rfl, ⟨made, heights, rfl⟩, rfl⟩
  · subst isAfter
    exact ⟨.inr ⟨entry, height, rfl⟩, ⟨made, heights, rfl⟩, rfl⟩

end Filing

/-! ## Transactions in the pool -/

/-- No transfer was recorded or replaced: at most the amounts have changed. -/
def Wallet.Unrecorded (w after : Wallet) : Prop :=
  after.transfers.map (fun td => { td with amount := 0 }) =
    w.transfers.map fun td => { td with amount := 0 }

section Pool

variable {setup : WalletSetup} {call : TxCall} {w : Wallet}
variable {invariant : Wallet → Prop}

theorem keeps_throwIf {condition : Prop} [Decidable condition] {error : InternalError} :
    Keeps invariant (throwIf condition error) :=
  .ite (fun _ => .throw _) fun _ => .pure _

theorem keeps_unchecked {α : Type} (value : Option α) :
    Keeps invariant (unchecked value) := by
  cases value with
  | none => exact .throw _
  | some value => exact .pure _

variable (pool : call.pool = true)

include pool

theorem keeps_when_chain {body : WalletM Unit} :
    Keeps invariant (when (call.pool = false) body) :=
  .ite (fun chain => absurd (pool.symm.trans chain) (by decide)) fun _ => .pure _

theorem recordOutputs_keeps (infos : List TxScanInfo) (outs : List Nat) (sums : Received) :
    Keeps invariant (setup.recordOutputs call infos outs sums) := by
  have each : ∀ o sums, Keeps invariant (setup.recordOutput call infos o sums) := by
    intro o sums
    refine .bind keeps_throwIf fun _ => .bind (keeps_unchecked _) fun out =>
      .bind (keeps_unchecked _) fun info => .bind .get fun state => ?_
    split
    · exact .bind (keeps_when_chain pool) fun _ => .pure _
    · split
      · exact .throw _
      · refine .ite (fun _ => ?_) fun _ => ?_
        · exact .bind (keeps_unchecked _) fun _ => .bind keeps_throwIf fun _ =>
            .bind keeps_throwIf fun _ => .pure _
        · exact .bind (keeps_unchecked _) fun _ => .bind keeps_throwIf fun _ =>
            .bind keeps_throwIf fun _ => .bind (keeps_when_chain pool) fun _ => .pure _
  induction outs generalizing sums with
  | nil => exact .pure _
  | cons o rest ih => exact .bind (each o sums) ih

theorem spendInputs_keeps (inputs : List TxIn) (spending : Spending) :
    Keeps w.Unrecorded (spendInputs call inputs spending) := by
  have each : ∀ spending input, Keeps w.Unrecorded (spendInput call spending input) := by
    intro spending input
    cases input with
    | gen height => exact .pure _
    | fromKey input =>
      intro state kept
      simp only [spendInput, ensures_bind, ensures_get]
      split
      · exact kept
      · rename_i k known
        cases found : state.transfers[k]? with
        | none => exact kept
        | some td =>
          change w.Unrecorded { state with transfers := state.transfers.set k _ }
          unfold Unrecorded at kept ⊢
          have same : (state.transfers.map fun td => { td with amount := 0 })[k]? =
              some { call.spend input td with amount := 0 } := by
            rw [getElem?_map, found, TxCall.spend, if_pos pool]
            rfl
          obtain ⟨below, isSame⟩ := List.getElem?_eq_some_iff.mp same
          rw [← kept, map_set, ← isSame, set_getElem_self]
  induction inputs generalizing spending with
  | nil => exact .pure _
  | cons input rest ih => exact .bind (each spending input) ih

/-- A transaction of the pool is not recorded, however the call ends. -/
theorem processNewTransaction_keeps (memory : Nat → ScanMemory) :
    Keeps w.Unrecorded (setup.processNewTransaction call memory) := by
  have outgoing : ∀ sums spending, Keeps w.Unrecorded (fileOutgoing call sums spending) := by
    intro sums spending
    refine .ite (fun spent => ?_) fun _ => .pure _
    exact absurd (pool.symm.trans spent.2) (by decide)
  have payments : ∀ sums spending, Keeps w.Unrecorded (filePayments call sums spending) := by
    intro sums spending
    refine .ite (fun _ => .pure _) fun _ => .ite (fun _ => .throw _) fun _ => ?_
    intro state kept
    rw [ensures_modify, if_pos pool]
    exact kept
  refine .bind (.ite (fun chain => absurd (pool.symm.trans chain.2) (by decide)) fun _ => .pure _)
    fun _ => .bind (.reads _) fun scanned => .bind (.ite (fun _ => .pure _) fun _ =>
      .bind keeps_throwIf fun _ => recordOutputs_keeps pool _ _ _) fun sums =>
        .bind keeps_throwIf fun _ => .bind (spendInputs_keeps pool _ _) fun spending =>
          .bind (outgoing sums spending) fun _ => payments sums spending

end Pool

/-! ## The whole function -/

/-- The wallet once the transaction is no longer waited for. -/
def Wallet.started (setup : WalletSetup) (call : TxCall) (w : Wallet) : Wallet :=
  if call.minerTx = false ∧ call.pool = false then w.processUnconfirmed setup call else w

/-- `process_new_transaction` returns, and has recorded the accepted outputs, each with what the scan
found for its own position, before it marked what the inputs spend. -/
def WalletSetup.Attributes (setup : WalletSetup) (memory : Nat → ScanMemory) (call : TxCall)
    (w : Wallet) (verdicts : List Verdict) : Prop :=
  ∃ recorded after, (setup.processNewTransaction call memory).run w = (.ok (), after) ∧
    RecordSteps setup call (acceptedFrom 0 verdicts) (w.started setup call) recorded ∧
    Wallet.Filed call (recorded.spendAll call) after

section Whole

variable {Γ : Type} [AddCommGroup Γ] {setup : WalletSetup} {encode : Γ → EcPoint} {call : TxCall}
  {w : Wallet} {memory : Nat → ScanMemory}

theorem Wallet.started_eq (setup : WalletSetup) (call : TxCall) (w : Wallet) :
    w.started setup call =
      { w with
        confirmedTxs := (w.started setup call).confirmedTxs
        unconfirmedTxs := (w.started setup call).unconfirmedTxs } := by
  unfold started processUnconfirmed
  split
  · split <;> rfl
  · rfl

theorem Wallet.Sound.started (sound : w.Sound setup) (call : TxCall) :
    (w.started setup call).Sound setup := by
  rw [started_eq]
  exact sound.congr rfl rfl rfl

/-- The function scans in the wallet where the transaction is no longer waited for. -/
theorem processNewTransaction_started :
    (setup.processNewTransaction call memory).run w =
      ((reads fun w => setup.scanOutputs memory w.book.subaddresses call.tx call.height
        call.minerTx) >>= fun scanned => setup.recordScanned call scanned >>= fun sums =>
          fileTransaction call sums).run (w.started setup call) := by
  apply bind_ok
  unfold when started
  split <;> rfl

variable {scanned : ScannedOutputs} {after : Wallet}

/-- The function is the recording of what was scanned, and the filing. -/
theorem processNewTransaction_run
    (scan : setup.scanOutputs memory w.book.subaddresses call.tx call.height call.minerTx = .ok scanned) :
    (setup.processNewTransaction call memory).run w =
      (setup.recordScanned call scanned >>= fun sums =>
        fileTransaction call sums).run (w.started setup call) := by
  rw [processNewTransaction_started]
  apply bind_ok
  have book : (w.started setup call).book = w.book := by rw [started_eq]
  rw [reads_run, book, scan]

/-- The outputs of a transaction that was processed. -/
theorem recordScanned_entry (chain : call.pool = false) {left : Received}
    (ran : (setup.recordScanned call scanned).run w = (.ok left, after)) {o : Nat}
    (member : o ∈ scanned.outs) :
    ∃ entry, scanned.infos[o]? = some entry ∧ entry.received ≠ none := by
  unfold recordScanned at ran
  split at ran
  · rename_i none
    rw [none] at member
    cases member
  · obtain ⟨_, _, _, ran⟩ := bind_eq_ok.mp ran
    exact recordOutputs_entry chain ran member

variable (honest : setup.Honest encode) (range : call.tx.InRange) (chain : call.pool = false)
  {verdicts : List Verdict} {scanned : ScannedOutputs}
  (looked : setup.verdicts memory w.book.subaddresses call.tx call.height call.minerTx =
    .ok verdicts)
  (scan : setup.scanOutputs memory w.book.subaddresses call.tx call.height call.minerTx =
    .ok scanned)

include honest range chain looked scan

/-- A call that returns has looked up every accepted output at its position. -/
theorem aligned_of_returns
    (ran : (setup.processNewTransaction call memory).run w = (.ok (), after)) :
      Aligned verdicts := by
  obtain ⟨_, isVerdicts, collected⟩ := setup.scanOutputs_eq_ok.mp scan
  rw [looked] at isVerdicts
  cases isVerdicts
  obtain ⟨outs, infos⟩ := ScannedOutputs.collect_outs collected
  rw [processNewTransaction_run scan] at ran
  obtain ⟨sums, middle, recorded, -⟩ := bind_eq_ok.mp ran
  by_cases none : acceptedFrom 0 verdicts = []
  · exact aligned_of_none none
  · obtain ⟨before, info, later, rfl, last⟩ := exists_last_accepted none
    have member : before.length ∈ scanned.outs := by
      rw [outs, acceptedFrom_append]
      simp [acceptedFrom, Verdict.accepted?]
    obtain ⟨entry, isEntry, received⟩ := recordScanned_entry chain recorded member
    rw [infos] at isEntry
    refine aligned_of_clean last (clean_of_entry last ?_ isEntry received)
    intro other isLater
    exact (verdicts_facts honest range looked).1 other
      (mem_append_right _ (mem_cons_of_mem _ isLater))

/-- If every entry stands at the position of its output, the call returns. -/
theorem attributes_of_aligned (sound : w.Sound setup)
    (sizes : acceptedFrom 0 verdicts ≠ [] → call.tx.vout.length = call.oIndices.length)
    (aligned : Aligned verdicts) :
    setup.Attributes memory call w verdicts := by
  obtain ⟨_, isVerdicts, collected⟩ := setup.scanOutputs_eq_ok.mp scan
  rw [looked] at isVerdicts
  cases isVerdicts
  obtain ⟨outs, infos⟩ := ScannedOutputs.collect_outs collected
  obtain ⟨-, known⟩ := verdicts_facts honest range looked
  have tallies := ScannedOutputs.Tallies.empty.collect (fun info member => by
    obtain ⟨before, later, rfl⟩ := append_of_mem member
    obtain ⟨out, -, accepted⟩ := known before.length info (by
      rw [acceptedFrom_append]
      simp [acceptedFrom, Verdict.accepted?])
    exact ⟨accepted.money, accepted.fits⟩) collected
  obtain ⟨left, recorded, ran, steps, soundAfter, covers⟩ := recordOutputs_steps honest chain
    sizes known (fun o info member => aligned_entry aligned member) (sound.started call) tallies.covers
  have recordedAll : (setup.recordScanned call scanned).run (w.started setup call) =
      (.ok left, recorded) := by
    unfold recordScanned
    rw [outs, infos]
    split
    · rename_i none
      change (acceptedFrom 0 verdicts).map fst = [] at none
      rw [none] at ran
      exact ran
    · rename_i some
      rw [throwIf_of_not fun mismatch => mismatch.2 (sizes fun none => some (by rw [none]; rfl))]
      exact ran
  obtain ⟨after, filed, isFiled⟩ := fileTransaction_run chain soundAfter covers
  refine ⟨recorded, after, ?_, steps, isFiled⟩
  rw [processNewTransaction_run scan, bind_ok recordedAll]
  exact filed

omit chain in
/-- The outputs of a transaction in a block are attributed exactly if no output of the wallet fails
to be decoded, or is of amount zero, ahead of one that is accepted. Those of a transaction in the
pool are not recorded. -/
theorem processNewTransaction_attributes (sound : w.Sound setup)
    (sizes : call.tx.vout.length = call.oIndices.length) :
    (call.pool = false → (setup.Attributes memory call w verdicts ↔ Aligned verdicts)) ∧
      (call.pool = true → (setup.processNewTransaction call memory).Ensures w
        (fun _ => w.Unrecorded) w.Unrecorded) := by
  constructor
  · intro chain
    constructor
    · rintro ⟨recorded, after, ran, -⟩
      exact aligned_of_returns honest range chain looked scan ran
    · exact attributes_of_aligned honest range chain looked scan sound fun _ => sizes
  · intro pool
    exact (processNewTransaction_keeps pool memory).ensures rfl

end Whole

/-! ## A small wallet -/

/-- A hash that adds up bytes. -/
def byteSum (bytes : List UInt8) : Hash :=
  (bytes.map UInt8.toNat).sum

/-- A wallet with the secret keys three and one, over the cyclic group. -/
def smallSetup : WalletSetup where
  env := cyclicSetting
  sha3 := byteSum
  keys := { spendSecretKey := 3, viewSecretKey := 1 }
  createTime := 0
  refreshFromBlockHeight := 0
  storeTxInfo := true

theorem smallSetup_honest : smallSetup.Honest fun x : ZMod cyclicOrder => cyclicEncode x where
  laws := cyclicSetting_laws
  generates := by decide +kernel
  hashed := fun _ => (by decide +kernel : cyclicSetting.isValidPoint (identity + 1) = true)

/-- Memory that holds zeros. -/
def blankMemory (_ : Nat) : ScanMemory where
  calls := fun _ => 0
  outputKeyPair := { sec := 0, pub := 0 }
  ki := 0
  mask := 0

/-- The wallet before it has scanned anything. -/
def smallWallet : Wallet where
  blockchain := { offset := 0, genesis := 0, blockchain := [] }
  transfers := []
  outputKeyImages := []
  pubKeys := []
  unconfirmedTxs := []
  confirmedTxs := []
  payments := []
  unconfirmedPayments := []
  book :=
    { subaddresses := [(identity + 3, { major := 0, minor := 0 })]
      labels := [[[]]]
      lookaheadMajor := 1
      lookaheadMinor := 1 }

theorem smallWallet_sound (setup : WalletSetup) : smallWallet.Sound setup where
  keyed := fun _ _ found => nomatch found
  imaged := fun _ _ found => nomatch found
  images := fun _ member => nomatch member

/-- A transaction with two outputs for the small wallet and the hidden amounts that are given. -/
def twoOutputs (encrypted : List Nat) (commits : List EcPoint) : Transaction where
  version := 2
  unlockHeight := 0
  vin := []
  vout :=
    [{ amount := 0, outputPublicKey := identity + 12 },
      { amount := 0, outputPublicKey := identity + 13 }]
  extra := addTxEcdhPublicKeyToExtra [] (identity + 1)
  ringct := { oneRingTx.ringct with ecdhEncryptedData := encrypted, outputCommits := commits }

theorem twoOutputs_inRange {encrypted : List Nat} {commits : List EcPoint}
    (amounts : ∀ amount ∈ encrypted, amount < 2 ^ 64)
      (points : ∀ point ∈ commits, point < 256 ^ 32) :
    (twoOutputs encrypted commits).InRange where
  txPrefix :=
    -- the prefix does not depend on the hidden amounts
    (show (twoOutputs [] []).txPrefix.InRange from
      { version := by decide
        unlockHeight := by decide
        vin := forall_mem_nil _
        vout := forall_mem_cons.mpr ⟨⟨by decide, by decide +kernel⟩,
          forall_mem_singleton.mpr ⟨by decide, by decide +kernel⟩⟩
        sizes := ⟨by decide, by decide, by decide +kernel⟩ })
  ringct := ⟨oneRingTx_inRange.ringct.fee, amounts, points, oneRingTx_inRange.ringct.p⟩

/-- The call for such a transaction in the block of height one. -/
def twoOutputsCall (encrypted : List Nat) (commits : List EcPoint) : TxCall where
  txid := 7
  tx := twoOutputs encrypted commits
  oIndices := [0, 1]
  height := 1
  timestamp := 0
  minerTx := false
  pool := false
  doubleSpendSeen := false

/-- What the scan finds for an output of amount five. -/
def fiveFound (sec : EcScalar) (mask : EcScalar) : TxScanInfo where
  outputKeyPair := { sec := sec, pub := identity + sec }
  ki := identity + sec
  mask := mask
  amount := 5
  moneyTransfered := 5
  error := false
  received := some { index := { major := 0, minor := 0 }, txOutputSharedSecret := identity + 8 }

/-- The first output is accepted, and the second does not decode. -/
theorem processNewTransaction_attributes_first :
    smallSetup.Attributes blankMemory (twoOutputsCall [664, 0] [identity + 1627, 0]) smallWallet
      [.accepted (fiveFound 12 1617), .failed] :=
  ((processNewTransaction_attributes smallSetup_honest
    (twoOutputs_inRange (by decide) (by decide +kernel)) (by decide +kernel)
    (by decide +kernel :
      smallSetup.scanOutputs blankMemory smallWallet.book.subaddresses
        (twoOutputs [664, 0] [identity + 1627, 0]) 1 false = .ok
          { outs := [0]
            infos := [fiveFound 12 1617]
            moneyGot := [({ major := 0, minor := 0 }, 5)]
            individual := [({ major := 0, minor := 0 }, [5])] })
    (smallWallet_sound _) rfl).1 rfl).mpr
    (aligned_of_clean (fun _ member => by rw [mem_singleton.mp member]; rfl) not_mem_nil)

/-- The first output does not decode, and the second is accepted: the call does not return, since
the vector of results has one entry only. -/
theorem undecoded_output_first :
    ∃ verdicts,
      smallSetup.verdicts blankMemory smallWallet.book.subaddresses
        (twoOutputs [0, 667] [0, identity + 1628]) 1 false = .ok verdicts ∧
      ((smallSetup.processNewTransaction (twoOutputsCall [0, 667] [0, identity + 1628])
        blankMemory).run smallWallet).1 = .thrown .undefined ∧
      ¬ smallSetup.Attributes blankMemory (twoOutputsCall [0, 667] [0, identity + 1628]) smallWallet
        verdicts := by
  have outcome : ((smallSetup.processNewTransaction
      (twoOutputsCall [0, 667] [0, identity + 1628]) blankMemory).run smallWallet).1 =
        .thrown .undefined := by
    decide +kernel
  refine ⟨[.failed, .accepted (fiveFound 13 1618)], by decide +kernel, outcome, ?_⟩
  rintro ⟨recorded, after, ran, -⟩
  rw [ran] at outcome
  cases outcome

end Memero
