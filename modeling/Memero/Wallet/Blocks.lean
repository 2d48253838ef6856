import Memero.Wallet.Chain

/-!
# What a processed block has done

A call of `process_new_transaction` that returned has recorded the accepted outputs, marked what the
inputs spend and filed the transaction; a block that was processed is such a call for each of its
transactions. The two indices of the wallet lead to the transfers and back.
-/

namespace Memero

open List WalletM

open Exec (bind_eq_ok)

/-! ## Calls that returned -/

/-- What a call for a transaction in a block has done. -/
structure TxCall.Processed (setup : WalletSetup) (memory : Nat → ScanMemory) (call : TxCall)
    (w after : Wallet) (accepted : List (Nat × TxScanInfo)) (recorded : Wallet) : Prop where
  looked : ∃ verdicts, setup.verdicts memory w.book.subaddresses call.tx call.height call.minerTx =
    .ok verdicts ∧ accepted = acceptedFrom 0 verdicts
  known : ∀ o info, (o, info) ∈ accepted →
    ∃ out, call.tx.vout[o]? = some out ∧ info.Accepted setup out
  steps : RecordSteps setup call accepted (w.started setup call) recorded
  filed : Wallet.Filed call (recorded.spendAll call) after

section Returned

variable {Γ : Type} [AddCommGroup Γ] {setup : WalletSetup} {encode : Γ → EcPoint} {call : TxCall}
  {w after : Wallet} {memory : Nat → ScanMemory}

theorem scanned_of_returns
    (ran : (setup.processNewTransaction call memory).run w = (.ok (), after)) :
    ∃ scanned, setup.scanOutputs memory w.book.subaddresses call.tx call.height call.minerTx =
      .ok scanned := by
  have book : (w.started setup call).book = w.book := by rw [Wallet.started_eq]
  rw [processNewTransaction_started] at ran
  obtain ⟨scanned, state, isScanned, -⟩ := bind_eq_ok.mp ran
  rw [Exec.reads_run, book] at isScanned
  split at isScanned
  · rename_i result
    cases isScanned
    exact ⟨scanned, result⟩
  · cases isScanned

theorem sizes_of_returns {scanned : ScannedOutputs} (chain : call.pool = false) {left : Received}
    (ran : (setup.recordScanned call scanned).run w = (.ok left, after))
      (some : scanned.outs ≠ []) :
    call.tx.vout.length = call.oIndices.length := by
  unfold WalletSetup.recordScanned at ran
  rw [if_neg some] at ran
  obtain ⟨_, _, checked, -⟩ := bind_eq_ok.mp ran
  by_contra different
  exact (throwIf_eq_ok.mp checked).1 ⟨chain, different⟩

/-- A call that returned did what it is for. -/
theorem processed_of_returns (honest : setup.Honest encode) (range : call.tx.InRange)
    (chain : call.pool = false) (sound : w.Sound setup)
    (ran : (setup.processNewTransaction call memory).run w = (.ok (), after)) :
    ∃ accepted recorded, call.Processed setup memory w after accepted recorded := by
  obtain ⟨scanned, scan⟩ := scanned_of_returns ran
  obtain ⟨verdicts, looked, collected⟩ := setup.scanOutputs_eq_ok.mp scan
  have aligned := aligned_of_returns honest range chain looked scan ran
  have sizes : acceptedFrom 0 verdicts ≠ [] → call.tx.vout.length = call.oIndices.length := by
    intro some
    have outs := (ScannedOutputs.collect_outs collected).1
    rw [processNewTransaction_run scan] at ran
    obtain ⟨sums, middle, recorded, -⟩ := bind_eq_ok.mp ran
    refine sizes_of_returns chain recorded fun none => some ?_
    rw [none] at outs
    exact map_eq_nil_iff.mp outs.symm
  obtain ⟨recorded, result, again, steps, filed⟩ :=
    attributes_of_aligned honest range chain looked scan sound sizes aligned
  rw [ran] at again
  cases again
  exact ⟨_, recorded, ⟨verdicts, looked, rfl⟩, (verdicts_facts honest range looked).2, steps, filed⟩

end Returned

/-! ## The indices of a wallet -/

/-- An element of a list with one element appended. -/
theorem getElem?_concat_eq_some {α : Type} {items : List α} {last item : α} {k : Nat} :
    (items ++ [last])[k]? = some item ↔ items[k]? = some item ∨ k = items.length ∧ last = item := by
  rcases Nat.lt_trichotomy k items.length with below | rfl | above
  · rw [getElem?_append_left below]
    simp [Nat.ne_of_lt below]
  · simp
  · rw [getElem?_eq_none (by simp; omega), getElem?_eq_none (Nat.le_of_lt above)]
    simp [Nat.ne_of_gt above]

/-- The indices lead from the keys of each transfer to the transfer. -/
structure Wallet.Indexed (setup : WalletSetup) (w : Wallet) : Prop extends w.Sound setup where
  listed : ∀ k td pub, w.transfers[k]? = some td → td.publicKey? = some pub →
    w.pubKeys.find pub = some k
  imageListed : ∀ k td, w.transfers[k]? = some td →
    w.outputKeyImages.find td.outputKeyImage = some k

/-- The key images tell the public keys apart, among the outputs that are accepted and the
transfers. -/
structure Wallet.Distinguishes (w : Wallet) (accepted : List (Nat × TxScanInfo)) : Prop where
  known : ∀ o info, (o, info) ∈ accepted → ∀ td ∈ w.transfers, td.outputKeyImage = info.ki →
    td.publicKey? = some info.outputKeyPair.pub
  among : ∀ o info o' info', (o, info) ∈ accepted → (o', info') ∈ accepted → info.ki = info'.ki →
    info.outputKeyPair.pub = info'.outputKeyPair.pub

section Indexed

variable {Γ : Type} [AddCommGroup Γ] {setup : WalletSetup} {encode : Γ → EcPoint} {call : TxCall}
  {w after : Wallet} {accepted : List (Nat × TxScanInfo)}

/-- What has the keys of the transfers and the indices of an indexed wallet is one. -/
theorem Wallet.Indexed.congr (indexed : w.Indexed setup)
    (keys : after.transferKeys = w.transferKeys)
    (pubKeys : after.pubKeys = w.pubKeys) (images : after.outputKeyImages = w.outputKeyImages) :
    after.Indexed setup := by
  refine ⟨indexed.toSound.congr keys pubKeys images, ?_, ?_⟩
  · intro k td pub found isPub
    obtain ⟨old, isOld, samePub, -⟩ := getElem?_of_transferKeys keys found
    rw [pubKeys]
    exact indexed.listed k old pub isOld (samePub.trans isPub)
  · intro k td found
    obtain ⟨old, isOld, -, sameImage⟩ := getElem?_of_transferKeys keys found
    rw [images, ← sameImage]
    exact indexed.imageListed k old isOld

variable {td : TransferDetails} {info : TxScanInfo} {rest : List (Nat × TxScanInfo)}

theorem Wallet.Indexed.spend (indexed : w.Indexed setup) (input : TxIn) :
    (w.spend call input).Indexed setup := by
  obtain ⟨transfers, same, keys⟩ := w.spend_eq call input
  exact indexed.congr keys (by rw [same]) (by rw [same])

theorem Wallet.Indexed.spendAll (indexed : w.Indexed setup) : (w.spendAll call).Indexed setup := by
  unfold Wallet.spendAll
  induction call.tx.vin generalizing w with
  | nil => exact indexed
  | cons input rest ih => exact ih (indexed.spend input)

theorem Wallet.Indexed.filed (indexed : w.Indexed setup) (filed : Wallet.Filed call w after) :
    after.Indexed setup := by
  rw [filed.others]
  exact indexed.congr rfl rfl rfl

theorem Wallet.Indexed.started (indexed : w.Indexed setup) (call : TxCall) :
    (w.started setup call).Indexed setup := by
  rw [Wallet.started_eq]
  exact indexed.congr rfl rfl rfl

theorem Wallet.Indexed.addTransfer (indexed : w.Indexed setup) {pub : EcPoint}
    (isPub : td.publicKey? = some pub) (image : setup.KeyImageOf pub td.outputKeyImage)
    (unknown : w.pubKeys.find pub = none)
    (unknownImage : w.outputKeyImages.find td.outputKeyImage = none) :
    (w.addTransfer setup td pub).Indexed setup := by
  refine ⟨indexed.toSound.addTransfer isPub image, ?_, ?_⟩
  · intro k entry key found isKey
    rcases getElem?_concat_eq_some.mp found with earlier | ⟨rfl, rfl⟩
    · have listed := indexed.listed k entry key earlier isKey
      have different : key ≠ pub := by
        rintro rfl
        rw [unknown] at listed
        cases listed
      exact (Table.find_set_of_ne _ _ different).trans listed
    · rw [isPub] at isKey
      cases isKey
      exact Table.find_set_self _ _ _
  · intro k entry found
    rcases getElem?_concat_eq_some.mp found with earlier | ⟨rfl, rfl⟩
    · have listed := indexed.imageListed k entry earlier
      have different : entry.outputKeyImage ≠ td.outputKeyImage := by
        intro same
        rw [same, unknownImage] at listed
        cases listed
      exact (Table.find_set_of_ne _ _ different).trans listed
    · exact Table.find_set_self _ _ _

/-- An output with a new public key has a new key image. -/
theorem Wallet.Distinguishes.image_unknown {o : Nat} (indexed : w.Indexed setup)
    (distinct : w.Distinguishes ((o, info) :: rest))
    (unknown : w.pubKeys.find info.outputKeyPair.pub = none) :
    w.outputKeyImages.find info.ki = none := by
  by_contra found
  obtain ⟨k, isIndex⟩ := Option.ne_none_iff_exists'.mp found
  obtain ⟨old, isOld, same⟩ := indexed.imaged _ _ isIndex
  have isPub := distinct.known o info mem_cons_self old (mem_of_getElem? isOld) same
  rw [indexed.listed k old _ isOld isPub] at unknown
  cases unknown

/-- Recording an accepted output keeps the indices, and the key images tell the public keys apart
among the others. -/
theorem RecordStep.indexed {o : Nat} (honest : setup.Honest encode)
    (step : RecordStep setup call o info w after) (indexed : w.Indexed setup)
    (image : setup.KeyImageOf info.outputKeyPair.pub info.ki)
    (distinct : w.Distinguishes ((o, info) :: rest)) :
    after.Indexed setup ∧ after.Distinguishes rest := by
  have among := fun o info o' info' member member' =>
    distinct.among o info o' info' (mem_cons_of_mem _ member) (mem_cons_of_mem _ member')
  have known := fun o info member => distinct.known o info (mem_cons_of_mem _ member)
  -- the key image of the transfer that was put in is that of this output
  have put : ∀ new : TransferDetails, call.Carries o info new → ∀ o' info', (o', info') ∈ rest →
      new.outputKeyImage = info'.ki → new.publicKey? = some info'.outputKeyPair.pub := by
    intro new carries o' info' member same
    rw [carries.pub, distinct.among o info o' info' mem_cons_self
      (mem_cons_of_mem _ member) (carries.image.symm.trans same)]
  cases step with
  | added td unknown carries unspent isKnown whole =>
    have unknownImage := carries.image ▸ distinct.image_unknown indexed unknown
    refine ⟨indexed.addTransfer carries.pub (carries.image ▸ image) unknown unknownImage,
      fun o' info' member old isOld same => ?_, among⟩
    rcases mem_append.mp isOld with earlier | last
    · exact known o' info' member old earlier same
    · rw [mem_singleton.mp last] at same ⊢
      exact put td carries o' info' member same
  | ignored k td isKnown found covered => exact ⟨indexed, known, among⟩
  | replaced k td new isKnown found unspent larger carries marks kept =>
    obtain ⟨isPub, isImage⟩ := indexed.toSound.keys_of_known honest image isKnown found
    refine ⟨indexed.congr (transferKeys_set found (carries.pub.trans isPub.symm)
      (carries.image.trans isImage.symm)) rfl rfl, fun o' info' member old isOld same => ?_, among⟩
    rcases mem_or_eq_of_mem_set isOld with earlier | rfl
    · exact known o' info' member old earlier same
    · exact put old carries o' info' member same

/-- Recording the accepted outputs keeps the indices. -/
theorem Wallet.Indexed.steps (honest : setup.Honest encode) (indexed : w.Indexed setup)
    (images : ∀ o info, (o, info) ∈ accepted → setup.KeyImageOf info.outputKeyPair.pub info.ki)
    (distinct : w.Distinguishes accepted) (steps : RecordSteps setup call accepted w after) :
    after.Indexed setup := by
  induction steps with
  | nil w => exact indexed
  | cons first others ih =>
    obtain ⟨next, apart⟩ := first.indexed honest indexed (images _ _ mem_cons_self) distinct
    exact ih next (fun o info member => images o info (mem_cons_of_mem _ member)) apart

variable {memory : Nat → ScanMemory} {recorded : Wallet}
  (processed : call.Processed setup memory w after accepted recorded)

include processed

theorem TxCall.Processed.images (o : Nat) (info : TxScanInfo) (member : (o, info) ∈ accepted) :
    setup.KeyImageOf info.outputKeyPair.pub info.ki := by
  obtain ⟨out, -, good⟩ := processed.known o info member
  exact good.image

/-- A call that returned keeps the indices. -/
theorem TxCall.Processed.indexed (honest : setup.Honest encode) (indexed : w.Indexed setup)
    (distinct : w.Distinguishes accepted) : recorded.Indexed setup ∧ after.Indexed setup := by
  have begun : (w.started setup call).Distinguishes accepted := by
    rw [Wallet.started_eq]
    exact ⟨distinct.known, distinct.among⟩
  have recordedIndexed := (indexed.started call).steps honest processed.images begun processed.steps
  exact ⟨recordedIndexed, recordedIndexed.spendAll.filed processed.filed⟩

end Indexed

/-! ## Blocks that were processed -/

namespace WalletSetup

variable {setup : WalletSetup} {memory : Nat → Nat → ScanMemory}

/-- The calls for the transactions of a block behind the reward, with their positions. -/
def txCalls (b : Block) (height : Nat) :
    Nat → List Hash → List Transaction → List (List Nat) → List (Nat × TxCall)
  | i, txid :: txids, tx :: txes, indices :: oIndices =>
    (i, blockCall b height false txid tx indices) ::
      txCalls b height (i + 1) txids txes oIndices
  | _, _, _, _ => []

/-- The calls for the transactions of a block, with their positions. -/
def blockCalls (setup : WalletSetup) (entry : BlockEntry) (height : Nat) : List (Nat × TxCall) :=
  (0, blockCall entry.block height true (setup.env.getTransactionHash entry.block.minerTx)
    entry.block.minerTx (entry.oIndices.head?.getD [])) ::
      txCalls entry.block height 1 entry.block.txHashes entry.txes entry.oIndices.tail

/-- The calls, one after the other. -/
def runCalls (setup : WalletSetup) (memory : Nat → Nat → ScanMemory)
    (calls : List (Nat × TxCall)) : WalletM Unit :=
  Exec.forEach (fun item => setup.processNewTransaction item.2 (memory item.1)) calls

theorem processTransactions_eq {b : Block} {height i : Nat} {txids : List Hash}
    {txes : List Transaction} {oIndices : List (List Nat)} (first : txids.length = txes.length)
    (second : txids.length = oIndices.length) :
    setup.processTransactions memory b height i txids txes oIndices =
      setup.runCalls memory (txCalls b height i txids txes oIndices) := by
  induction txids generalizing i txes oIndices with
  | nil => rfl
  | cons txid txids ih =>
    cases txes with
    | nil => cases first
    | cons tx txes =>
      cases oIndices with
      | nil => cases second
      | cons indices oIndices =>
        rw [processTransactions, ih (Nat.succ.inj first) (Nat.succ.inj second)]
        rfl

/-- A block that was processed: its transactions one after the other, unless it is skipped, and its
hash. -/
theorem processNewBlockchainEntry_ok {entry : BlockEntry} {height : Nat} {w after : Wallet}
    (ran : (setup.processNewBlockchainEntry memory entry height).run w = (.ok (), after)) :
    ∃ middle, after = { middle with blockchain := middle.blockchain.pushBack entry.hash } ∧
      (setup.shouldSkipBlock entry.block height = true ∧ middle = w ∨
        setup.shouldSkipBlock entry.block height = false ∧
          (setup.runCalls memory (setup.blockCalls entry height)).run w = (.ok (), middle)) := by
  obtain ⟨_, start, checked, behind⟩ := bind_eq_ok.mp ran
  obtain ⟨counted, same⟩ := throwIf_eq_ok.mp checked
  subst same
  obtain ⟨_, middle, processed, pushed⟩ := bind_eq_ok.mp behind
  refine ⟨middle, (congrArg Prod.snd pushed).symm, ?_⟩
  cases skipped : setup.shouldSkipBlock entry.block height with
  | true =>
    rw [skipped] at processed
    exact .inl ⟨rfl, (congrArg Prod.snd processed).symm⟩
  | false =>
    refine .inr ⟨rfl, ?_⟩
    rw [skipped] at processed
    obtain ⟨indices, _, isIndices, afterIndices⟩ := bind_eq_ok.mp processed
    obtain ⟨head, same⟩ := unchecked_eq_ok.mp isIndices
    subst same
    obtain ⟨_, rewarded, reward, afterReward⟩ := bind_eq_ok.mp afterIndices
    obtain ⟨_, _, first, afterFirst⟩ := bind_eq_ok.mp afterReward
    obtain ⟨hashes, same⟩ := throwIf_eq_ok.mp first
    subst same
    obtain ⟨_, _, second, afterSecond⟩ := bind_eq_ok.mp afterFirst
    obtain ⟨txes, same⟩ := throwIf_eq_ok.mp second
    subst same
    rw [processTransactions_eq (by omega) (by rw [length_tail]; omega)] at afterSecond
    unfold blockCalls runCalls
    rw [head]
    exact bind_eq_ok.mpr ⟨(), _, reward, afterSecond⟩

end WalletSetup

end Memero
