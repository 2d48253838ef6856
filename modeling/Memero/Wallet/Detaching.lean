import Memero.Wallet.Scanning

/-!
# Detaching blocks

Detaching blocks cuts a suffix off the transfers. If what was scanned above a height has only added
transfers and spent marks to what was there below it, detaching restores the wallet as it was at that
height.
-/

namespace Memero

open List Nat Table WalletM WalletSetup Wallet

open Exec

open Exec (bind_eq_ok)

/-! ## Below a height -/

/-- All that the wallet knows lies below a height, and nothing is waited for. -/
structure Wallet.Settled (h : Nat) (w : Wallet) : Prop where
  heights : ∀ td ∈ w.transfers, td.blockHeight < h
  spent : ∀ td ∈ w.transfers, td.spent = true → td.spentHeight < h
  unspent : ∀ td ∈ w.transfers, td.spent = false → td.spentHeight = 0
  payments : ∀ payment ∈ w.payments, payment.blockHeight < h
  confirmed : ∀ row ∈ w.confirmedTxs, row.2.blockHeight < h
  unsent : w.unconfirmedTxs = []

section Settled

variable {setup : WalletSetup} {call : TxCall} {w after : Wallet} {h : Nat}

theorem Wallet.started_of_unsent (unsent : w.unconfirmedTxs = []) (setup : WalletSetup)
    (call : TxCall) : w.started setup call = w := by
  unfold started processUnconfirmed
  rw [unsent]
  split <;> rfl

theorem Wallet.Settled.mono (settled : w.Settled h) {other : Nat} (higher : h ≤ other) :
    w.Settled other :=
  { settled with
    heights := fun td member => lt_of_lt_of_le (settled.heights td member) higher
    spent := fun td member isSpent => lt_of_lt_of_le (settled.spent td member isSpent) higher
    payments := fun payment member => lt_of_lt_of_le (settled.payments payment member) higher
    confirmed := fun row member => lt_of_lt_of_le (settled.confirmed row member) higher }

/-- The transfers of a settled wallet with one put in. -/
theorem Wallet.Settled.transfers (settled : w.Settled h) {transfers : List TransferDetails}
    (new : TransferDetails) (members : ∀ td ∈ transfers, td ∈ w.transfers ∨ td = new)
    (height : new.blockHeight < h) (spent : new.spent = true → new.spentHeight < h)
    (unspent : new.spent = false → new.spentHeight = 0) (images : Table KeyImage Nat)
    (pubKeys : Table EcPoint Nat) (book : SubaddressBook) :
    Settled h
      { w with
        transfers := transfers, outputKeyImages := images, pubKeys := pubKeys, book := book } where
  heights := by
    intro td member
    rcases members td member with old | rfl
    · exact settled.heights td old
    · exact height
  spent := by
    intro td member
    rcases members td member with old | rfl
    · exact settled.spent td old
    · exact spent
  unspent := by
    intro td member
    rcases members td member with old | rfl
    · exact settled.unspent td old
    · exact unspent
  payments := settled.payments
  confirmed := settled.confirmed
  unsent := settled.unsent

variable {accepted : List (Nat × TxScanInfo)}

theorem RecordSteps.settled (below : call.height < h)
    (steps : RecordSteps setup call accepted w after) (settled : w.Settled h) :
    after.Settled h := by
  induction steps with
  | nil w => exact settled
  | @cons o info rest w middle after first others ih =>
    apply ih
    cases first with
    | added td unknown carries unspent known whole =>
      refine settled.transfers td ?_ (carries.height ▸ below) ?_ (fun _ => unspent.2) _ _ _
      · intro other member
        rcases mem_append.mp member with old | new
        · exact .inl old
        · exact .inr (mem_singleton.mp new)
      · intro isSpent
        rw [unspent.1] at isSpent
        cases isSpent
    | ignored k td known found covered => exact settled
    | replaced k td new known found unspent larger carries marks kept =>
      refine settled.transfers new (fun other member => mem_or_eq_of_mem_set member)
        (carries.height ▸ below) ?_ ?_ _ _ _
      · intro isSpent
        rw [marks.2]
        exact settled.spent td (mem_of_getElem? found) (marks.1.symm.trans isSpent)
      · intro isUnspent
        rw [marks.2]
        exact settled.unspent td (mem_of_getElem? found) (marks.1.symm.trans isUnspent)

theorem TxCall.spend_of_chain (chain : call.pool = false) (input : TxinFromKey)
    (td : TransferDetails) :
    call.spend input td =
      { td with
        amount := TxCall.spentAmount input td, spent := true, spentHeight := call.height } :=
  if_neg (by rw [chain]; decide)

theorem Wallet.Settled.spendAll (chain : call.pool = false) (below : call.height < h)
    (settled : w.Settled h) : (w.spendAll call).Settled h := by
  unfold Wallet.spendAll
  induction call.tx.vin generalizing w with
  | nil => exact settled
  | cons input rest ih =>
    apply ih
    cases input with
    | gen height => exact settled
    | fromKey input =>
      rw [spend]
      split
      · exact settled
      · split
        · exact settled
        · rename_i td found
          rw [TxCall.spend_of_chain chain]
          refine settled.transfers _ (fun other member => mem_or_eq_of_mem_set member)
            ?_ (fun _ => below) ?_ _ _ _
          · exact settled.heights td (mem_of_getElem? found)
          · intro isUnspent
            cases isUnspent

theorem Wallet.Settled.filed (below : call.height < h) (settled : w.Settled h)
    (filed : Filed call w after) : after.Settled h := by
  obtain ⟨confirmed, ⟨made, heights, payments⟩, others⟩ := filed
  rw [others]
  refine ⟨settled.heights, settled.spent, settled.unspent, ?_, ?_, settled.unsent⟩
  · intro payment member
    rw [payments] at member
    rcases mem_append.mp member with old | new
    · exact settled.payments payment old
    · exact heights payment new ▸ below
  · intro row member
    rcases confirmed with same | ⟨entry, height, set⟩
    · rw [same] at member
      exact settled.confirmed row member
    · rw [set] at member
      rcases mem_put.mp member with rfl | old
      · exact height ▸ below
      · exact settled.confirmed row (mem_of_mem_remove old)

/-- A transaction below a height leaves the wallet settled there. -/
theorem TxCall.Processed.settled {memory : Nat → ScanMemory} {recorded : Wallet}
    (processed : call.Processed setup memory w after accepted recorded) (chain : call.pool = false)
    (below : call.height < h) (settled : w.Settled h) : after.Settled h := by
  have steps := processed.steps
  rw [started_of_unsent settled.unsent] at steps
  exact ((steps.settled below settled).spendAll chain below).filed below processed.filed

end Settled

/-! ## Above a height -/

/-- The transfer `m` is `b`, or was spent since, at the height `h` or above. -/
def TransferDetails.Marked (h : Nat) (b m : TransferDetails) : Prop :=
  m = b ∨ b.spent = false ∧ ∃ height, h ≤ height ∧ m = b.setSpent height

/-- The wallet `w` is `base` with what was scanned from the height `h` on: spent marks on the
transfers that are kept, and transfers that are added. -/
structure Wallet.Above (h : Nat) (base : Wallet) (kept added : List TransferDetails) (w : Wallet) :
    Prop where
  transfers : w.transfers = kept ++ added
  marked : List.Forall₂ (TransferDetails.Marked h) base.transfers kept
  later : ∀ td ∈ added, h ≤ td.blockHeight ∧ td.outputKeyImageKnown = true ∧
    td.outputKeyImagePartial = false
  images : w.outputKeyImages.without (added.map fun td => some td.outputKeyImage) =
    base.outputKeyImages
  pubKeys : w.pubKeys.without (added.map TransferDetails.publicKey?) = base.pubKeys
  payments : w.payments.filter (fun payment => ! decide (h ≤ payment.blockHeight)) = base.payments
  confirmed : w.confirmedTxs.filter (fun row => ! decide (h ≤ row.2.blockHeight)) =
    base.confirmedTxs
  chain : ∃ hashes, w.blockchain =
    { base.blockchain with blockchain := base.blockchain.blockchain ++ hashes }
  others : w.book = base.book ∧ w.unconfirmedTxs = base.unconfirmedTxs ∧
    w.unconfirmedPayments = base.unconfirmedPayments

theorem Wallet.Settled.above {h : Nat} {w : Wallet} (settled : w.Settled h) :
    Above h w w.transfers [] w := by
  refine ⟨(append_nil _).symm, forall₂_same.mpr fun td _ => .inl rfl, by simp,
    without_nil _, without_nil _, ?_, ?_, ⟨[], by rw [append_nil]⟩, rfl, rfl, rfl⟩
  · refine filter_eq_self.mpr fun payment member => ?_
    simp [settled.payments payment member]
  · refine filter_eq_self.mpr fun row member => ?_
    simp [settled.confirmed row member]

section Detach

variable {setup : WalletSetup} {base w : Wallet} {kept added : List TransferDetails} {h : Nat}
variable {α : Type} {items : List α} {td : TransferDetails}

/-- A loop that takes the key of each item out of a table, if all keys are there. -/
theorem forEach_remove {κ : Type} [DecidableEq κ] (part : Wallet → Table κ Nat)
    (update : Table κ Nat → Wallet → Wallet) (read : ∀ table w, part (update table w) = table)
    (keep : ∀ w, update (part w) w = w)
    (again : ∀ first second w, update first (update second w) = update first w)
    {body : α → WalletM Unit} (key : α → Option κ)
    (step : ∀ item ∈ items, ∀ k w, key item = some k → (part w).find k ≠ none → (body item).run w = (.ok (), update ((part w).remove k) w))
    (unique : (items.map key).Nodup) (w : Wallet)
    (found : ∀ item ∈ items, ∃ k, key item = some k ∧ (part w).find k ≠ none) :
    (forEach body items).run w = (.ok (), update ((part w).without (items.map key)) w) := by
  induction items generalizing w with
  | nil =>
    rw [map_nil, without_nil, keep]
    rfl
  | cons item rest ih =>
    rw [map_cons, nodup_cons] at unique
    obtain ⟨k, isKey, present⟩ := found item mem_cons_self
    have others : ∀ other ∈ rest, ∃ k', key other = some k' ∧
        (part (update ((part w).remove k) w)).find k' ≠ none := by
      intro other member
      obtain ⟨k', isOther, there⟩ := found other (mem_cons_of_mem _ member)
      have different : k' ≠ k := by
        rintro rfl
        exact unique.1 (isKey ▸ isOther ▸ mem_map_of_mem member)
      refine ⟨k', isOther, ?_⟩
      rw [read, find_remove_of_ne _ different]
      exact there
    rw [forEach, bind_ok (step item mem_cons_self k w isKey present),
      ih (fun other member => step other (mem_cons_of_mem _ member)) unique.2 _ others, read,
      again, map_cons, isKey, without_cons]

/-- Keys that tell where their items stand are pairwise different. -/
theorem nodup_map_of_index {κ : Type} {read : α → κ} (index : κ → Option Nat)
    (listed : ∀ k item, items[k]? = some item → index (read item) = some k) :
    (items.map read).Nodup := by
  rw [nodup_iff_getElem?_ne_getElem?]
  intro i j less below same
  rw [length_map] at below
  have second := getElem?_eq_getElem below
  have first := getElem?_eq_getElem (lt_trans less below)
  rw [getElem?_map, getElem?_map, first, second] at same
  have found := listed i _ first
  rw [show read _ = read _ from Option.some.inj same, listed j _ second] at found
  exact ne_of_gt less (Option.some.inj found)

/-- What the first loop does to a transfer. -/
def TransferDetails.reset (h : Nat) (td : TransferDetails) : TransferDetails :=
  if td.spent ∧ h ≤ td.spentHeight then td.setUnspent else td

theorem Wallet.transfers_resetSpent (w : Wallet) (h : Nat) :
    (w.resetSpent h).transfers = w.transfers.map (TransferDetails.reset h) := rfl

/-- The first loop leaves what the others read. -/
theorem TransferDetails.reset_keeps (h : Nat) (td : TransferDetails) :
    ∃ spent height, td.reset h = { td with spent := spent, spentHeight := height } := by
  unfold TransferDetails.reset
  split
  · exact ⟨_, _, rfl⟩
  · exact ⟨_, _, rfl⟩

/-- The first loop takes the marks off. -/
theorem reset_marked {transfers : List TransferDetails}
    (spent : ∀ td ∈ transfers, td.spent = true → td.spentHeight < h)
    (unspent : ∀ td ∈ transfers, td.spent = false → td.spentHeight = 0)
    (marked : Forall₂ (TransferDetails.Marked h) transfers kept) :
    kept.map (TransferDetails.reset h) = transfers := by
  induction marked with
  | nil => rfl
  | @cons b m transfers kept first others ih =>
    rw [map_cons, ih (fun td member => spent td (mem_cons_of_mem _ member))
      (fun td member => unspent td (mem_cons_of_mem _ member))]
    congr 1
    rcases first with rfl | ⟨isUnspent, height, above, rfl⟩
    · refine if_neg fun marked => ?_
      exact not_lt.mpr marked.2 (spent _ mem_cons_self marked.1)
    · have zero := unspent b mem_cons_self isUnspent
      rw [TransferDetails.reset, if_pos ⟨rfl, above⟩]
      show { b with spent := false, spentHeight := 0 } = b
      rw [← isUnspent, ← zero]

theorem eraseImage_run (known : td.outputKeyImageKnown = true)
    (whole : td.outputKeyImagePartial = false) (w : Wallet)
    (found : w.outputKeyImages.find td.outputKeyImage ≠ none) :
    (eraseImage td).run w =
      (.ok (), { w with outputKeyImages := w.outputKeyImages.remove td.outputKeyImage }) := by
  rw [eraseImage, when_of ⟨known, whole⟩, get_bind_run,
    throwIf_of_not found]
  rfl

theorem erasePubKey_run {pub : EcPoint} (isPub : td.publicKey? = some pub) (w : Wallet)
    (found : w.pubKeys.find pub ≠ none) :
    (erasePubKey td).run w = (.ok (), { w with pubKeys := w.pubKeys.remove pub }) := by
  rw [erasePubKey, isPub]
  simp only [unchecked, pure_bind_run, get_bind_run]
  rw [throwIf_of_not found]
  rfl

theorem map_congr_reset {read : TransferDetails → α}
    (same : ∀ td spent height, read { td with spent := spent, spentHeight := height } = read td)
    (h : Nat) (transfers : List TransferDetails) :
    (transfers.map (TransferDetails.reset h)).map read = transfers.map read := by
  rw [map_map]
  refine map_congr_left fun td _ => ?_
  obtain ⟨spent, height, isReset⟩ := td.reset_keeps h
  rw [Function.comp_apply, isReset, same]

/-- The loops over what is dropped take its key images and public keys out of the tables. -/
theorem erase_run (indexed : w.Indexed setup) (transfers : w.transfers = kept ++ added)
    (later : ∀ td ∈ added, td.outputKeyImageKnown = true ∧ td.outputKeyImagePartial = false) :
    (forEach eraseImage added >>= fun _ =>
        forEach erasePubKey added).run w =
      (.ok (),
        { w with
          outputKeyImages :=
            w.outputKeyImages.without (added.map fun td => some td.outputKeyImage)
          pubKeys := w.pubKeys.without (added.map TransferDetails.publicKey?) }) := by
  have member : ∀ td ∈ added, td ∈ w.transfers := by
    intro td isAdded
    rw [transfers]
    exact mem_append_right _ isAdded
  have pub : ∀ td ∈ added, ∃ pub, td.publicKey? = some pub ∧ w.pubKeys.find pub ≠ none := by
    intro td isAdded
    obtain ⟨k, isK⟩ := getElem?_of_mem (member td isAdded)
    obtain ⟨pub, isPub, -⟩ := indexed.images td (member td isAdded)
    refine ⟨pub, isPub, ?_⟩
    rw [indexed.listed k td pub isK isPub]
    exact Option.some_ne_none k
  have images : (w.transfers.map fun td => some td.outputKeyImage).Nodup :=
    nodup_map_of_index (·.bind w.outputKeyImages.find) indexed.imageListed
  have pubs : (w.transfers.map TransferDetails.publicKey?).Nodup := by
    refine nodup_map_of_index (·.bind w.pubKeys.find) fun k td found => ?_
    obtain ⟨pub, isPub, -⟩ := indexed.images td (mem_of_getElem? found)
    rw [isPub]
    exact indexed.listed k td pub found isPub
  rw [transfers, map_append] at images pubs
  have first : (forEach eraseImage added).run w =
      (.ok (),
        { w with
          outputKeyImages :=
            w.outputKeyImages.without (added.map fun td => some td.outputKeyImage) }) := by
    refine forEach_remove outputKeyImages (fun table w => { w with outputKeyImages := table })
      (fun _ _ => rfl) (fun _ => rfl) (fun _ _ _ => rfl)
      (fun td : TransferDetails => some td.outputKeyImage) ?_ ?_ w ?_
    · rintro td isAdded _ w ⟨⟩ found
      exact eraseImage_run (later td isAdded).1 (later td isAdded).2 w found
    · exact images.of_append_right
    · intro td isAdded
      obtain ⟨k, isK⟩ := getElem?_of_mem (member td isAdded)
      refine ⟨_, rfl, ?_⟩
      rw [indexed.imageListed k td isK]
      exact Option.some_ne_none k
  rw [bind_ok first]
  have second := forEach_remove pubKeys (fun table w => { w with pubKeys := table })
    (fun _ _ => rfl) (fun _ => rfl) (fun _ _ _ => rfl) TransferDetails.publicKey?
    (fun td _ pub w isPub found => erasePubKey_run isPub w found) pubs.of_append_right
  exact second _ pub

/-- The first transfer that is not kept. -/
theorem Wallet.firstAt_eq (transfers : w.transfers = kept ++ added)
    (below : ∀ td ∈ kept, td.blockHeight < h) (later : ∀ td ∈ added, h ≤ td.blockHeight) :
    w.firstAt h = kept.length := by
  have skipped : kept.findIdx (fun td => decide (h ≤ td.blockHeight)) = kept.length := by
    refine findIdx_eq_length.mpr fun td member => ?_
    exact decide_eq_false (not_le.mpr (below td member))
  rw [firstAt, transfers, findIdx_append, skipped, if_neg (lt_irrefl _)]
  cases added with
  | nil => exact zero_add _
  | cons td rest =>
    rw [findIdx_cons, decide_eq_true (later td mem_cons_self), cond_true, zero_add]

/-- What was cut off a chain of hashes. -/
theorem HashChain.crop_append {chain longer : HashChain} {hashes : List Hash}
    (same : longer = { chain with blockchain := chain.blockchain ++ hashes }) :
    longer.crop chain.size = chain := by
  have size : chain.size - chain.offset = chain.blockchain.length := Nat.add_sub_cancel _ _
  rw [HashChain.crop, same]
  rw [size, List.take_left, Nat.sub_eq_zero_of_le (by simp), List.replicate_zero, List.append_nil]

/-- Detaching restores the wallet as it was at the height. -/
theorem detachBlockchain_above (indexed : w.Indexed setup)
    (settled : base.Settled base.blockchain.size)
    (above : Above base.blockchain.size base kept added w) :
    (detachBlockchain base.blockchain.size).run w = (.ok (), base) := by
  obtain ⟨hashes, chain⟩ := above.chain
  have offset : w.blockchain.offset = base.blockchain.offset := by rw [chain]
  have reach : ¬ (base.blockchain.size < w.blockchain.offset ∧
      w.blockchain.offset < w.blockchain.size) := by
    rw [offset]
    exact fun both => not_lt.mpr (le_add_left _ _) both.1
  generalize level : base.blockchain.size = h at *
  have transfers : (w.resetSpent h).transfers =
      base.transfers ++ added.map (TransferDetails.reset h) := by
    rw [transfers_resetSpent, above.transfers, map_append,
      reset_marked settled.spent settled.unspent above.marked]
  have later : ∀ td ∈ added.map (TransferDetails.reset h), h ≤ td.blockHeight ∧
      td.outputKeyImageKnown = true ∧ td.outputKeyImagePartial = false := by
    intro td member
    obtain ⟨old, isOld, rfl⟩ := mem_map.mp member
    obtain ⟨spent, height, isReset⟩ := old.reset_keeps h
    rw [isReset]
    exact above.later old isOld
  have first : (w.resetSpent h).firstAt h = base.transfers.length :=
    firstAt_eq transfers settled.heights fun td member => (later td member).1
  have again : (w.resetSpent h).Indexed setup := by
    refine indexed.congr ?_ rfl rfl
    exact map_congr_reset (fun td spent height => rfl) h w.transfers
  rw [detachBlockchain, get_bind_run, throwIf_of_not reach, pure_bind_run,
    modify_bind_run, get_bind_run]
  have dropped : (w.resetSpent h).transfers.drop ((w.resetSpent h).firstAt h) =
      added.map (TransferDetails.reset h) := by
    rw [transfers, first, drop_left]
  obtain ⟨_, middle, images, pubKeys⟩ := bind_eq_ok.mp
    (erase_run again transfers fun td member => (later td member).2)
  rw [dropped, bind_ok images, bind_ok pubKeys,
    map_congr_reset (fun td spent height => rfl), map_congr_reset (fun td spent height => rfl)]
  refine congrArg (Prod.mk _) (Wallet.ext ?_ ?_ ?_ ?_ ?_ ?_ ?_ ?_ ?_)
  · rw [← level]
    exact HashChain.crop_append chain
  · show (w.resetSpent h).transfers.take ((w.resetSpent h).firstAt h) = base.transfers
    rw [transfers, first, take_left]
  · exact above.images
  · exact above.pubKeys
  · exact above.others.2.1
  · exact above.confirmed
  · exact above.payments
  · exact above.others.2.2
  · exact above.others.1


end Detach

section Scanned

variable {Γ : Type} [AddCommGroup Γ] {setup : WalletSetup} {encode : Γ → EcPoint} {call : TxCall}
  {base w after : Wallet} {kept added : List TransferDetails} {h : Nat}
variable {k : Nat} {input : TxinFromKey} {inputs : List TxIn}

theorem forall₂_getElem? {α β : Type} {related : α → β → Prop} {left : List α} {right : List β}
    (pairs : Forall₂ related left right) {b : β} (found : right[k]? = some b) :
    ∃ a, left[k]? = some a ∧ related a b := by
  induction pairs generalizing k with
  | nil => cases found
  | cons first others ih =>
    cases k with
    | zero =>
      cases found
      exact ⟨_, rfl, first⟩
    | succ k => exact ih found

theorem forall₂_set {α β : Type} {related : α → β → Prop} {left : List α} {right : List β}
    (pairs : Forall₂ related left right) {b : β} (new : ∀ a, left[k]? = some a → related a b) :
    Forall₂ related left (right.set k b) := by
  induction pairs generalizing k with
  | nil => exact .nil
  | cons first others ih =>
    cases k with
    | zero => exact .cons (new _ rfl) others
    | succ k => exact .cons first (ih new)

variable {td : TransferDetails}

/-- A kept transfer comes from one below the height. -/
theorem Wallet.Above.origin (above : Above h base kept added w) (member : td ∈ kept) :
    ∃ b ∈ base.transfers, TransferDetails.Marked h b td := by
  obtain ⟨k, found⟩ := getElem?_of_mem member
  obtain ⟨b, isOld, marked⟩ := forall₂_getElem? above.marked found
  exact ⟨b, mem_of_getElem? isOld, marked⟩

theorem Wallet.Above.kept_lt (settled : base.Settled h) (above : Above h base kept added w)
    (member : td ∈ kept) : td.blockHeight < h := by
  obtain ⟨b, isOld, rfl | ⟨-, height, -, rfl⟩⟩ := above.origin member
  · exact settled.heights _ isOld
  · exact settled.heights b isOld

/-- The index of a transfer among those that are kept, or behind them. -/
theorem Wallet.Above.getElem? (above : Above h base kept added w)
    (found : w.transfers[k]? = some td) :
    kept[k]? = some td ∧ (∀ new, w.transfers.set k new = kept.set k new ++ added) ∨
      ∃ j, added[j]? = some td ∧ ∀ new, w.transfers.set k new = kept ++ added.set j new := by
  rw [above.transfers] at found ⊢
  by_cases early : k < kept.length
  · rw [getElem?_append_left early] at found
    exact .inl ⟨found, fun new => set_append_left _ _ early⟩
  · have late := not_lt.mp early
    rw [getElem?_append_right late] at found
    exact .inr ⟨k - kept.length, found, fun new => set_append_right _ _ late⟩

/-- What overwrites a transfer that is not kept. -/
theorem Wallet.Above.set_added (above : Above h base kept added w) {j : Nat}
    {new : TransferDetails} (found : added[j]? = some td) {transfers : List TransferDetails}
    (same : transfers = kept ++ added.set j new) (height : h ≤ new.blockHeight)
    (pub : new.publicKey? = td.publicKey?) (image : new.outputKeyImage = td.outputKeyImage)
    (flags : new.outputKeyImageKnown = td.outputKeyImageKnown ∧
      new.outputKeyImagePartial = td.outputKeyImagePartial) :
    Above h base kept (added.set j new) { w with transfers := transfers } := by
  have old := above.later td (mem_of_getElem? found)
  have keys : ∀ {α : Type} (read : TransferDetails → α), read new = read td →
      (added.set j new).map read = added.map read := by
    intro α read equal
    obtain ⟨below, isOld⟩ := List.getElem?_eq_some_iff.mp found
    refine ext_getElem (by simp) fun i _ _ => ?_
    rw [getElem_map, getElem_map, getElem_set]
    split
    · rename_i here
      subst here
      rw [equal, isOld]
    · rfl
  refine ⟨same, above.marked, ?_, ?_, ?_, above.payments, above.confirmed, above.chain, above.others⟩
  · intro other member
    rcases mem_or_eq_of_mem_set member with earlier | rfl
    · exact above.later other earlier
    · exact ⟨height, flags.1.trans old.2.1, flags.2.trans old.2.2⟩
  · rw [keys (fun td => some td.outputKeyImage) (congrArg some image)]
    exact above.images
  · rw [keys _ pub]
    exact above.pubKeys

/-- An index that has a label. -/
def SubaddressBook.Labels (book : SubaddressBook) (index : SubaddressIndex) : Prop :=
  ∃ account, book.labels[index.major]? = some account ∧ index.minor < account.length

theorem SubaddressBook.receive_of_labels {book : SubaddressBook} {index : SubaddressIndex}
    (labels : book.Labels index) (sodium : Sodium) (sha3 : List UInt8 → Hash)
    (keys : SpendViewSecretKeys) : book.receive sodium sha3 keys index = book := by
  obtain ⟨account, found, below⟩ := labels
  unfold SubaddressBook.receive SubaddressBook.expandSubaddresses
  rw [found]
  dsimp only
  rw [if_neg (not_le.mpr below), ite_self]

/-- An output that leaves the kept transfers and the table of subaddresses as they are. -/
structure TxScanInfo.Revocable (base : Wallet) (kept : List TransferDetails) (info : TxScanInfo) :
    Prop where
  smaller : ∀ td ∈ kept, td.publicKey? = some info.outputKeyPair.pub →
    td.spent = true ∨ info.amount ≤ td.amount
  labelled : ∀ index, info.received.map SubaddressReceiveInfo.index = some index →
    base.book.Labels index

theorem RecordStep.above {o : Nat} {info : TxScanInfo} {rest : List (Nat × TxScanInfo)}
    (honest : setup.Honest encode) (step : RecordStep setup call o info w after)
    (indexed : w.Indexed setup) (image : setup.KeyImageOf info.outputKeyPair.pub info.ki)
    (distinct : w.Distinguishes ((o, info) :: rest)) (high : h ≤ call.height)
    (revocable : info.Revocable base kept) (above : Above h base kept added w) :
    ∃ added, Above h base kept added after := by
  have book : ∀ td, call.Carries o info td →
      w.book.receive setup.env.toSodium setup.sha3 setup.keys td.subaddrIndex = w.book := by
    intro td carries
    rw [above.others.1]
    exact SubaddressBook.receive_of_labels (revocable.labelled _ carries.index) _ _ _
  cases step with
  | added td unknown carries unspent known whole =>
    have unknownImage := distinct.image_unknown indexed unknown
    refine ⟨added ++ [td], ?_, above.marked, ?_, ?_, ?_, above.payments, above.confirmed,
      above.chain, (book td carries).trans above.others.1, above.others.2⟩
    · rw [← append_assoc, ← above.transfers]
      rfl
    · intro other member
      rcases mem_append.mp member with earlier | last
      · exact above.later other earlier
      · rw [mem_singleton.mp last]
        exact ⟨carries.height ▸ high, known, whole⟩
    · rw [map_append, ← above.images]
      exact without_set _ (carries.image ▸ unknownImage) _ _
    · rw [map_append, map_singleton, carries.pub, ← above.pubKeys]
      exact without_set _ unknown _ _
  | ignored k td known found covered => exact ⟨added, above⟩
  | replaced k td new known found unspent larger carries marks flags =>
    obtain ⟨isPub, isImage⟩ := indexed.toSound.keys_of_known honest image known found
    rcases above.getElem? found with ⟨isKept, -⟩ | ⟨j, isAdded, set⟩
    · exfalso
      rcases revocable.smaller td (mem_of_getElem? isKept) isPub with spent | smaller
      · rw [unspent] at spent
        cases spent
      · exact not_lt.mpr smaller larger
    · have next := above.set_added isAdded (set new) (carries.height ▸ high)
        (carries.pub.trans isPub.symm) (carries.image.trans isImage.symm) flags
      refine ⟨added.set j new, next.transfers, next.marked, next.later, next.images, next.pubKeys,
        next.payments, next.confirmed, next.chain, (book new carries).trans above.others.1,
        above.others.2⟩

variable {accepted : List (Nat × TxScanInfo)}

theorem RecordSteps.above (honest : setup.Honest encode)
    (steps : RecordSteps setup call accepted w after) (indexed : w.Indexed setup)
    (images : ∀ o info, (o, info) ∈ accepted → setup.KeyImageOf info.outputKeyPair.pub info.ki)
    (distinct : w.Distinguishes accepted) (high : h ≤ call.height)
    (revocable : ∀ o info, (o, info) ∈ accepted → info.Revocable base kept)
    (above : Above h base kept added w) : ∃ added, Above h base kept added after := by
  induction steps generalizing added with
  | nil w => exact ⟨added, above⟩
  | cons first others ih =>
    have image := images _ _ mem_cons_self
    obtain ⟨next, apart⟩ := first.indexed honest indexed image distinct
    obtain ⟨more, further⟩ := first.above honest indexed image distinct high
      (revocable _ _ mem_cons_self) above
    exact ih next (fun o info member => images o info (mem_cons_of_mem _ member)) apart
      (fun o info member => revocable o info (mem_cons_of_mem _ member)) further

/-- An input that only marks a transfer. -/
def TxinFromKey.Marks (h : Nat) (input : TxinFromKey) (td : TransferDetails) : Prop :=
  (td.spent = true → h ≤ td.spentHeight) ∧ (input.amount = 0 ∨ input.amount = td.amount)

theorem TxinFromKey.Marks.spend (marks : input.Marks h td) (chain : call.pool = false) :
    call.spend input td = td.setSpent call.height := by
  have amount : TxCall.spentAmount input td = td.amount := by
    unfold TxCall.spentAmount
    rcases marks.2 with zero | same
    · rw [zero, if_neg (lt_irrefl 0)]
    · rw [same, ite_self]
  rw [TxCall.spend_of_chain chain, amount]
  rfl

theorem TransferDetails.Marked.spend {b : TransferDetails}
    (spent : b.spent = true → b.spentHeight < h) (marked : TransferDetails.Marked h b td)
    (marks : input.Marks h td) (high : h ≤ call.height) :
    TransferDetails.Marked h b (td.setSpent call.height) := by
  rcases marked with rfl | ⟨isUnspent, height, -, rfl⟩
  · refine .inr ⟨?_, call.height, high, rfl⟩
    by_contra isSpent
    have isSpent : td.spent = true := Bool.not_eq_false _ ▸ isSpent
    exact not_lt.mpr (marks.1 isSpent) (spent isSpent)
  · exact .inr ⟨isUnspent, call.height, high, rfl⟩

/-- The inputs that only mark what is kept. -/
def KeptMarks (h : Nat) (kept : List TransferDetails) (inputs : List TxIn) : Prop :=
  ∀ input, TxIn.fromKey input ∈ inputs → ∀ td ∈ kept, td.outputKeyImage = input.outputKeyImage →
    input.Marks h td

theorem KeptMarks.set (marks : KeptMarks h kept inputs) (found : kept[k]? = some td)
    (high : h ≤ call.height) : KeptMarks h (kept.set k (td.setSpent call.height)) inputs := by
  intro input isInput other member same
  rcases mem_or_eq_of_mem_set member with earlier | rfl
  · exact marks input isInput other earlier same
  · exact ⟨fun _ => high, (marks input isInput td (mem_of_getElem? found) same).2⟩

theorem Wallet.Above.spend (sound : w.Sound setup) (settled : base.Settled h)
    (chain : call.pool = false) (high : h ≤ call.height) {input : TxIn} (isInput : input ∈ inputs)
    (marks : KeptMarks h kept inputs) (above : Above h base kept added w) :
    ∃ kept added, Above h base kept added (w.spend call input) ∧ KeptMarks h kept inputs := by
  cases input with
  | gen height => exact ⟨kept, added, above, marks⟩
  | fromKey input =>
    rw [Wallet.spend]
    split
    · exact ⟨kept, added, above, marks⟩
    · rename_i k isIndex
      obtain ⟨td, found, image⟩ := sound.imaged _ _ isIndex
      rw [found]
      dsimp only
      rcases above.getElem? found with ⟨isKept, set⟩ | ⟨j, isAdded, set⟩
      · have member := mem_of_getElem? isKept
        have mark := marks input isInput td member image
        rw [mark.spend chain]
        refine ⟨kept.set k (td.setSpent call.height), added, ⟨set _, ?_, above.later, above.images,
          above.pubKeys, above.payments, above.confirmed, above.chain, above.others⟩,
          marks.set isKept high⟩
        refine forall₂_set above.marked fun b isOld => ?_
        obtain ⟨old, isSame, marked⟩ := forall₂_getElem? above.marked isKept
        rw [isOld] at isSame
        cases isSame
        exact marked.spend (settled.spent b (mem_of_getElem? isOld)) mark high
      · rw [TxCall.spend_of_chain chain]
        exact ⟨kept, added.set j _, above.set_added isAdded (set _)
          (above.later td (mem_of_getElem? isAdded)).1 rfl rfl ⟨rfl, rfl⟩, marks⟩

theorem Wallet.Above.spendAll (indexed : w.Indexed setup) (settled : base.Settled h)
    (chain : call.pool = false) (high : h ≤ call.height) (marks : KeptMarks h kept call.tx.vin)
    (above : Above h base kept added w) :
    ∃ kept added, Above h base kept added (w.spendAll call) := by
  -- the inputs that are left are inputs of the transaction
  have loop : ∀ rest : List TxIn, (∀ input ∈ rest, input ∈ call.tx.vin) → ∀ w kept added,
      w.Indexed setup → KeptMarks h kept call.tx.vin → Above h base kept added w →
        ∃ kept added, Wallet.Above h base kept added (rest.foldl (Wallet.spend call) w) := by
    intro rest
    induction rest with
    | nil => exact fun _ w kept added _ _ above => ⟨kept, added, above⟩
    | cons input rest ih =>
      intro inputs w kept added indexed marks above
      obtain ⟨kept, added, next, further⟩ := above.spend indexed.toSound settled chain high
        (inputs input mem_cons_self) marks
      exact ih (fun other member => inputs other (mem_cons_of_mem _ member)) _ kept added
        (indexed.spend input) further next
  exact loop call.tx.vin (fun _ member => member) w kept added indexed marks above

theorem Wallet.Above.filed (high : h ≤ call.height)
    (unfiled : ∀ row ∈ base.confirmedTxs, row.1 ≠ call.txid)
    (filed : Filed call w after) (above : Above h base kept added w) :
    Above h base kept added after := by
  obtain ⟨confirmed, ⟨made, heights, payments⟩, others⟩ := filed
  rw [others]
  refine ⟨above.transfers, above.marked, above.later, above.images, above.pubKeys, ?_, ?_,
    above.chain, above.others⟩
  · have none : made.filter (fun payment => ! decide (h ≤ payment.blockHeight)) = [] := by
      refine filter_eq_nil_iff.mpr fun payment member => ?_
      rw [heights payment member, decide_eq_true high]
      exact Bool.false_ne_true
    rw [payments, filter_append, none, append_nil]
    exact above.payments
  · rcases confirmed with same | ⟨entry, height, set⟩
    · rw [same]
      exact above.confirmed
    · rw [set, ← above.confirmed, Table.set, Table.put, Table.remove,
        filter_cons_of_neg (by simp [height, high]), filter_filter]
      refine filter_congr fun row member => ?_
      by_cases early : h ≤ row.2.blockHeight
      · simp [early]
      · have old : row ∈ base.confirmedTxs := by
          rw [← above.confirmed]
          exact mem_filter.mpr ⟨member, by simp [early]⟩
        simp [unfiled row old]

/-- A transaction leaves what lies below a height as it is: no output is larger than a kept transfer
with its public key that is not spent, nothing is received at a new subaddress, an input spends a kept
transfer once and does not give it another amount, and the hash is new. -/
structure Wallet.Revocable (h : Nat) (w : Wallet) (call : TxCall)
    (accepted : List (Nat × TxScanInfo)) : Prop where
  distinct : w.Distinguishes accepted
  smaller : ∀ o info, (o, info) ∈ accepted → ∀ td ∈ w.transfers, td.blockHeight < h →
    td.publicKey? = some info.outputKeyPair.pub → td.spent = true ∨ info.amount ≤ td.amount
  labelled : ∀ o info, (o, info) ∈ accepted →
    ∀ index, info.received.map SubaddressReceiveInfo.index = some index → w.book.Labels index
  inputs : ∀ input, TxIn.fromKey input ∈ call.tx.vin → ∀ td ∈ w.transfers, td.blockHeight < h →
    td.outputKeyImage = input.outputKeyImage → input.Marks h td
  unfiled : ∀ row ∈ w.confirmedTxs, row.2.blockHeight < h → row.1 ≠ call.txid

theorem TxCall.Processed.above {memory : Nat → ScanMemory} {recorded : Wallet}
    (processed : call.Processed setup memory w after accepted recorded)
    (honest : setup.Honest encode) (chain : call.pool = false) (high : h ≤ call.height)
    (settled : base.Settled h) (indexed : w.Indexed setup) (revocable : w.Revocable h call accepted)
    (above : Above h base kept added w) :
    ∃ kept added, Above h base kept added after := by
  have keptMember : ∀ td ∈ kept, td ∈ w.transfers := by
    intro td member
    rw [above.transfers]
    exact mem_append_left _ member
  have small : ∀ o info, (o, info) ∈ accepted → info.Revocable base kept := by
    intro o info member
    refine ⟨fun td isKept => ?_, fun index isIndex => ?_⟩
    · exact revocable.smaller o info member td (keptMember td isKept) (above.kept_lt settled isKept)
    · rw [← above.others.1]
      exact revocable.labelled o info member index isIndex
  have marks : KeptMarks h kept call.tx.vin := fun input isInput td isKept =>
    revocable.inputs input isInput td (keptMember td isKept) (above.kept_lt settled isKept)
  have unfiled : ∀ row ∈ base.confirmedTxs, row.1 ≠ call.txid := by
    intro row member
    have low := settled.confirmed row member
    rw [← above.confirmed] at member
    exact revocable.unfiled row (mem_filter.mp member).1 low
  have steps := processed.steps
  rw [started_of_unsent (above.others.2.1.trans settled.unsent)] at steps
  obtain ⟨more, recordedAbove⟩ :=
    steps.above honest indexed processed.images revocable.distinct high small above
  obtain ⟨recordedIndexed, -⟩ := processed.indexed honest indexed revocable.distinct
  obtain ⟨kept, added, spentAbove⟩ := recordedAbove.spendAll recordedIndexed settled chain high marks
  exact ⟨kept, added, spentAbove.filed high unfiled processed.filed⟩

end Scanned

end Memero
