import Memero.Wallet.Detaching

/-!
# Reorganisation and rescan

A wallet that detaches the blocks above a fork and scans the replacement is the wallet that has
scanned the resulting chain only, as long as what it drops can be told from what it keeps. A larger
output for a known public key breaks this: it overwrites the transfer of the earlier one, and with
the later block the earlier output is lost as well.
-/

namespace Memero

open List

/-! ## The reorganisation -/

/-- A wallet that has seen nothing but the start of the chain. -/
structure Wallet.Blank (w : Wallet) : Prop where
  transfers : w.transfers = []
  images : w.outputKeyImages = []
  pubKeys : w.pubKeys = []
  unsent : w.unconfirmedTxs = []
  confirmed : w.confirmedTxs = []
  payments : w.payments = []
  chain : w.blockchain.size ≠ 0

/-- The outputs of a transaction that the wallet accepts meet a condition. -/
def WalletSetup.OfAccepted (setup : WalletSetup)
    (condition : Wallet → TxCall → List (Nat × TxScanInfo) → Prop) (memory : Nat → ScanMemory)
    (w : Wallet) (call : TxCall) : Prop :=
  ∀ verdicts, setup.verdicts memory w.book.subaddresses call.tx call.height call.minerTx =
    .ok verdicts → condition w call (acceptedFrom 0 verdicts)

section Reorganisation

variable {Γ : Type} [AddCommGroup Γ] {setup : WalletSetup} {encode : Γ → EcPoint}
  {memory : Nat → Nat → Nat → ScanMemory}
variable {w after : Wallet}

theorem Wallet.Blank.settled (blank : w.Blank) (h : Nat) : w.Settled h := by
  refine ⟨?_, ?_, ?_, ?_, ?_, blank.unsent⟩
  · simp [blank.transfers]
  · simp [blank.transfers]
  · simp [blank.transfers]
  · simp [blank.payments]
  · simp [blank.confirmed]

theorem Wallet.Blank.indexed (blank : w.Blank) (setup : WalletSetup) : w.Indexed setup := by
  refine ⟨⟨?_, ?_, ?_⟩, ?_, ?_⟩
  · simp [blank.pubKeys]
  · simp [blank.images]
  · simp [blank.transfers]
  · simp [blank.transfers]
  · simp [blank.transfers]

variable {entries : List BlockEntry}

/-- Scanning from the start leaves a wallet with all that it knows below its height. -/
theorem scanBlocks_settled (honest : setup.Honest encode) (range : ∀ entry ∈ entries, entry.InRange)
    (blank : w.Blank)
    (meet : setup.BlocksMeet memory (setup.OfAccepted fun w _ => w.Distinguishes) entries w)
    (ran : (setup.scanBlocks memory entries).run w = (.ok (), after)) :
    after.Settled after.blockchain.size ∧ after.Indexed setup ∧ after.blockchain.size ≠ 0 := by
  refine scanBlocks_keep
    (fun w => w.Settled w.blockchain.size ∧ w.Indexed setup ∧ w.blockchain.size ≠ 0)
    (fun height w => w.blockchain.size = height ∧ w.Settled (height + 1) ∧
      w.Indexed setup ∧ w.blockchain.size ≠ 0) ?_ ?_ ?_ range
    ⟨blank.settled _, blank.indexed setup, blank.chain⟩ meet ran
  · rintro w ⟨settled, others⟩
    exact ⟨rfl, settled.mono (Nat.le_succ _), others⟩
  · rintro memory call w after fits chain ⟨size, settled, indexed, some⟩ apart done
    obtain ⟨accepted, recorded, processed⟩ :=
      processed_of_returns honest fits chain indexed.toSound done
    have distinct : w.Distinguishes accepted := by
      obtain ⟨verdicts, looked, rfl⟩ := processed.looked
      exact apart verdicts looked
    rw [processed.blockchain]
    exact ⟨size, processed.settled chain (Nat.lt_succ_self _) settled,
      (processed.indexed honest indexed distinct).2, some⟩
  · rintro height w hash ⟨rfl, settled, indexed, -⟩
    have size := HashChain.size_pushBack w.blockchain hash
    refine ⟨?_, indexed.congr rfl rfl rfl, ?_⟩
    · show Wallet.Settled (w.blockchain.pushBack hash).size _
      rw [size]
      exact { settled with }
    · show (w.blockchain.pushBack hash).size ≠ 0
      rw [size]
      exact Nat.succ_ne_zero _

/-- What is scanned on top of a wallet can be told from it. -/
theorem scanBlocks_above (honest : setup.Honest encode) (range : ∀ entry ∈ entries, entry.InRange)
    {base : Wallet} (settled : base.Settled base.blockchain.size) (indexed : base.Indexed setup)
    (some : base.blockchain.size ≠ 0)
    (meet : setup.BlocksMeet memory (setup.OfAccepted fun w call => w.Revocable base.blockchain.size call) entries base)
    (ran : (setup.scanBlocks memory entries).run base = (.ok (), after)) :
    (∃ kept added, Wallet.Above base.blockchain.size base kept added after) ∧
      after.Indexed setup := by
  refine scanBlocks_keep
    (fun w => (∃ kept added, Wallet.Above base.blockchain.size base kept added w) ∧ w.Indexed setup)
    (fun height w => base.blockchain.size ≤ height ∧
      (∃ kept added, Wallet.Above base.blockchain.size base kept added w) ∧ w.Indexed setup)
    ?_ ?_ ?_ range ⟨⟨base.transfers, [], settled.above⟩, indexed⟩ meet ran
  · rintro w ⟨⟨kept, added, above⟩, indexed⟩
    refine ⟨?_, ⟨kept, added, above⟩, indexed⟩
    obtain ⟨hashes, chain⟩ := above.chain
    rw [chain]
    simp only [HashChain.size, length_append]
    omega
  · rintro memory call w after fits chain ⟨high, ⟨kept, added, above⟩, indexed⟩ apart done
    obtain ⟨accepted, recorded, processed⟩ :=
      processed_of_returns honest fits chain indexed.toSound done
    have revocable : w.Revocable base.blockchain.size call accepted := by
      obtain ⟨verdicts, looked, rfl⟩ := processed.looked
      exact apart verdicts looked
    exact ⟨high, processed.above honest chain high settled indexed revocable above,
      (processed.indexed honest indexed revocable.distinct).2⟩
  · rintro height w hash ⟨-, ⟨kept, added, above⟩, indexed⟩
    obtain ⟨hashes, chain⟩ := above.chain
    refine ⟨⟨kept, added, above.transfers, above.marked, above.later, above.images, above.pubKeys,
      above.payments, above.confirmed, ⟨hashes ++ [hash], ?_⟩, above.others⟩,
      indexed.congr rfl rfl rfl⟩
    have nonempty : ¬ (base.blockchain.offset = 0 ∧ base.blockchain.blockchain ++ hashes = []) := by
      rintro ⟨offset, empty⟩
      refine some ?_
      rw [HashChain.size, offset, (append_eq_nil_iff.mp empty).1]
      rfl
    rw [chain, HashChain.pushBack, if_neg nonempty, append_assoc]

/-- A wallet that follows a reorganisation is the wallet that has only scanned the resulting chain. -/
theorem reorganisation_eq_rescan (honest : setup.Honest encode)
    {known dropped replacement : List BlockEntry} (knownRange : ∀ entry ∈ known, entry.InRange)
    (droppedRange : ∀ entry ∈ dropped, entry.InRange)
    {start fork tip : Wallet} (blank : start.Blank)
    (atFork : (setup.scanBlocks memory known).run start = (.ok (), fork))
    (atTip : (setup.scanBlocks memory (known ++ dropped)).run start = (.ok (), tip))
    (apart : setup.BlocksMeet memory (setup.OfAccepted fun w _ => w.Distinguishes) known start)
    (revocable : setup.BlocksMeet memory
      (setup.OfAccepted fun w call => w.Revocable fork.blockchain.size call) dropped fork) :
    (detachBlockchain fork.blockchain.size >>= fun _ => setup.scanBlocks memory replacement).run
      tip =
      (setup.scanBlocks memory (known ++ replacement)).run start := by
  -- detaching what was scanned above the fork restores the wallet at the fork
  have restored : (detachBlockchain fork.blockchain.size).run tip = (.ok (), fork) := by
    obtain ⟨settled, indexed, some⟩ := scanBlocks_settled honest knownRange blank apart atFork
    rw [WalletSetup.scanBlocks_append, Exec.bind_ok atFork] at atTip
    obtain ⟨⟨kept, added, above⟩, tipIndexed⟩ :=
      scanBlocks_above honest droppedRange settled indexed some revocable atTip
    exact detachBlockchain_above tipIndexed settled above
  rw [Exec.bind_ok restored, WalletSetup.scanBlocks_append, Exec.bind_ok atFork]

end Reorganisation

/-! ## A small reorganisation -/

/-- A reward with the given outputs. -/
def rewardOutputs (vout : List TxOut) : Transaction :=
  { rewardBlock.minerTx with
    vout := vout
    extra := addTxEcdhPublicKeyToExtra [] (identity + 1) }

/-- A block with such a reward only. -/
def rewardEntry (hash : Hash) (vout : List TxOut) : BlockEntry where
  hash := hash
  block := { rewardBlock with minerTx := rewardOutputs vout }
  blobCount := 0
  txes := []
  oIndices := [List.range vout.length]

/-- An output for the small wallet, if it is the first one. -/
def firstPaid (amount : Nat) : TxOut where
  amount := amount
  outputPublicKey := identity + 12

/-- An output for the small wallet, if it is the second one. -/
def secondPaid (amount : Nat) : TxOut where
  amount := amount
  outputPublicKey := identity + 13

/-- An output for someone else. -/
def foreignPaid : TxOut where
  amount := 1
  outputPublicKey := identity + 50

/-- The small wallet with the first block. -/
def startedWallet : Wallet :=
  { smallWallet with blockchain := { offset := 0, genesis := 1, blockchain := [1] } }

theorem startedWallet_blank : startedWallet.Blank :=
  ⟨rfl, rfl, rfl, rfl, rfl, rfl, by decide⟩

/-- The small wallet after blocks. -/
def smallScan (entries : List BlockEntry) : WalletM Unit :=
  smallSetup.scanBlocks (fun _ _ => blankMemory) entries

theorem rewardEntry_inRange {hash : Hash} {vout : List TxOut}
    (outs : ∀ out ∈ vout, out.InRange) (few : vout.length < 2 ^ 64) :
    (rewardEntry hash vout).InRange :=
  ⟨{ txPrefix :=
      { version := rewardBlock_inRange.minerTx.txPrefix.version
        unlockHeight := rewardBlock_inRange.minerTx.txPrefix.unlockHeight
        vin := rewardBlock_inRange.minerTx.txPrefix.vin
        vout := outs
        sizes := ⟨rewardBlock_inRange.minerTx.txPrefix.sizes.1, few,
          (by decide +kernel : (rewardOutputs []).extra.length < 2 ^ 64)⟩ }
     ringct := rewardBlock_inRange.minerTx.ringct }, forall_mem_nil _⟩

variable {w : Wallet}

/-- What one accepted output of a reward has to meet. -/
theorem WalletSetup.OfAccepted.single {setup : WalletSetup}
    {condition : Wallet → TxCall → List (Nat × TxScanInfo) → Prop} {memory : Nat → ScanMemory}
    {call : TxCall} (verdicts : List Verdict) (o : Nat) (info : TxScanInfo)
    (looked : setup.verdicts memory w.book.subaddresses call.tx call.height call.minerTx = .ok verdicts)
    (only : acceptedFrom 0 verdicts = [(o, info)]) (good : condition w call [(o, info)]) :
    setup.OfAccepted condition memory w call := by
  intro others again
  rw [looked] at again
  cases again
  rw [only]
  exact good

theorem Wallet.Distinguishes.single {o : Nat} {info : TxScanInfo}
    (new : ∀ td ∈ w.transfers, td.outputKeyImage ≠ info.ki) : w.Distinguishes [(o, info)] := by
  refine ⟨fun o' info' member td isTransfer same => ?_, fun o' info' o'' info'' one two _ => ?_⟩
  · cases mem_singleton.mp member
    exact absurd same (new td isTransfer)
  · cases mem_singleton.mp one
    cases mem_singleton.mp two
    rfl

/-- What the scan finds for an output of a reward. -/
def rewardFound (sec : EcScalar) (amount : Nat) : TxScanInfo :=
  { fiveFound sec 0 with amount := amount, moneyTransfered := amount }

/-- The wallet that was paid once. -/
def paidWallet : Wallet :=
  ((smallScan [rewardEntry 2 [firstPaid 3]]).run startedWallet).2

/-- The wallet that was paid once more in another block. -/
def twicePaidWallet : Wallet :=
  ((smallScan ([rewardEntry 2 [firstPaid 3]] ++
    [rewardEntry 3 [foreignPaid, secondPaid 5]])).run startedWallet).2

/-- The second payment is dropped, and the first one is kept. -/
theorem reorganisation_eq_rescan_second : (detachBlockchain paidWallet.blockchain.size >>= fun _ =>
        smallSetup.scanBlocks (fun _ _ => blankMemory) [rewardEntry 4 [foreignPaid]]).run
        twicePaidWallet =
      (smallSetup.scanBlocks (fun _ _ => blankMemory)
        ([rewardEntry 2 [firstPaid 3]] ++ [rewardEntry 4 [foreignPaid]])).run startedWallet := by
  have outs : ∀ out ∈ [firstPaid 3, foreignPaid, secondPaid 5], out.InRange := by
    intro out member
    fin_cases member <;> exact ⟨by decide, by decide +kernel⟩
  refine reorganisation_eq_rescan smallSetup_honest ?_ ?_ startedWallet_blank
    (Prod.ext (by decide +kernel) rfl) (Prod.ext (by decide +kernel) rfl) ?_ ?_
  · refine forall_mem_singleton.mpr (rewardEntry_inRange ?_ (by decide))
    exact forall_mem_singleton.mpr (outs _ (by simp))
  · refine forall_mem_singleton.mpr (rewardEntry_inRange ?_ (by decide))
    exact fun out member => outs out (mem_cons_of_mem _ member)
  · refine ⟨fun _ => ⟨.single [.accepted (rewardFound 12 3)] 0 (rewardFound 12 3) (by decide +kernel)
      rfl (.single (forall_mem_nil _)), fun _ _ => trivial⟩, fun _ _ => trivial⟩
  · refine ⟨fun _ => ⟨.single
      [.foreign
          { rewardFound 0 0 with
            outputKeyPair := { sec := 0, pub := 0 }, ki := 0, received := none },
        .accepted (rewardFound 13 5)] 1 (rewardFound 13 5) (by decide +kernel) rfl
      ⟨.single (by decide +kernel), ?_, ?_, ?_, ?_⟩, fun _ _ => trivial⟩, fun _ _ => trivial⟩
    · intro o info member td isTransfer _ isPub
      cases mem_singleton.mp member
      have other : ∀ td ∈ paidWallet.transfers, td.publicKey? ≠ some (identity + 13) := by
        decide +kernel
      exact absurd isPub (other td isTransfer)
    · intro o info member index isIndex
      cases mem_singleton.mp member
      cases isIndex
      exact ⟨[[]], by decide +kernel, by decide⟩
    · intro input isInput
      cases mem_singleton.mp isInput
    · have unfiled : paidWallet.confirmedTxs = [] := by decide +kernel
      rw [unfiled]
      exact fun _ member => nomatch member

/-- A larger output for the same public key is dropped, and the first one is lost with it: the wallet
has no transfer, and the one that has only scanned the resulting chain has one. -/
theorem smaller_output_lost :
    ∃ detached rescanned : Wallet,
      (smallScan [rewardEntry 2 [firstPaid 3], rewardEntry 3 [firstPaid 5]] >>= fun _ =>
        detachBlockchain paidWallet.blockchain.size >>= fun _ =>
          smallScan [rewardEntry 4 [foreignPaid]]).run startedWallet = (.ok (), detached) ∧
      (smallScan [rewardEntry 2 [firstPaid 3], rewardEntry 4 [foreignPaid]]).run startedWallet =
        (.ok (), rescanned) ∧
      detached.transfers = [] ∧ rescanned.transfers.map TransferDetails.amount = [3] :=
  ⟨_, _, Prod.ext (by decide +kernel) rfl, Prod.ext (by decide +kernel) rfl, by decide +kernel,
    by decide +kernel⟩

end Memero
