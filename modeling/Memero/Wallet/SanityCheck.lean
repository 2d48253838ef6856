import Memero.Wallet.Attribution

/-!
# The check before sending

`sanity_check` of `wallet/logic/controller/wallet.cpp`. It adds up what each address should get and
what should come back as change, compares neither with anything, and looks at the declared change of
each transaction only: no output of a transaction is ever read.
-/

namespace Memero

open List Wallet

/-- `required`: what each address should get, and whether it is a subaddress. -/
abbrev Required : Type := Table SpendViewPublicKeys (Nat × Bool)

/-- `required[d.addr]`, with `d` added. -/
def Required.add (required : Required) (d : TxDestinationEntry) : Required :=
  required.set d.addr
    (Word.add 64 ((required.find d.addr).getD (0, false)).1 d.amount, d.isSubaddress)

namespace Wallet

variable (w : Wallet)

/-- `m_transfers[idx].amount()`. -/
def transferAmount (idx : Nat) : Except WalletError Nat :=
  match w.transfers[idx]? with
  | none => .error .undefined
  | some td => .ok td.amount

/-- What the transactions spend, without their fees and without what they should pay. -/
def expectedChange (ptxs : List PendingTx) (required : Required) : Except WalletError Nat := do
  let spent ← ptxs.foldlM (fun change ptx => do
    let amounts ← ptx.selectedTransfers.mapM w.transferAmount
    return Word.sub 64 (amounts.foldl (Word.add 64) change) ptx.fee) 0
  return required.foldl (fun change row => Word.sub 64 change row.2.1) spent

/-- The loop over the transactions that have change. -/
def checkChange : List PendingTx → Required → Except WalletError Required
  | [], required => .ok required
  | ptx :: rest, required =>
    if ptx.changeDts.amount = 0 then
      checkChange rest required
    else if w.book.subaddresses.find ptx.changeDts.addr.spendPublicKey = none then
      .error (.internal .changeNotOurs)
    else
      checkChange rest (required.add ptx.changeDts)

/-- `sanity_check`. -/
def sanityCheck (ptxs : List PendingTx) (dsts : List TxDestinationEntry) :
    Except WalletError Bool := do
  if ptxs = [] then
    .error (.internal .noTransactions)
  else
    let required : Required := dsts.foldl Required.add []
    -- only logged
    let _change ← w.expectedChange ptxs required
    let _required ← w.checkChange ptxs required
    return true

end Wallet

/-! ## What the check is for -/

namespace WalletSetup

variable (setup : WalletSetup)

/-- The output `i` of a transaction is one that a sender makes for an address, and its amount is the
given one, in the open or as the owner of the address decodes it. -/
def Pays (tx : Transaction) (i : Nat) (addr : SpendViewPublicKeys) (amount : Nat) : Prop :=
  ∃ (out : TxOut) (isSubaddress : Bool) (secs : List EcScalar) (pub : EcPoint) (hash : EcScalar),
    tx.vout[i]? = some out ∧
    (setup.env.generateOutputKeyPairs setup.sha3
      { addr := addr, amount := amount, isSubaddress := isSubaddress } i secs [] []).Returns
        (some ([pub], [hash], out.outputPublicKey)) ∧
    (out.amount ≠ 0 ∧ amount = out.amount ∨
      out.amount = 0 ∧ ∃ checked mask, maybeSizeCheckedRctData tx.ringct .empty = some checked ∧
        (setup.env.decodeRingctCommitment setup.sha3 checked hash i).Gives (amount, mask))

/-- Different outputs of the transactions pay an address at least `total` together. -/
def PaidAtLeast (ptxs : List PendingTx) (addr : SpendViewPublicKeys) (total : Nat) : Prop :=
  ∃ outputs : List (Nat × Nat × Nat), (outputs.map fun output => (output.1, output.2.1)).Nodup ∧
    (∀ t i amount, (t, i, amount) ∈ outputs →
      ∃ ptx, ptxs[t]? = some ptx ∧ setup.Pays ptx.tx i addr amount) ∧
    total ≤ (outputs.map fun output => output.2.2).sum

/-- What the destinations ask for an address. -/
def requestedTotal (dsts : List TxDestinationEntry) (addr : SpendViewPublicKeys) : Nat :=
  ((dsts.filter fun d => decide (d.addr = addr)).map TxDestinationEntry.amount).sum

/-- An address of the wallet. -/
def OwnAddress (w : Wallet) (addr : SpendViewPublicKeys) : Prop :=
  ∃ index, w.book.subaddresses.find addr.spendPublicKey = some index ∧
    addr = setup.env.getSubaddress setup.sha3 setup.keys index

/-- Whatever transactions pass the check, they pay what was asked for and keep the change. -/
def Effective (w : Wallet) (dsts : List TxDestinationEntry) : Prop :=
  ∀ ptxs, w.sanityCheck ptxs dsts = .ok true →
    (∀ d ∈ dsts, setup.PaidAtLeast ptxs d.addr (requestedTotal dsts d.addr)) ∧
      ∀ ptx ∈ ptxs, ptx.changeDts.amount ≠ 0 → setup.OwnAddress w ptx.changeDts.addr

end WalletSetup

section Check

variable {setup : WalletSetup} {w : Wallet} {dsts : List TxDestinationEntry}

/-- A transaction without inputs and outputs. -/
def emptyTx : Transaction where
  version := 2
  unlockHeight := 0
  vin := []
  vout := []
  extra := []
  ringct := .new

/-- Such a transaction, with any declared change. -/
def emptyPending (changeDts : TxDestinationEntry) : PendingTx where
  tx := emptyTx
  fee := 0
  changeDts := changeDts
  selectedTransfers := []
  dests := []
  subaddrAccount := 0
  subaddrIndices := []

variable {changeDts : TxDestinationEntry}

/-- The check passes a transaction that pays nobody, if the spend key of its change is known. -/
theorem sanityCheck_emptyPending (dsts : List TxDestinationEntry)
    (known : changeDts.amount ≠ 0 → w.book.subaddresses.find changeDts.addr.spendPublicKey ≠ none) :
    w.sanityCheck [emptyPending changeDts] dsts = .ok true := by
  unfold sanityCheck
  by_cases none : changeDts.amount = 0
  · simp [checkChange, expectedChange, emptyPending, none]
  · simp [checkChange, expectedChange, emptyPending, none, known none]

theorem not_paidAtLeast_emptyPending {addr : SpendViewPublicKeys} {total : Nat}
    (positive : 0 < total) : ¬ setup.PaidAtLeast [emptyPending changeDts] addr total := by
  rintro ⟨outputs, -, paid, enough⟩
  cases outputs with
  | nil => exact absurd enough (Nat.not_le_of_lt positive)
  | cons output rest =>
    obtain ⟨ptx, isPtx, out, _, _, _, _, isOut, -⟩ :=
      paid output.1 output.2.1 output.2.2 mem_cons_self
    rw [mem_singleton.mp (mem_of_getElem? isPtx)] at isOut
    cases isOut

theorem requestedTotal_pos {d : TxDestinationEntry} (member : d ∈ dsts) (positive : 0 < d.amount) :
    0 < WalletSetup.requestedTotal dsts d.addr := by
  have listed : d.amount ∈ (dsts.filter fun other => decide (other.addr = d.addr)).map
      TxDestinationEntry.amount :=
    mem_map_of_mem (mem_filter.mpr ⟨member, decide_eq_true rfl⟩)
  exact Nat.lt_of_lt_of_le positive (le_sum_of_mem listed)

theorem requestedTotal_eq_zero (none : ∀ d ∈ dsts, d.amount = 0) (addr : SpendViewPublicKeys) :
    WalletSetup.requestedTotal dsts addr = 0 := by
  apply sum_eq_zero
  intro amount member
  obtain ⟨d, isDst, rfl⟩ := mem_map.mp member
  exact none d (mem_filter.mp isDst).1

/-- A wallet without addresses lets no change pass. -/
theorem checkChange_of_empty (empty : w.book.subaddresses = []) {ptxs : List PendingTx}
    {required result : Required} (checked : w.checkChange ptxs required = .ok result) :
    ∀ ptx ∈ ptxs, ptx.changeDts.amount = 0 := by
  induction ptxs generalizing required with
  | nil => exact forall_mem_nil _
  | cons ptx rest ih =>
    rw [checkChange] at checked
    split at checked
    · rename_i none
      exact forall_mem_cons.mpr ⟨none, ih checked⟩
    · rw [empty] at checked
      cases checked

/-- The check does what it is for exactly if nothing is asked for and nothing can come back. -/
theorem sanityCheck_effective_iff (setup : WalletSetup) (w : Wallet)
    (dsts : List TxDestinationEntry) :
    setup.Effective w dsts ↔ (∀ d ∈ dsts, d.amount = 0) ∧ w.book.subaddresses = [] := by
  constructor
  · intro effective
    constructor
    · intro d member
      by_contra asked
      let change : TxDestinationEntry := { d with amount := 0 }
      obtain ⟨paid, -⟩ := effective [emptyPending change]
        (sanityCheck_emptyPending dsts fun positive => absurd rfl positive)
      exact not_paidAtLeast_emptyPending (requestedTotal_pos member (Nat.pos_of_ne_zero asked))
        (paid d member)
    · by_contra some
      obtain ⟨row, rest, rows⟩ := exists_cons_of_ne_nil some
      have found : w.book.subaddresses.find row.1 = .some row.2 := by
        rw [rows]
        exact Table.find_put_self rest row.1 row.2
      -- an address with the spend key of the wallet and the view key of somebody else
      let stolen : SpendViewPublicKeys :=
        { spendPublicKey := row.1
          viewPublicKey := setup.env.getSubaddressViewPublicKey setup.sha3 setup.keys row.2 + 1 }
      let change : TxDestinationEntry := { addr := stolen, amount := 1, isSubaddress := false }
      obtain ⟨-, own⟩ := effective [emptyPending change] (sanityCheck_emptyPending dsts fun _ => by
        rw [found]
        exact Option.some_ne_none _)
      obtain ⟨index, isIndex, isAddress⟩ := own _ mem_cons_self Nat.one_ne_zero
      have same : row.2 = index := Option.some.inj (found.symm.trans isIndex)
      subst same
      exact absurd (congrArg SpendViewPublicKeys.viewPublicKey isAddress) (Nat.succ_ne_self _)
  · rintro ⟨none, empty⟩ ptxs checked
    constructor
    · intro d member
      exact ⟨[], nodup_nil, fun _ _ _ absent => (nomatch absent),
        Nat.le_of_eq (requestedTotal_eq_zero none d.addr)⟩
    · intro ptx member positive
      unfold sanityCheck at checked
      split at checked
      · cases checked
      · obtain ⟨change, -, checked⟩ := except_bind_eq_ok.mp checked
        obtain ⟨required, isRequired, -⟩ := except_bind_eq_ok.mp checked
        exact absurd (checkChange_of_empty empty isRequired ptx member) positive

end Check

/-- Somebody who should get five. -/
def fiveAsked : TxDestinationEntry where
  addr := { spendPublicKey := identity + 7, viewPublicKey := identity + 9 }
  amount := 5
  isSubaddress := false

/-- A transaction without outputs passes the check. -/
theorem unpaid_passes_check :
    smallWallet.sanityCheck [emptyPending { fiveAsked with amount := 0 }] [fiveAsked] = .ok true ∧
      WalletSetup.requestedTotal [fiveAsked] fiveAsked.addr = 5 ∧
      ¬ smallSetup.PaidAtLeast [emptyPending { fiveAsked with amount := 0 }] fiveAsked.addr 5 :=
  ⟨sanityCheck_emptyPending _ fun positive => absurd rfl positive, by decide +kernel,
    not_paidAtLeast_emptyPending (by decide)⟩

end Memero
