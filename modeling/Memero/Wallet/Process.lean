import Memero.Wallet.Scan

/-!
# Processing a transaction

`wallet2::process_new_transaction`: the outputs of the wallet are recorded as transfers, the inputs
mark transfers as spent, and the payments and the sent transaction are filed.
-/

namespace Memero

/-- The arguments of `process_new_transaction`. -/
structure TxCall where
  txid : Hash
  tx : Transaction
  oIndices : List Nat
  height : Nat
  timestamp : Nat
  minerTx : Bool
  pool : Bool
  doubleSpendSeen : Bool
  deriving DecidableEq, Repr

/-- The sums that the recording of outputs keeps up to date. -/
structure Received where
  moneyGot : Table SubaddressIndex Nat
  individual : Table SubaddressIndex (List Nat)
  total : Nat
  deriving DecidableEq, Repr

namespace TxCall

variable (call : TxCall)

/-- The mask of an output and whether its amount is hidden. -/
def maskAndRct (out : TxOut) (info : TxScanInfo) : EcScalar × Bool :=
  if out.amount = 0 then (info.mask, true)
  else if call.minerTx ∧ call.tx.version = 2 then (1, true)
  else (1, false)

/-- The amount of an output. -/
def outputAmount (out : TxOut) (info : TxScanInfo) : Nat :=
  if out.amount ≠ 0 then out.amount else info.amount

/-- A new transfer for the output with the index `o`. -/
def newTransfer (o : Nat) (out : TxOut) (info : TxScanInfo) (index : SubaddressIndex)
    (globalIndex : Nat) : TransferDetails where
  blockHeight := call.height
  tx := call.tx.txPrefix
  txid := call.txid
  internalOutputIndex := o
  globalOutputIndex := globalIndex
  spent := false
  frozen := false
  spentHeight := 0
  outputKeyImage := info.ki
  mask := (call.maskAndRct out info).1
  amount := outputAmount out info
  rct := (call.maskAndRct out info).2
  outputKeyImageKnown := true
  outputKeyImageRequest := false
  pkIndex := 0
  subaddrIndex := index
  outputKeyImagePartial := false

/-- A transfer that is overwritten by the output with the index `o`, which has the same public key
and a larger amount. -/
def replacement (td : TransferDetails) (o : Nat) (out : TxOut) (info : TxScanInfo)
    (index : SubaddressIndex) (globalIndex : Nat) : TransferDetails :=
  { td with
    blockHeight := call.height
    tx := call.tx.txPrefix
    txid := call.txid
    internalOutputIndex := o
    globalOutputIndex := globalIndex
    mask := (call.maskAndRct out info).1
    amount := outputAmount out info
    rct := (call.maskAndRct out info).2
    pkIndex := 0
    subaddrIndex := index }

/-- The amount that an input spends of a transfer. -/
def spentAmount (input : TxinFromKey) (td : TransferDetails) : Nat :=
  if 0 < input.amount then input.amount else td.amount

/-- A transfer whose key image is that of an input. -/
def spend (input : TxinFromKey) (td : TransferDetails) : TransferDetails :=
  if call.pool then
    { td with amount := spentAmount input td }
  else
    { td with amount := spentAmount input td, spent := true, spentHeight := call.height }

end TxCall

namespace Wallet

/-- `process_new_transaction`: append a transfer. -/
def addTransfer (setup : WalletSetup) (w : Wallet) (td : TransferDetails) (pub : EcPoint) : Wallet :=
  { w with
    transfers := w.transfers ++ [td]
    outputKeyImages := w.outputKeyImages.set td.outputKeyImage w.transfers.length
    pubKeys := w.pubKeys.set pub w.transfers.length
    book := w.book.receive setup.env.toSodium setup.sha3 setup.keys td.subaddrIndex }

/-- `process_new_transaction`: overwrite a transfer. -/
def setTransfer (setup : WalletSetup) (w : Wallet) (k : Nat) (td : TransferDetails) : Wallet :=
  { w with
    transfers := w.transfers.set k td
    book := w.book.receive setup.env.toSodium setup.sha3 setup.keys td.subaddrIndex }

/-- `process_unconfirmed`. -/
def processUnconfirmed (setup : WalletSetup) (call : TxCall) (w : Wallet) : Wallet :=
  match w.unconfirmedTxs.find call.txid with
  | none => w
  | some utd =>
    { w with
      confirmedTxs :=
        if setup.storeTxInfo ∧ w.confirmedTxs.has call.txid = false then
          w.confirmedTxs.put call.txid (.ofUnconfirmed utd call.height)
        else w.confirmedTxs
      unconfirmedTxs := w.unconfirmedTxs.remove call.txid }

end Wallet

namespace WalletSetup

variable (setup : WalletSetup) (call : TxCall)

/-! ## Outputs -/

/-- An output whose public key is new. -/
def recordNew (o : Nat) (out : TxOut) (info : TxScanInfo) (sums : Received) : WalletM Received := do
  WalletM.when (call.pool = false) do
    let globalIndex ← WalletM.unchecked call.oIndices[o]?
    let received ← WalletM.unchecked info.received
    Exec.modify fun w => w.addTransfer setup
      (call.newTransfer o out info received.index globalIndex) info.outputKeyPair.pub
  pure { sums with total := Word.add 64 sums.total (TxCall.outputAmount out info) }

/-- An output whose public key has a transfer that is spent or no smaller. -/
def recordIgnored (info : TxScanInfo) (sums : Received) : WalletM Received := do
  let received ← WalletM.unchecked info.received
  let got := (sums.moneyGot.find received.index).getD 0
  WalletM.throwIf (got < info.amount) .unexpectedValues
  let amounts := (sums.individual.find received.index).getD []
  WalletM.throwIf (info.amount ∉ amounts) .unexpectedValues
  pure { sums with
    moneyGot := sums.moneyGot.set received.index (Word.sub 64 got info.amount)
    individual := sums.individual.set received.index (amounts.erase info.amount) }

/-- An output whose public key has a smaller transfer that is not spent. -/
def recordReplaced (k : Nat) (td : TransferDetails) (o : Nat) (out : TxOut) (info : TxScanInfo)
    (sums : Received) : WalletM Received := do
  let received ← WalletM.unchecked info.received
  let got := (sums.moneyGot.find received.index).getD 0
  WalletM.throwIf (got < info.amount) .unexpectedValues
  WalletM.throwIf (info.amount < td.amount) .unexpectedValues
  let amount := TxCall.outputAmount out info
  WalletM.when (call.pool = false) do
    let globalIndex ← WalletM.unchecked call.oIndices[o]?
    Exec.modify fun w => w.setTransfer setup k
      (call.replacement td o out info received.index globalIndex)
    WalletM.throwIf (out.outputPublicKey ≠ info.outputKeyPair.pub) .inconsistentPublicKeys
    WalletM.throwIf (td.spent = true) .inconsistentSpentStatus
  pure { sums with
    moneyGot := sums.moneyGot.set received.index (Word.sub 64 got td.amount)
    total := Word.add 64 sums.total (Word.sub 64 amount td.amount) }

/-- The body of the loop over `outs`. The results of the scan are looked up by the index of the
output. -/
def recordOutput (infos : List TxScanInfo) (o : Nat) (sums : Received) : WalletM Received := do
  WalletM.throwIf (call.tx.vout.length ≤ o) .wrongOut
  let out ← WalletM.unchecked call.tx.vout[o]?
  let info ← WalletM.unchecked infos[o]?
  let w ← Exec.get
  match w.pubKeys.find info.outputKeyPair.pub with
  | none => setup.recordNew call o out info sums
  | some k =>
    match w.transfers[k]? with
    | none => Exec.throw (.internal .unexpectedTransferIndex)
    | some td =>
      if td.spent = true ∨ info.amount ≤ td.amount then
        recordIgnored info sums
      else
        setup.recordReplaced call k td o out info sums

/-- The loop over `outs`. -/
def recordOutputs (infos : List TxScanInfo) : List Nat → Received → WalletM Received
  | [], sums => pure sums
  | o :: rest, sums => do
      let sums ← setup.recordOutput call infos o sums
      recordOutputs infos rest sums

/-! ## Inputs -/

/-- What the inputs of the wallet add up to, and where they come from. -/
structure Spending where
  moneySpent : Nat
  subaddrAccount : Option Nat
  subaddrIndices : List Nat
  deriving DecidableEq, Repr

/-- The body of the loop over the inputs. -/
def spendInput (spending : Spending) : TxIn → WalletM Spending
  | .gen _ => pure spending
  | .fromKey input => do
      let w ← Exec.get
      match w.outputKeyImages.find input.outputKeyImage with
      | none => pure spending
      | some k => do
          let td ← WalletM.unchecked w.transfers[k]?
          Exec.modify fun w => { w with transfers := w.transfers.set k (call.spend input td) }
          pure
            { moneySpent := Word.add 64 spending.moneySpent (TxCall.spentAmount input td)
              subaddrAccount := some td.subaddrIndex.major
              subaddrIndices := spending.subaddrIndices.insert td.subaddrIndex.minor }

/-- The loop over the inputs. -/
def spendInputs : List TxIn → Spending → WalletM Spending
  | [], spending => pure spending
  | input :: rest, spending => do
      let spending ← spendInput call spending input
      spendInputs rest spending

/-! ## Filing -/

/-- The rings of a transaction. -/
def rings (tx : Transaction) : List (KeyImage × List Nat) :=
  (tx.vin.filterMap TxIn.fromKey?).map fun input =>
    (input.outputKeyImage, input.outputRelativeOffsets)

/-- `process_outgoing`, for one entry: what is known of a transaction already is kept. -/
def outgoingEntry (known : Option ConfirmedTransferDetails) (spent received : Nat)
    (subaddrAccount : Nat) (subaddrIndices : List Nat) : ConfirmedTransferDetails :=
  let entry := known.getD
    { ConfirmedTransferDetails.new with
      amountIn := spent
      amountOut := Word.sub 64 spent call.tx.ringct.fee
      change := received
      subaddrAccount := subaddrAccount
      subaddrIndices := subaddrIndices }
  { entry with
    rings := rings call.tx
    blockHeight := call.height
    timestamp := call.timestamp
    unlockHeight := call.tx.unlockHeight }

/-- What the wallet sent to the account it spent from. -/
def selfReceived (moneyGot : Table SubaddressIndex Nat) (subaddrAccount : Nat) : Nat :=
  sum64 ((moneyGot.filter fun row => row.1.major = subaddrAccount).map Prod.snd)

/-- The fee that is put into the records. -/
def callFee : Nat :=
  if call.minerTx then 0 else call.tx.ringct.fee

/-- `process_outgoing` and what is done with the change of a transaction to oneself. -/
def fileOutgoing (sums : Received) (spending : Spending) : WalletM Unit :=
  WalletM.when (0 < spending.moneySpent ∧ call.pool = false) do
    let subaddrAccount ← WalletM.unchecked spending.subaddrAccount
    let received := selfReceived sums.moneyGot subaddrAccount
    Exec.modify fun w =>
      { w with
        confirmedTxs := w.confirmedTxs.set call.txid
          (outgoingEntry call (w.confirmedTxs.find call.txid) spending.moneySpent received
            subaddrAccount spending.subaddrIndices) }
    WalletM.when (spending.moneySpent = Word.add 64 received (callFee call)) do
      let w ← Exec.get
      match w.confirmedTxs.find call.txid with
      | none => Exec.throw (.internal .confirmedTxNotFound)
      | some entry =>
        Exec.modify fun w =>
          { w with confirmedTxs := w.confirmedTxs.set call.txid { entry with change := received } }

/-- The payment to the address with an index. -/
def paymentFor (individual : Table SubaddressIndex (List Nat)) (row : SubaddressIndex × Nat) :
    PaymentDetails where
  txHash := call.txid
  amount := row.2
  amounts := (individual.find row.1).getD []
  fee := callFee call
  blockHeight := call.height
  unlockHeight := call.tx.unlockHeight
  timestamp := call.timestamp
  coinbase := call.minerTx
  subaddrIndex := row.1

/-- `emplace_or_replace`. -/
def emplaceOrReplace (container : List PoolPaymentDetails) (pd : PoolPaymentDetails) :
    List PoolPaymentDetails :=
  match container.findIdx? fun other =>
      other.pd.txHash = pd.pd.txHash ∧ other.pd.subaddrIndex = pd.pd.subaddrIndex with
  | some i => container.set i pd
  | none => container ++ [pd]

/-- The payments that came with the transaction, without the change. -/
def filePayments (sums : Received) (spending : Spending) : WalletM Unit :=
  let change : SubaddressIndex × Nat → Bool := fun row => spending.subaddrAccount = some row.1.major
  let others := sums.moneyGot.filter fun row => ! change row
  let subChange := sum64 ((sums.moneyGot.filter change).map Prod.snd)
  if others = [] then
    pure ()
  else if sums.total ≠ Word.add 64 subChange (sum64 (others.map Prod.snd)) then
    Exec.throw .exits
  else
    Exec.modify fun w =>
      let made := others.map (paymentFor call sums.individual)
      if call.pool then
        { w with
          unconfirmedPayments := made.foldl (fun container payment =>
            emplaceOrReplace container { pd := payment, doubleSpendSeen := call.doubleSpendSeen })
            w.unconfirmedPayments }
      else
        { w with payments := w.payments ++ made }

/-! ## The whole function -/

/-- The outputs of `process_new_transaction`. -/
def recordScanned (scanned : ScannedOutputs) : WalletM Received := do
  let sums : Received :=
    { moneyGot := scanned.moneyGot, individual := scanned.individual, total := 0 }
  if scanned.outs = [] then
    pure sums
  else
    WalletM.throwIf (call.pool = false ∧ call.tx.vout.length ≠ call.oIndices.length)
      .outputsSizeMismatch
    setup.recordOutputs call scanned.infos scanned.outs sums

/-- What `process_new_transaction` does behind the outputs. -/
def fileTransaction (sums : Received) : WalletM Unit := do
  WalletM.throwIf (sums.moneyGot.length ≠ sums.individual.length) .inconsistentSizes
  let spending ← spendInputs call call.tx.vin
    { moneySpent := 0, subaddrAccount := none, subaddrIndices := [] }
  fileOutgoing call sums spending
  filePayments call sums spending

/-- `process_new_transaction`. -/
def processNewTransaction (memory : Nat → ScanMemory) : WalletM Unit := do
  WalletM.when (call.minerTx = false ∧ call.pool = false)
    (Exec.modify (Wallet.processUnconfirmed setup call))
  let scanned ← Exec.reads fun w =>
    setup.scanOutputs memory w.book.subaddresses call.tx call.height call.minerTx
  let sums ← setup.recordScanned call scanned
  fileTransaction call sums

end WalletSetup

end Memero
