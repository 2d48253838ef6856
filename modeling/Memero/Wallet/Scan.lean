import Memero.Basic.TxExtra
import Memero.Wallet.State

/-!
# Scanning the outputs of a transaction

`scan_output_for_subaddresses`, `decodeRct` and `scan_output` of `wallet/logic/functional/wallet.cpp`
and the loop of `wallet2::process_new_transaction` over the outputs. The results of the scan are
collected in a vector: an output of somebody else adds one, an output that is accepted adds one, and
an output of the wallet whose amount cannot be decoded or is zero adds none.
-/

namespace Memero

/-- `tx_scan_info_t`. -/
structure TxScanInfo where
  outputKeyPair : Keypair
  ki : KeyImage
  mask : EcScalar
  amount : Nat
  moneyTransfered : Nat
  error : Bool
  received : Option SubaddressReceiveInfo
  deriving DecidableEq, Repr

/-- Memory that is read without having been written: what calls that fail leave behind, and the
members of a new `tx_scan_info_t` that its constructor does not set. -/
structure ScanMemory where
  calls : Uninit
  outputKeyPair : Keypair
  ki : KeyImage
  mask : EcScalar

namespace WalletSetup

variable (setup : WalletSetup)

/-- `scan_output_for_subaddresses`. The target of an output has one alternative only. -/
def scanOutputForSubaddresses (memory : ScanMemory) (o : TxOut) (txOutputSharedSecret : EcPoint)
    (i : Nat) (subaddresses : Table EcPoint SubaddressIndex) : TxScanInfo :=
  let received := (setup.env.checkOutputForSubaddresses setup.sha3 subaddresses o.outputPublicKey
    txOutputSharedSecret i).value memory.calls
  { outputKeyPair := memory.outputKeyPair
    ki := memory.ki
    mask := memory.mask
    amount := 0
    moneyTransfered := if received.isSome then o.amount else 0
    error := false
    received := received }

/-- `decodeRct`. What `decode_ringct_commitment` throws is caught. -/
def decodeRct (memory : ScanMemory) (rv : RctData) (txOutputSharedSecret : EcPoint) (i : Nat) :
    Option (Nat × EcScalar) :=
  let hashedSecret := setup.env.hashTxOutputSharedSecretToScalar setup.sha3 txOutputSharedSecret i
  match maybeSizeCheckedRctData rv .empty with
  | none => none
  | some checked =>
    (setup.env.decodeRingctCommitment setup.sha3 checked hashedSecret i).run.value memory.calls

/-- The amount and the mask of an output: public, or decoded. -/
def openAmount (memory : ScanMemory) (tx : Transaction) (minerTx : Bool) (i : Nat)
    (info : TxScanInfo) (txOutputSharedSecret : EcPoint) : TxScanInfo :=
  if info.moneyTransfered = 0 ∧ minerTx = false then
    match setup.decodeRct memory tx.ringct txOutputSharedSecret i with
    | none => { info with error := true }
    | some (amount, mask) => { info with moneyTransfered := amount, mask := mask }
  else
    info

/-- `scan_output`. -/
def scanOutput (memory : ScanMemory) (tx : Transaction) (minerTx : Bool) (i : Nat)
    (infoIn : TxScanInfo) (outs : List Nat) : Except WalletError TxScanInfo :=
  match tx.vout[i]?, infoIn.received with
  | none, _ => .error (.internal .invalidVoutIndex)
  | some _, none => .error .undefined
  | some out, some received =>
    match (setup.env.deriveOutputKeyPairAndKeyImage setup.sha3 setup.keys out.outputPublicKey
        received.txOutputSharedSecret i received.index).value memory.calls with
    | none => .error (.internal .failedKeyImage)
    | some (keyPair, ki) =>
      if keyPair.pub ≠ out.outputPublicKey then
        .error (.internal .derivedKeyMismatch)
      else if i ∈ outs then
        .error (.internal .sameOutputTwice)
      else
        let info := setup.openAmount memory tx minerTx i
          { infoIn with outputKeyPair := keyPair, ki := ki } received.txOutputSharedSecret
        if info.error then
          .ok info
        else if info.moneyTransfered = 0 then
          .ok { info with error := true }
        else
          .ok { info with amount := info.moneyTransfered }

end WalletSetup

/-- What the loop over the outputs collects. -/
structure ScannedOutputs where
  outs : List Nat
  infos : List TxScanInfo
  moneyGot : Table SubaddressIndex Nat
  individual : Table SubaddressIndex (List Nat)
  deriving DecidableEq, Repr

namespace ScannedOutputs

def empty : ScannedOutputs where
  outs := []
  infos := []
  moneyGot := []
  individual := []

/-- An output that was accepted, for the address with an index. -/
def accept (scanned : ScannedOutputs) (i : Nat) (info : TxScanInfo) (index : SubaddressIndex) :
    Except WalletError ScannedOutputs :=
  let got := (scanned.moneyGot.find index).getD 0
  if Word.sub 64 (2 ^ 64 - 1) info.moneyTransfered ≤ got then
    .error (.internal .overflowInReceivedAmounts)
  else
    .ok
      { outs := scanned.outs ++ [i]
        infos := scanned.infos ++ [info]
        moneyGot := scanned.moneyGot.set index (Word.add 64 got info.moneyTransfered)
        individual := scanned.individual.set index
          ((scanned.individual.find index).getD [] ++ [info.moneyTransfered]) }

end ScannedOutputs

namespace WalletSetup

variable (setup : WalletSetup)

/-- The body of the loop over the outputs, with the key for the shared secret of the output. -/
def scanStep (memory : Nat → ScanMemory) (subaddresses : Table EcPoint SubaddressIndex)
    (tx : Transaction) (minerTx : Bool) (scanned : ScannedOutputs) (i : Nat) (out : TxOut)
    (ecdhKey : EcPoint) : Except WalletError ScannedOutputs := do
  let secret := (setup.env.deriveTxOutputEcdhSharedSecret ecdhKey setup.keys.viewSecretKey).value
    (memory i).calls
  let checkInfo := setup.scanOutputForSubaddresses (memory i) out secret i subaddresses
  if checkInfo.error then
    .error .accOutsLookup
  else
    match checkInfo.received with
    | none => .ok { scanned with infos := scanned.infos ++ [checkInfo] }
    | some received => do
        let scanInfo ← setup.scanOutput (memory i) tx minerTx i checkInfo scanned.outs
        if scanInfo.error then
          .ok scanned
        else
          scanned.accept i scanInfo received.index

/-- The loop over the outputs, from the output `i` on. -/
def scanLoop (memory : Nat → ScanMemory) (subaddresses : Table EcPoint SubaddressIndex)
    (tx : Transaction) (minerTx : Bool) : Nat → List (TxOut × EcPoint) → ScannedOutputs →
    Except WalletError ScannedOutputs
  | _, [], scanned => .ok scanned
  | i, (out, ecdhKey) :: rest, scanned => do
      let scanned ← setup.scanStep memory subaddresses tx minerTx scanned i out ecdhKey
      scanLoop memory subaddresses tx minerTx (i + 1) rest scanned

/-- `config::lol::tx_locked_one_year_away_in_blocks`. -/
def txLockedOneYearAwayInBlocks : Nat := 288 * 365

/-- `tx_locked_too_far_away`. -/
def txLockedTooFarAway (tx : Transaction) (height : Nat) : Bool :=
  height ≤ tx.unlockHeight && txLockedOneYearAwayInBlocks < tx.unlockHeight - height

/-- The scan of a transaction. Where there are no keys for the shared secrets, no output is looked
at. -/
def scanOutputs (memory : Nat → ScanMemory) (subaddresses : Table EcPoint SubaddressIndex)
    (tx : Transaction) (height : Nat) (minerTx : Bool) : Except WalletError ScannedOutputs :=
  if txLockedTooFarAway tx height then
    .ok .empty
  else
    match setup.env.getAllOutputEcdhPublicKeysFromExtra tx.extra tx.vout.length with
    | none => .ok .empty
    | some ecdhKeys =>
      setup.scanLoop memory subaddresses tx minerTx 0 (tx.vout.zip ecdhKeys) .empty

end WalletSetup

end Memero
