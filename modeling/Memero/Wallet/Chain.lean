import Memero.Wallet.SanityCheck

/-!
# The wallet and the chain

`process_new_blockchain_entry` and `detach_blockchain` of `wallet/api/wallet2.cpp`.
-/

namespace Memero

/-- A block as the daemon sends it: `parsed_block`, and the number of transaction blobs in the
`block_complete_entry`. -/
structure BlockEntry where
  hash : Hash
  block : Block
  blobCount : Nat
  txes : List Transaction
  oIndices : List (List Nat)
  deriving DecidableEq, Repr

namespace TransferDetails

/-- `set_spent`. -/
def setSpent (height : Nat) (td : TransferDetails) : TransferDetails :=
  { td with spent := true, spentHeight := height }

/-- `set_unspent`. -/
def setUnspent (td : TransferDetails) : TransferDetails :=
  { td with spent := false, spentHeight := 0 }

end TransferDetails

namespace WalletSetup

variable (setup : WalletSetup)

/-! ## Blocks -/

/-- `should_skip_block`. -/
def shouldSkipBlock (b : Block) (height : Nat) : Bool :=
  ! (setup.createTime < Word.add 64 b.timestamp (60 * 60 * 24) &&
    setup.refreshFromBlockHeight ≤ height)

/-- The call for a transaction of a block. -/
def blockCall (b : Block) (height : Nat) (minerTx : Bool) (txid : Hash) (tx : Transaction)
    (oIndices : List Nat) : TxCall where
  txid := txid
  tx := tx
  oIndices := oIndices
  height := height
  timestamp := b.timestamp
  minerTx := minerTx
  pool := false
  doubleSpendSeen := false

/-- The loop over the transactions of a block. Its index runs over three vectors. -/
def processTransactions (memory : Nat → Nat → ScanMemory) (b : Block) (height : Nat) :
    Nat → List Hash → List Transaction → List (List Nat) → WalletM Unit
  | _, [], _, _ => pure ()
  | i, txid :: txids, tx :: txes, indices :: oIndices => do
      setup.processNewTransaction (blockCall b height false txid tx indices) (memory i)
      processTransactions memory b height (i + 1) txids txes oIndices
  | _, _ :: _, _, _ => Exec.throw .undefined

/-- The transactions of a block that is not skipped. -/
def processBlock (memory : Nat → Nat → ScanMemory) (entry : BlockEntry) (height : Nat) :
    WalletM Unit := do
  let minerIndices ← WalletM.unchecked entry.oIndices.head?
  setup.processNewTransaction (blockCall entry.block height true
    (setup.env.getTransactionHash entry.block.minerTx) entry.block.minerTx minerIndices) (memory 0)
  WalletM.throwIf (entry.blobCount ≠ entry.block.txHashes.length) .wrongAmountOfTransactions
  WalletM.throwIf (entry.blobCount ≠ entry.txes.length) .wrongAmountOfTransactions
  setup.processTransactions memory entry.block height 1 entry.block.txHashes entry.txes
    entry.oIndices.tail

/-- `process_new_blockchain_entry`. -/
def processNewBlockchainEntry (memory : Nat → Nat → ScanMemory) (entry : BlockEntry)
    (height : Nat) : WalletM Unit := do
  WalletM.throwIf (entry.blobCount + 1 ≠ entry.oIndices.length) .blockTransactionsMismatch
  WalletM.when (setup.shouldSkipBlock entry.block height = false)
    (setup.processBlock memory entry height)
  Exec.modify fun w => { w with blockchain := w.blockchain.pushBack entry.hash }

/-! ## Detaching -/

/-- The body of the loop of `detach_blockchain` over the key images. -/
def eraseImage (td : TransferDetails) : WalletM Unit :=
  WalletM.when (td.outputKeyImageKnown = true ∧ td.outputKeyImagePartial = false) do
    let w ← Exec.get
    WalletM.throwIf (w.outputKeyImages.find td.outputKeyImage = none) .keyImageNotFound
    Exec.modify fun w => { w with outputKeyImages := w.outputKeyImages.remove td.outputKeyImage }

/-- The body of the loop of `detach_blockchain` over the public keys. -/
def erasePubKey (td : TransferDetails) : WalletM Unit := do
  let key ← WalletM.unchecked td.publicKey?
  let w ← Exec.get
  WalletM.throwIf (w.pubKeys.find key = none) .publicKeyNotFound
  Exec.modify fun w => { w with pubKeys := w.pubKeys.remove key }

end WalletSetup

namespace Wallet

variable (w : Wallet)

/-- The first loop of `detach_blockchain`. -/
def resetSpent (height : Nat) : Wallet :=
  { w with
    transfers := w.transfers.map fun td =>
      if td.spent ∧ height ≤ td.spentHeight then td.setUnspent else td }

/-- `i_start`. -/
def firstAt (height : Nat) : Nat :=
  w.transfers.findIdx fun td => height ≤ td.blockHeight

/-- The end of `detach_blockchain`: what lies above the height is dropped. -/
def cutAt (height : Nat) : Wallet :=
  { w with
    transfers := w.transfers.take (w.firstAt height)
    blockchain := w.blockchain.crop height
    payments := w.payments.filter fun payment => ! decide (height ≤ payment.blockHeight)
    confirmedTxs := w.confirmedTxs.filter fun row => ! decide (height ≤ row.2.blockHeight) }

end Wallet

/-- `detach_blockchain`. -/
def detachBlockchain (height : Nat) : WalletM Unit := do
  let start ← Exec.get
  WalletM.throwIf (height < start.blockchain.offset ∧ start.blockchain.offset < start.blockchain.size)
    .reorgBelowCheckpoint
  Exec.modify fun w => w.resetSpent height
  let w ← Exec.get
  let cut := w.transfers.drop (w.firstAt height)
  Exec.forEach WalletSetup.eraseImage cut
  Exec.forEach WalletSetup.erasePubKey cut
  Exec.modify fun w => w.cutAt height

end Memero
