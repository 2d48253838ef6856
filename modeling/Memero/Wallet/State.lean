import Memero.Wallet.Outputs
import Memero.Wallet.Subaddresses
import Memero.Basic.Serialization
import Memero.Lib.Exec

/-!
# The state of a wallet

The records of `wallet/logic/type` and the members of `wallet2` that the scanner of blocks, the
reorganisation and the sending of transactions read and write.
-/

namespace Memero

/-! ## Records -/

/-- `transfer_details`. -/
structure TransferDetails where
  blockHeight : Nat
  tx : TransactionPrefix
  txid : Hash
  internalOutputIndex : Nat
  globalOutputIndex : Nat
  spent : Bool
  frozen : Bool
  spentHeight : Nat
  outputKeyImage : KeyImage
  mask : EcScalar
  amount : Nat
  rct : Bool
  outputKeyImageKnown : Bool
  outputKeyImageRequest : Bool
  pkIndex : Nat
  subaddrIndex : SubaddressIndex
  outputKeyImagePartial : Bool
  deriving DecidableEq, Repr

/-- `transfer_details::get_public_key`, if there is an output with that index. -/
def TransferDetails.publicKey? (td : TransferDetails) : Option EcPoint :=
  (td.tx.vout[td.internalOutputIndex]?).map TxOut.outputPublicKey

/-- `unconfirmed_transfer_details::m_state`. -/
inductive PendingState where
  | pending
  | pendingNotInPool
  | failed
  deriving DecidableEq, Repr

/-- `unconfirmed_transfer_details`. -/
structure UnconfirmedTransferDetails where
  tx : TransactionPrefix
  amountIn : Nat
  amountOut : Nat
  change : Nat
  sentTime : Nat
  dests : List TxDestinationEntry
  state : PendingState
  timestamp : Nat
  subaddrAccount : Nat
  subaddrIndices : List Nat
  rings : List (KeyImage × List Nat)
  deriving DecidableEq, Repr

/-- `confirmed_transfer_details`. -/
structure ConfirmedTransferDetails where
  amountIn : Nat
  amountOut : Nat
  change : Nat
  blockHeight : Nat
  dests : List TxDestinationEntry
  timestamp : Nat
  unlockHeight : Nat
  subaddrAccount : Nat
  subaddrIndices : List Nat
  rings : List (KeyImage × List Nat)
  deriving DecidableEq, Repr

/-- The default constructor of `confirmed_transfer_details`. -/
def ConfirmedTransferDetails.new : ConfirmedTransferDetails where
  amountIn := 0
  amountOut := 0
  change := 2 ^ 64 - 1
  blockHeight := 0
  dests := []
  timestamp := 0
  unlockHeight := 0
  subaddrAccount := 2 ^ 32 - 1
  subaddrIndices := []
  rings := []

/-- The constructor of `confirmed_transfer_details` for a transaction that was waited for. -/
def ConfirmedTransferDetails.ofUnconfirmed (utd : UnconfirmedTransferDetails) (height : Nat) :
    ConfirmedTransferDetails where
  amountIn := utd.amountIn
  amountOut := utd.amountOut
  change := utd.change
  blockHeight := height
  dests := utd.dests
  timestamp := utd.timestamp
  unlockHeight := utd.tx.unlockHeight
  subaddrAccount := utd.subaddrAccount
  subaddrIndices := utd.subaddrIndices
  rings := utd.rings

/-- `payment_details`. -/
structure PaymentDetails where
  txHash : Hash
  amount : Nat
  amounts : List Nat
  fee : Nat
  blockHeight : Nat
  unlockHeight : Nat
  timestamp : Nat
  coinbase : Bool
  subaddrIndex : SubaddressIndex
  deriving DecidableEq, Repr

/-- `pool_payment_details`. -/
structure PoolPaymentDetails where
  pd : PaymentDetails
  doubleSpendSeen : Bool
  deriving DecidableEq, Repr

/-- `pending_tx`, with the account and the addresses of its `construction_data`. -/
structure PendingTx where
  tx : Transaction
  fee : Nat
  changeDts : TxDestinationEntry
  selectedTransfers : List Nat
  dests : List TxDestinationEntry
  subaddrAccount : Nat
  subaddrIndices : List Nat
  deriving DecidableEq, Repr

/-- `hashchain`: the hashes from the height `offset` on. -/
structure HashChain where
  offset : Nat
  genesis : Hash
  blockchain : List Hash
  deriving DecidableEq, Repr

namespace HashChain

/-- `hashchain::size`. -/
def size (chain : HashChain) : Nat :=
  chain.blockchain.length + chain.offset

/-- `hashchain::push_back`. -/
def pushBack (chain : HashChain) (hash : Hash) : HashChain where
  offset := chain.offset
  genesis := if chain.offset = 0 ∧ chain.blockchain = [] then hash else chain.genesis
  blockchain := chain.blockchain ++ [hash]

/-- `hashchain::crop`. Resizing to more than there is fills up with null hashes. -/
def crop (chain : HashChain) (height : Nat) : HashChain :=
  let size := height - chain.offset
  { chain with
    blockchain := chain.blockchain.take size ++ List.replicate (size - chain.blockchain.length) 0 }

end HashChain

/-! ## The wallet -/

/-- The members of `wallet2` that change while it runs. Payments have no key of their own: the maps
hold them all under the null hash. -/
@[ext] structure Wallet where
  blockchain : HashChain
  transfers : List TransferDetails
  outputKeyImages : Table KeyImage Nat
  pubKeys : Table EcPoint Nat
  unconfirmedTxs : Table Hash UnconfirmedTransferDetails
  confirmedTxs : Table Hash ConfirmedTransferDetails
  payments : List PaymentDetails
  unconfirmedPayments : List PoolPaymentDetails
  book : SubaddressBook
  deriving DecidableEq, Repr

/-- What the wallet is set up with, and the cryptography that it calls. -/
structure WalletSetup where
  env : Env
  sha3 : List UInt8 → Hash
  keys : SpendViewSecretKeys
  createTime : Nat
  refreshFromBlockHeight : Nat
  storeTxInfo : Bool

/-- The texts of `wallet_internal_error`. -/
inductive InternalError where
  /-- "Invalid vout index" -/
  | invalidVoutIndex
  /-- "Failed to generate key image" -/
  | failedKeyImage
  /-- "shared secret derived spend public key does not matched with output spend public key" -/
  | derivedKeyMismatch
  /-- "Same output cannot be added twice" -/
  | sameOutputTwice
  /-- "Overflow in received amounts" -/
  | overflowInReceivedAmounts
  /-- "transactions outputs size= … not match with daemon response size= …" -/
  | outputsSizeMismatch
  /-- "wrong out in transaction: internal index= …, total_outs= …" -/
  | wrongOut
  /-- "Unexpected transfer index from public key: …" -/
  | unexpectedTransferIndex
  /-- "Unexpected values of new and old outputs" -/
  | unexpectedValues
  /-- "Inconsistent public keys" -/
  | inconsistentPublicKeys
  /-- "Inconsistent spent status" -/
  | inconsistentSpentStatus
  /-- "Inconsistent size of output arrays" -/
  | inconsistentSizes
  /-- "confirmed tx wasn't found: …" -/
  | confirmedTxNotFound
  /-- "block transactions= … not match with daemon response size= …" -/
  | blockTransactionsMismatch
  /-- "Wrong amount of transactions for block" -/
  | wrongAmountOfTransactions
  /-- "size mismatch" -/
  | sizeMismatch
  /-- "wrong daemon response: split starts from the first block in response …" -/
  | wrongDaemonResponse
  /-- "Daemon claims reorg below last checkpoint" -/
  | reorgBelowCheckpoint
  /-- "key image not found: index …" -/
  | keyImageNotFound
  /-- "public key not found" -/
  | publicKeyNotFound
  /-- "Bad output index in selected transfers: …" -/
  | badOutputIndex
  /-- "No transactions" -/
  | noTransactions
  /-- "Change address is not ours" -/
  | changeNotOurs
  deriving DecidableEq, Repr

/-- How a function of the wallet can stop without returning. -/
inductive WalletError where
  /-- `acc_outs_lookup_error` -/
  | accOutsLookup
  /-- `out_of_hashchain_bounds_error` -/
  | outOfHashchainBounds
  /-- `tx_rejected` or another answer of the daemon that is no success -/
  | daemon
  | internal (error : InternalError)
  /-- `exit(1)` -/
  | exits
  /-- The behaviour is undefined: a vector is read behind its end, or an optional without a value. -/
  | undefined
  deriving DecidableEq, Repr

/-- A function of `wallet2`. -/
abbrev WalletM (α : Type) : Type := Exec Wallet WalletError α

/-- `THROW_WALLET_EXCEPTION_IF` with a `wallet_internal_error`. -/
def WalletM.throwIf (condition : Prop) [Decidable condition] (error : InternalError) : WalletM Unit :=
  if condition then Exec.throw (.internal error) else pure ()

/-- An `if` without an `else`. -/
def WalletM.when (condition : Prop) [Decidable condition] (body : WalletM Unit) : WalletM Unit :=
  if condition then body else pure ()

/-- The element of a vector or the value of an optional that is not checked to be there. -/
def WalletM.unchecked {α : Type} : Option α → WalletM α
  | some value => pure value
  | none => Exec.throw .undefined

end Memero
