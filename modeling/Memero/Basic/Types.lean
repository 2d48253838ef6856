import Mathlib.Algebra.Ring.Nat
import Mathlib.Tactic.Common

/-!
# Transactions and blocks

The records of `cryptonote/basic/functional/base.hpp` and
`math/ringct/functional/rctTypesUnsafe.hpp` that are serialised. Fields which the node
reconstructs after parsing (the signed message, the ring members, the key image inside a
signature) are not part of a transaction's contents; they are passed beside it.

A 32-byte array is a natural number. A curve point and a key image are read with the
first byte most significant, so that `<` on key images is the byte-wise comparison the
program uses; a hash is read with the first byte least significant, which is the number
the proof of work test multiplies. A 64-bit field is a natural number.
-/

namespace Memero

/-- `crypto::hash`. -/
abbrev Hash := Nat

/-- `crypto::crypto_data`: any 32 bytes. -/
abbrev CryptoData := Nat

/-- `crypto::ec_point` and its unsafe base: 32 bytes that may or may not encode a point. -/
abbrev EcPoint := CryptoData

/-- `crypto::key_image`. -/
abbrev KeyImage := EcPoint

/-- `crypto::ec_scalar` and its unnormalised base. -/
abbrev EcScalar := Nat

/-! ## Inputs and outputs -/

/-- `txin_from_key`. -/
structure TxinFromKey where
  amount : Nat
  outputRelativeOffsets : List Nat
  outputKeyImage : KeyImage
  deriving DecidableEq, Repr

/-- `txin_v`. -/
inductive TxIn where
  | gen (height : Nat)
  | fromKey (input : TxinFromKey)
  deriving DecidableEq, Repr

/-- `tx_out`; its target has the single alternative `txout_to_key`. -/
structure TxOut where
  amount : Nat
  outputPublicKey : EcPoint
  deriving DecidableEq, Repr

/-! ## Ring confidential data -/

/-- The values of `rctDataBasic::type` that the parser accepts. -/
inductive RctType where
  | null
  | clsag
  deriving DecidableEq, Repr

/-- `clsag_unsafe` as serialised. -/
structure ClsagUnsafe where
  s : List EcScalar
  c1 : EcScalar
  blindingFactorSurplusKeyImage : EcPoint
  deriving DecidableEq, Repr

/-- `Bulletproof_unsafe`. -/
structure BulletproofUnsafe where
  A : EcPoint
  S : EcPoint
  T1 : EcPoint
  T2 : EcPoint
  tau : EcScalar
  mu : EcScalar
  L : List EcPoint
  R : List EcPoint
  a : EcScalar
  b : EcScalar
  t : EcScalar
  deriving DecidableEq, Repr

/-- `rctDataPrunable`. -/
structure RctDataPrunable where
  bulletproofs : List BulletproofUnsafe
  clsags : List ClsagUnsafe
  pseudoInputCommits : List EcPoint
  deriving DecidableEq, Repr

/-- `rctData` as serialised. -/
structure RctData where
  type : RctType
  ecdhEncryptedData : List Nat
  outputCommits : List EcPoint
  fee : Nat
  p : RctDataPrunable
  deriving DecidableEq, Repr

/-- The confidential data of a new transaction. Its fee is not set, nor ever written out. -/
def RctData.new : RctData where
  type := .null
  ecdhEncryptedData := []
  outputCommits := []
  fee := 0
  p := { bulletproofs := [], clsags := [], pseudoInputCommits := [] }

/-! ## Transactions and blocks -/

/-- `transaction`. -/
structure Transaction where
  version : Nat
  unlockHeight : Nat
  vin : List TxIn
  vout : List TxOut
  extra : List UInt8
  ringct : RctData
  deriving DecidableEq, Repr

/-- `block`. -/
structure Block where
  majorVersion : Nat
  minorVersion : Nat
  timestamp : Nat
  prevId : Hash
  nonce : Nat
  minerTx : Transaction
  txHashes : List Hash
  deriving DecidableEq, Repr

namespace TxIn

/-- The key image an input carries. -/
def keyImage? : TxIn → Option KeyImage
  | .gen _ => none
  | .fromKey input => some input.outputKeyImage

/-- `rule_15_ringct_input_type_should_be_from_key`. -/
def fromKey? : TxIn → Option TxinFromKey
  | .gen _ => none
  | .fromKey input => some input

end TxIn

namespace Transaction

/-- The key images of the inputs, in order. -/
def keyImages (tx : Transaction) : List KeyImage :=
  tx.vin.filterMap TxIn.keyImage?

/-- `is_coinbase`. -/
def isCoinbase (tx : Transaction) : Bool :=
  match tx.vin with
  | [.gen _] => true
  | _ => false

end Transaction

/-- `get_tx_fee`. -/
def getTxFee (tx : Transaction) : Nat :=
  tx.ringct.fee

/-- `get_block_height`: the height in the coinbase input, zero if there is none. -/
def getBlockHeight (b : Block) : Nat :=
  match b.minerTx.vin with
  | [.gen height] => height
  | _ => 0

end Memero
