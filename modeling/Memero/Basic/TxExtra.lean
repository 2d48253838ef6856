import Memero.Basic.Serialization
import Memero.Crypto.Group

/-!
# The extra field of a transaction

`cryptonote/basic/functional/tx_extra.cpp`: the public keys with which the receivers of the outputs
compute the shared secrets, either one for the whole transaction or one for each output.
-/

namespace Memero

/-- `tx_extra_field`. -/
inductive TxExtraField where
  | txPublicKey (pubKeyUnsafe : EcPoint)
  | outputEcdhPublicKeys (pubKeysUnsafe : List EcPoint)
  deriving DecidableEq, Repr

namespace TxExtraField

/-- A field behind its tag, `TX_EXTRA_TAG_TX_PUBKEY` or `TX_EXTRA_TAG_TX_OUTPUT_PUBKEYS`. -/
def read : List UInt8 → Option (TxExtraField × List UInt8)
  | [] => none
  | tag :: input =>
    if tag = 0x01 then
      (Format.point.read false input).map fun (key, rest) => (.txPublicKey key, rest)
    else if tag = 0x04 then
      ((Format.point.vector Format.varint64 Format.point_write_ne_nil).read false input).map
        fun (keys, rest) => (.outputEcdhPublicKeys keys, rest)
    else
      none

/-- Fields up to the end of the input. A field has a byte at least, so the bound on their number is
never reached. -/
def readAll : Nat → List UInt8 → Option (List TxExtraField)
  | 0, _ => none
  | bound + 1, input => do
      let (field, rest) ← read input
      if rest = [] then
        some [field]
      else
        let fields ← readAll bound rest
        some (field :: fields)

end TxExtraField

/-- `parse_tx_extra`. -/
def parseTxExtra (txExtra : List UInt8) : Option (List TxExtraField) :=
  if txExtra = [] then some [] else TxExtraField.readAll txExtra.length txExtra

namespace Sodium

variable (sodium : Sodium)

/-- `get_tx_ecdh_public_key_from_extra`. -/
def getTxEcdhPublicKeyFromExtra (txExtra : List UInt8) : Option EcPoint := do
  let fields ← parseTxExtra txExtra
  let key ← fields.findSome? fun
    | .txPublicKey key => some key
    | .outputEcdhPublicKeys _ => none
  sodium.maybeSafePoint key

/-- `get_output_ecdh_public_keys_from_extra`. -/
def getOutputEcdhPublicKeysFromExtra (txExtra : List UInt8) : Option (List EcPoint) := do
  let fields ← parseTxExtra txExtra
  let keys ← fields.findSome? fun
    | .outputEcdhPublicKeys keys => some keys
    | .txPublicKey _ => none
  let safe := keys.filterMap sodium.maybeSafePoint
  if safe.length ≠ keys.length then none else some safe

/-- `get_all_output_ecdh_public_keys_from_extra`. -/
def getAllOutputEcdhPublicKeysFromExtra (txExtra : List UInt8) (outputCount : Nat) :
    Option (List EcPoint) :=
  match sodium.getOutputEcdhPublicKeysFromExtra txExtra with
  | some keys =>
    if keys.length = outputCount then some keys
    else (sodium.getTxEcdhPublicKeyFromExtra txExtra).map (List.replicate outputCount)
  | none => (sodium.getTxEcdhPublicKeyFromExtra txExtra).map (List.replicate outputCount)

end Sodium

end Memero
