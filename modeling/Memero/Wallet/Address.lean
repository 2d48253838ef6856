import Memero.Basic.Base58
import Memero.Basic.RoundTrip
import Memero.Basic.TreeHash
import Memero.Crypto.Subaddress

/-!
# Addresses

The text of an address: `encode_addr` and `decode_addr` of `tools/common/base58.cpp`, and the
functions of `base.cpp` and `account.cpp` that write and read account addresses. An address is the
prefix of the network as a variable length integer, the two public keys and a checksum.
-/

namespace Memero

open List Option Format BinaryFormat

/-- `network_type`. -/
inductive NetworkType where
  | mainnet
  | testnet
  | fakechain
  | undefined
  deriving DecidableEq, Repr

/-- `CRYPTONOTE_PUBLIC_ADDRESS_BASE58_PREFIX` and `CRYPTONOTE_PUBLIC_SUBADDRESS_BASE58_PREFIX` of a
network; `get_config` throws where there are none. -/
def NetworkType.addressPrefixes : NetworkType → Option (Nat × Nat)
  | .mainnet => some (0x5d4a, 0x1a8b3)
  | .testnet => some (0x5d4c, 0x1a8b5)
  | .fakechain => some (0x5d4c, 0x1a8b5)
  | .undefined => none

/-- `address_parse_info`. -/
structure AddressParseInfo where
  address : SpendViewPublicKeys
  isSubaddress : Bool
  deriving DecidableEq, Repr

section Addresses

variable (sodium : Sodium) (sha3 : List UInt8 → Hash)

/-- The first bytes of the hash, `addr_checksum_size` of them. -/
def addrChecksum (buf : List UInt8) : List UInt8 :=
  (scalarBlob (sha3 buf)).take 4

/-- `encode_addr`. -/
def encodeAddr (tag : Nat) (data : List UInt8) : List UInt8 :=
  let buf := writeVarint tag ++ data
  Base58.encode (buf ++ addrChecksum sha3 buf)

/-- `decode_addr`. -/
def decodeAddr (addr : List UInt8) : Option (Nat × List UInt8) := do
  let addrData ← Base58.decode addr
  if addrData.length ≤ 4 then
    none
  else
    let checksum := addrData.drop (addrData.length - 4)
    let body := addrData.take (addrData.length - 4)
    if addrChecksum sha3 body ≠ checksum then
      none
    else
      readVarint false 64 body

/-- The two keys, one blob after the other. -/
def Format.spendViewPublicKeys : BinaryFormat SpendViewPublicKeys :=
  (Format.point.seq fun _ => Format.point).map
    (fun (spend, view) => { spendPublicKey := spend, viewPublicKey := view })
    (fun x => (x.spendPublicKey, x.viewPublicKey)) fun _ _ _ => rfl

/-- `get_account_address_as_str`. -/
def getAccountAddressAsStr (nettype : NetworkType) (subaddress : Bool)
    (adr : SpendViewPublicKeys) : Option (List UInt8) := do
  let (addressPrefix, subaddressPrefix) ← nettype.addressPrefixes
  let data ← Format.spendViewPublicKeys.encode adr
  return encodeAddr sha3 (if subaddress then subaddressPrefix else addressPrefix) data

/-- `maybe_safe_spend_view_public_keys`. -/
def maybeSafeSpendViewPublicKeys (x : SpendViewPublicKeys) : Option SpendViewPublicKeys := do
  let spend ← sodium.maybeSafePoint x.spendPublicKey
  let view ← sodium.maybeSafePoint x.viewPublicKey
  return { spendPublicKey := spend, viewPublicKey := view }

/-- The comparison of the prefix in `get_account_address_from_str`. -/
def isSubaddressTag (addressPrefix subaddressPrefix tag : Nat) : Option Bool :=
  if addressPrefix = tag then some false
  else if subaddressPrefix = tag then some true
  else none

/-- `get_account_address_from_str`. -/
def getAccountAddressFromStr (nettype : NetworkType) (str : List UInt8) :
    Option AddressParseInfo := do
  let (addressPrefix, subaddressPrefix) ← nettype.addressPrefixes
  -- twice the size of `public_address_outer_blob`
  if 2 * 66 = str.length then
    none
  else
    let (tag, data) ← decodeAddr sha3 str
    let isSubaddress ← isSubaddressTag addressPrefix subaddressPrefix tag
    let unchecked ← Format.spendViewPublicKeys.decode false data
    let address ← maybeSafeSpendViewPublicKeys sodium unchecked
    return { address := address, isSubaddress := isSubaddress }

variable {sodium sha3}

/-! ## The outer string -/

theorem addrChecksum_length (buf : List UInt8) : (addrChecksum sha3 buf).length = 4 := by
  unfold addrChecksum
  rw [length_take, scalarBlob_length]
  rfl

variable {tag addressPrefix : Nat}

theorem decodeAddr_encodeAddr (fits : tag < 2 ^ 64) (data : List UInt8) :
    decodeAddr sha3 (encodeAddr sha3 tag data) = some (tag, data) := by
  have positive := length_pos_iff.mpr (writeVarint_ne_nil tag)
  have length : (writeVarint tag ++ data ++
      addrChecksum sha3 (writeVarint tag ++ data)).length = (writeVarint tag ++ data).length + 4 := by
    rw [length_append, addrChecksum_length]
  have long : ¬ (writeVarint tag ++ data).length + 4 ≤ 4 := by
    rw [length_append]
    omega
  unfold decodeAddr encodeAddr
  rw [Base58.decode_encode]
  dsimp only [bind, Option.bind]
  rw [length, Nat.add_sub_cancel, List.take_left, List.drop_left, if_neg long,
    if_neg (not_not.mpr rfl)]
  exact Format.varint64.read_write false data fits rfl

/-- What is read in front of further data is written in one way. -/
theorem encodeAddr_of_decodeAddr {addr data : List UInt8} (some : data ≠ [])
    (found : decodeAddr sha3 addr = .some (tag, data)) : encodeAddr sha3 tag data = addr := by
  obtain ⟨addrData, decoded, more⟩ := bind_eq_some_iff.mp found
  dsimp only at more
  split at more
  · cases more
  · rename_i long
    split at more
    · cases more
    · rename_i checked
      have body : addrData.take (addrData.length - 4) = writeVarint tag ++ data := by
        rcases varint64.cut_off more with strict | empty
        · exact varint64.write_read strict
        · exact absurd empty some
      unfold encodeAddr
      dsimp only
      rw [← body, not_not.mp checked, take_append_drop]
      exact Base58.encode_of_decode decoded

/-! ## Account addresses -/

theorem maybeSafeSpendViewPublicKeys_eq_some {x y : SpendViewPublicKeys} :
    maybeSafeSpendViewPublicKeys sodium x = some y ↔
      sodium.isValidPoint x.spendPublicKey = true ∧ sodium.isValidPoint x.viewPublicKey = true ∧
        x = y := by
  unfold maybeSafeSpendViewPublicKeys Sodium.maybeSafePoint
  cases sodium.isValidPoint x.spendPublicKey <;> cases sodium.isValidPoint x.viewPublicKey <;>
    simp

variable {nettype : NetworkType} {subaddressPrefix : Nat}

/-- Two prefixes of three bytes that are not the same. -/
theorem addressPrefixes_spec
    (found : nettype.addressPrefixes = some (addressPrefix, subaddressPrefix)) :
    addressPrefix ≠ subaddressPrefix ∧ addressPrefix < 2 ^ 64 ∧ subaddressPrefix < 2 ^ 64 ∧
      (writeVarint addressPrefix).length = 3 ∧ (writeVarint subaddressPrefix).length = 3 := by
  cases nettype <;> cases found <;> decide

theorem Format.spendViewPublicKeys_write_length (x : SpendViewPublicKeys) :
    (spendViewPublicKeys.write x).length = 64 := by
  unfold spendViewPublicKeys
  rw [map_write, seq_write, length_append, point_write_length,
    point_write_length]

/-- Two blobs are there in full. -/
theorem Format.spendViewPublicKeys_whole : spendViewPublicKeys.Whole :=
  .map (.seq point_whole fun _ => point_whole)

/-- An address has 71 bytes, so 98 letters. -/
theorem encodeAddr_length (three : (writeVarint tag).length = 3) (adr : SpendViewPublicKeys) :
    (encodeAddr sha3 tag (spendViewPublicKeys.write adr)).length = 98 := by
  unfold encodeAddr
  rw [Base58.encode_length, length_append, length_append, addrChecksum_length, three,
    spendViewPublicKeys_write_length]
  rfl

/-- The keys of an account are valid points of 32 bytes. -/
structure SpendViewPublicKeys.Safe (sodium : Sodium) (adr : SpendViewPublicKeys) : Prop where
  spend : adr.spendPublicKey < 256 ^ 32 ∧ sodium.isValidPoint adr.spendPublicKey = true
  view : adr.viewPublicKey < 256 ^ 32 ∧ sodium.isValidPoint adr.viewPublicKey = true

theorem isSubaddressTag_eq_some {flag : Bool} (different : addressPrefix ≠ subaddressPrefix) :
    isSubaddressTag addressPrefix subaddressPrefix tag = some flag ↔
      tag = if flag then subaddressPrefix else addressPrefix := by
  unfold isSubaddressTag
  cases flag <;> grind

/-- What an accepted string holds. -/
theorem getAccountAddressFromStr_eq_some {str : List UInt8} {info : AddressParseInfo}
    (config : nettype.addressPrefixes = some (addressPrefix, subaddressPrefix)) :
    getAccountAddressFromStr sodium sha3 nettype str = some info ↔
      132 ≠ str.length ∧ ∃ data,
        decodeAddr sha3 str =
          some (if info.isSubaddress then subaddressPrefix else addressPrefix, data) ∧
        Format.spendViewPublicKeys.decode false data = some info.address ∧
        sodium.isValidPoint info.address.spendPublicKey = true ∧
        sodium.isValidPoint info.address.viewPublicKey = true := by
  obtain ⟨different, -⟩ := addressPrefixes_spec config
  unfold getAccountAddressFromStr
  rw [config]
  dsimp only [bind, Option.bind]
  constructor
  · intro found
    split at found
    · cases found
    · rename_i length
      obtain ⟨⟨tag, data⟩, decoded, more⟩ := Option.bind_eq_some_iff.mp found
      obtain ⟨flag, tagged, more⟩ := Option.bind_eq_some_iff.mp more
      obtain ⟨unchecked, parsed, more⟩ := Option.bind_eq_some_iff.mp more
      obtain ⟨address, checked, same⟩ := Option.bind_eq_some_iff.mp more
      cases same
      obtain ⟨spend, view, rfl⟩ := maybeSafeSpendViewPublicKeys_eq_some.mp checked
      have named : tag = _ := (isSubaddressTag_eq_some different).mp tagged
      rw [named] at decoded
      exact ⟨length, data, decoded, parsed, spend, view⟩
  · rintro ⟨length, data, decoded, parsed, spend, view⟩
    have checked := maybeSafeSpendViewPublicKeys_eq_some.mpr ⟨spend, view, rfl⟩
    rw [if_neg length]
    refine Option.bind_eq_some_iff.mpr ⟨_, decoded, Option.bind_eq_some_iff.mpr
      ⟨_, (isSubaddressTag_eq_some different).mpr rfl, Option.bind_eq_some_iff.mpr
        ⟨_, parsed, Option.bind_eq_some_iff.mpr ⟨_, checked, rfl⟩⟩⟩⟩

theorem getAccountAddressFromStr_asStr (network : nettype ≠ .undefined) (subaddress : Bool)
    {adr : SpendViewPublicKeys} (safe : adr.Safe sodium) :
    ∃ str, getAccountAddressAsStr sha3 nettype subaddress adr = some str ∧
      getAccountAddressFromStr sodium sha3 nettype str = some ⟨adr, subaddress⟩ := by
  have config : ∃ prefixes, nettype.addressPrefixes = some prefixes := by
    cases nettype <;> first | exact ⟨_, rfl⟩ | exact absurd rfl network
  obtain ⟨⟨addressPrefix, subaddressPrefix⟩, config⟩ := config
  obtain ⟨-, small, subSmall, three, subThree⟩ := addressPrefixes_spec config
  have fits : spendViewPublicKeys.Fits adr := ⟨⟨safe.spend.1, safe.view.1⟩, rfl⟩
  have written : spendViewPublicKeys.encode adr =
      some (spendViewPublicKeys.write adr) := encode_eq_some.mpr ⟨rfl, rfl⟩
  refine ⟨encodeAddr sha3 (if subaddress then subaddressPrefix else addressPrefix)
    (spendViewPublicKeys.write adr), ?_, ?_⟩
  · unfold getAccountAddressAsStr
    rw [config, written]
    rfl
  · refine (getAccountAddressFromStr_eq_some config).mpr ⟨?_, spendViewPublicKeys.write adr,
      decodeAddr_encodeAddr (by split <;> assumption) _, decode_write false fits rfl,
      safe.spend.2, safe.view.2⟩
    rw [encodeAddr_length (by split <;> assumption)]
    decide

theorem getAccountAddressFromStr_inj {str other : List UInt8} {info : AddressParseInfo}
    (found : getAccountAddressFromStr sodium sha3 nettype str = some info)
    (alsoFound : getAccountAddressFromStr sodium sha3 nettype other = some info) : str = other := by
  cases config : nettype.addressPrefixes with
  | none =>
    unfold getAccountAddressFromStr at found
    rw [config] at found
    cases found
  | some prefixes =>
    have only : ∀ {s}, getAccountAddressFromStr sodium sha3 nettype s = some info →
        encodeAddr sha3 (if info.isSubaddress then prefixes.2 else prefixes.1)
          (spendViewPublicKeys.write info.address) = s := by
      intro s accepted
      obtain ⟨-, data, decoded, parsed, -⟩ := (getAccountAddressFromStr_eq_some config).mp accepted
      have strict := spendViewPublicKeys_whole _ _ (decode_eq_some.mp parsed)
      have bytes := spendViewPublicKeys.write_read strict
      rw [append_nil] at bytes
      rw [← bytes]
      apply encodeAddr_of_decodeAddr _ decoded
      apply ne_nil_of_length_pos
      rw [bytes, spendViewPublicKeys_write_length]
      decide
    rw [← only found, only alsoFound]

end Addresses

/-- Base58, the tagged strings over it and account addresses are read as they were written, and
base58 and account addresses only so. -/
theorem addresses_unambiguous :
    (∀ data, Base58.decode (Base58.encode data) = some data) ∧
    (∀ enc data, Base58.decode enc = some data → Base58.encode data = enc) ∧
    (∀ sha3 tag data, tag < 2 ^ 64 →
      decodeAddr sha3 (encodeAddr sha3 tag data) = some (tag, data)) ∧
    (∀ sodium sha3 nettype subaddress adr, nettype ≠ .undefined →
      SpendViewPublicKeys.Safe sodium adr →
      ∃ str, getAccountAddressAsStr sha3 nettype subaddress adr = some str ∧
        getAccountAddressFromStr sodium sha3 nettype str = some ⟨adr, subaddress⟩) ∧
    ∀ sodium sha3 nettype str other info,
      getAccountAddressFromStr sodium sha3 nettype str = some info →
      getAccountAddressFromStr sodium sha3 nettype other = some info → str = other := by
  refine ⟨Base58.decode_encode, ?_, ?_, ?_, ?_⟩
  · intro enc data found
    exact Base58.encode_of_decode found
  · intro sha3 tag data fits
    exact decodeAddr_encodeAddr fits data
  · intro sodium sha3 nettype subaddress adr network safe
    exact getAccountAddressFromStr_asStr network subaddress safe
  · intro sodium sha3 nettype str other info found alsoFound
    exact getAccountAddressFromStr_inj found alsoFound

/-- Two points of a small group. -/
def smallAddress : SpendViewPublicKeys where
  spendPublicKey := identity + 3
  viewPublicKey := identity + 4

theorem smallAddress_safe : smallAddress.Safe (cyclicSodium 31) :=
  ⟨⟨by decide, by decide⟩, by decide, by decide⟩

theorem addresses_unambiguous_small :
    decodeAddr List.length (encodeAddr List.length 5 [1, 2]) = some (5, [1, 2]) ∧
      ∃ str, getAccountAddressAsStr List.length .mainnet true smallAddress = some str ∧
        getAccountAddressFromStr (cyclicSodium 31) List.length .mainnet str =
          some ⟨smallAddress, true⟩ := by
  obtain ⟨-, -, tagged, accounts, -⟩ := addresses_unambiguous
  exact ⟨tagged List.length 5 [1, 2] (by decide),
    accounts (cyclicSodium 31) List.length .mainnet true smallAddress (by decide) smallAddress_safe⟩

end Memero
