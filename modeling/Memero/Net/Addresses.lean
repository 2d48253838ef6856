import Memero.Basic.Bytes
import Memero.Lib.Decimal
import Memero.Lib.Tokens

/-!
# Network addresses

`tools/epee/net/net_utils_base`: the addresses of peers, how they are printed and when two of them
are the same host. An IPv4 address is kept in network order, so its first octet is the lowest one of
the number, and so a subnet is compared from the wrong end of every octet.
-/

namespace Memero

/-- A printed host. -/
abbrev HostText : Type :=
  List UInt8

/-! ## IPv4 -/

/-- An octet of an address; the first one in network order is the lowest of the number. -/
def octet (ip : BitVec 32) (i : Nat) : Nat :=
  ip.toNat / 256 ^ i % 256

/-- `get_ip_string_from_int32`. -/
def getIpStringFromInt32 (ip : BitVec 32) : HostText :=
  Tokens.join Decimal.point ((List.range 4).map fun i => Decimal.ofNat (octet ip i))

/-- `ipv4_network_subnet`; `get_ipv4_subnet_address`, which makes them, takes no longer mask. -/
structure Ipv4Subnet where
  ip : BitVec 32
  mask : Nat
  narrow : mask ≤ 32
  deriving DecidableEq

/-- `~(0xffffffffull << m_mask)`. -/
def subnetBits (mask : Nat) : BitVec 64 :=
  ~~~(BitVec.ofNat 64 0xffffffff <<< mask)

/-- `subnet`. -/
def Ipv4Subnet.subnet (net : Ipv4Subnet) : BitVec 32 :=
  (net.ip.setWidth 64 &&& subnetBits net.mask).setWidth 32

/-- What the methods of a subnet read: its address through `subnet`, and its mask. -/
structure SubnetKey where
  subnet : BitVec 32
  mask : Nat
  deriving DecidableEq

/-- A subnet as a key of a map. -/
def Ipv4Subnet.key (net : Ipv4Subnet) : SubnetKey where
  subnet := net.subnet
  mask := net.mask

namespace SubnetKey

/-- `matches`. -/
def matchesIp (key : SubnetKey) (ip : BitVec 32) : Bool :=
  (ip.setWidth 64 &&& subnetBits key.mask) == key.subnet.setWidth 64

/-- `less`. -/
def less (key other : SubnetKey) : Bool :=
  if key.subnet < other.subnet then true
  else if other.subnet < key.subnet then false
  else key.mask < other.mask

/-- Keys that are not ordered are equal. -/
theorem eq_of_not_less {key other : SubnetKey} (before : key.less other = false)
    (after : other.less key = false) : key = other := by
  have le : ¬ key.subnet < other.subnet := fun lt => by simp [less, lt] at before
  have ge : ¬ other.subnet < key.subnet := fun lt => by simp [less, lt] at after
  have subnets : key.subnet = other.subnet := BitVec.le_antisymm (by simpa using ge) (by simpa using le)
  simp only [less, le, ge, if_false, decide_eq_false_iff_not] at before after
  cases key
  cases other
  have masks := le_antisymm (not_lt.mp after) (not_lt.mp before)
  cases subnets
  cases masks
  rfl

end SubnetKey

/-! ## IPv6 and hidden services -/

/-- `boost::asio::ip::address_v6`. -/
structure Ipv6 where
  bytes : Vector UInt8 16
  scopeId : Nat
  deriving DecidableEq

/-- `is_v4_mapped`. -/
def Ipv6.isV4Mapped (address : Ipv6) : Bool :=
  address.bytes.toList.take 12 == List.replicate 10 0 ++ [0xff, 0xff]

/-- `htonl`. -/
def htonl (value : Nat) : Nat :=
  ofBigEndian (littleEndian 4 value)

/-- `make_address_v4_from_v6`. -/
def makeAddressV4FromV6 (a : Ipv6) : BitVec 32 :=
  BitVec.ofNat 32 (htonl (ofBigEndian (a.bytes.toList.drop 12)))

/-- The networks of hidden services. -/
inductive HiddenNetwork where
  | tor
  | i2p
  deriving DecidableEq

namespace HiddenNetwork

/-- `tld`. -/
def tld : HiddenNetwork → HostText
  | tor => ascii ".onion"
  | i2p => ascii ".b32.i2p"

/-- `unknown_host`. -/
def unknownHost : HiddenNetwork → HostText
  | tor => ascii "<unknown tor host>"
  | i2p => ascii "<unknown i2p host>"

/-- The lengths of a name in front of `tld`. -/
def lengths : HiddenNetwork → List Nat
  | tor => [16, 56]
  | i2p => [52]

/-- `base32_alphabet`. -/
def base32Alphabet : List UInt8 :=
  ascii "ABCDEFGHIJKLMNOPQRSTUVWXYZabcdefghijklmnopqrstuvwxyz234567"

/-- `host_check`. -/
def hostCheck (network : HiddenNetwork) (host : HostText) : Bool :=
  let name := host.take (host.length - network.tld.length)
  network.tld.isSuffixOf host && network.lengths.contains name.length &&
    name.all base32Alphabet.contains

end HiddenNetwork

/-- `tor_address` and `i2p_address` without the port: the unknown host or one that passed
`host_check`. -/
structure HiddenHost (network : HiddenNetwork) where
  host : HostText
  checked : host = network.unknownHost ∨ network.hostCheck host = true
  deriving DecidableEq

/-! ## Addresses -/

/-- `network_address`. -/
inductive NetworkAddress where
  | none
  | ipv4 (ip : BitVec 32) (port : Nat)
  | ipv6 (address : Ipv6) (port : Nat)
  | hidden (network : HiddenNetwork) (host : HiddenHost network) (port : Nat)

namespace NetworkAddress

/-- `host_str`, for a way to print IPv6 addresses. -/
def hostStr (ipv6ToString : Ipv6 → HostText) : NetworkAddress → HostText
  | none => ascii "<none>"
  | ipv4 ip _ => getIpStringFromInt32 ip
  | ipv6 address _ => ipv6ToString address
  | hidden _ host _ => host.host

/-- `is_blockable`. -/
def isBlockable : NetworkAddress → Bool
  | none => false
  | ipv4 _ _ => true
  | ipv6 _ _ => true
  | hidden network host _ => host.host != network.unknownHost

/-- `is_same_host`. -/
def isSameHost : NetworkAddress → NetworkAddress → Bool
  | none, none => true
  | ipv4 ip _, ipv4 other _ => ip == other
  | ipv6 address _, ipv6 other _ => address == other
  | hidden network host _, hidden otherNetwork other _ =>
    network == otherNetwork && host.host == other.host
  | ipv4 ip _, ipv6 other _ => other.isV4Mapped && ip == makeAddressV4FromV6 other
  | ipv6 address _, ipv4 other _ => address.isV4Mapped && other == makeAddressV4FromV6 address
  | _, _ => false

/-- The IPv4 address of a host, also of one that is mapped into IPv6. -/
def toIpv4 : NetworkAddress → Option (BitVec 32)
  | ipv4 ip _ => some ip
  | ipv6 address _ => if address.isV4Mapped then some (makeAddressV4FromV6 address) else Option.none
  | _ => Option.none

/-- An address that is not an IPv4 address mapped into IPv6. -/
def Unmapped : NetworkAddress → Prop
  | ipv6 address _ => address.isV4Mapped = false
  | _ => True

end NetworkAddress

open List Nat Decimal Tokens

/-! ## Bits of a subnet -/

/-- An IPv4 address as a number in network order. -/
def networkOrder (ip : BitVec 32) : Nat :=
  octet ip 0 * 2 ^ 24 + octet ip 1 * 2 ^ 16 + octet ip 2 * 2 ^ 8 + octet ip 3

/-- The first bits of an address, in network order. -/
def firstBits (count : Nat) (ip : BitVec 32) : Nat :=
  networkOrder ip / 2 ^ (32 - count)

theorem getLsbD_subnetBits {mask i : Nat} (inside : i < 32) :
    (subnetBits mask).getLsbD i = decide (i < mask) := by
  have ones : (0xffffffff : Nat) = 2 ^ 32 - 1 := by decide
  have wide : i < 64 := by omega
  unfold subnetBits
  rw [BitVec.getLsbD_not, BitVec.getLsbD_shiftLeft, BitVec.getLsbD_ofNat, ones,
    testBit_two_pow_sub_one]
  by_cases low : i < mask
  · simp [low, wide]
  · have shifted : i - mask < 32 := by omega
    have shiftedWide : i - mask < 64 := by omega
    simp [low, shifted, shiftedWide]

/-- A mask keeps the low bits of the number. -/
theorem and_subnetBits {mask : Nat} (narrow : mask ≤ 32) (ip : BitVec 32) :
    (ip.setWidth 64 &&& subnetBits mask).toNat = ip.toNat % 2 ^ mask := by
  apply eq_of_testBit_eq
  intro i
  rw [BitVec.testBit_toNat, BitVec.getLsbD_and, testBit_mod_two_pow]
  by_cases inside : i < 32
  · have wide : i < 64 := by omega
    rw [getLsbD_subnetBits inside, BitVec.testBit_toNat]
    simp [wide, Bool.and_comm]
  · have high : ¬ i < mask := by omega
    simp [BitVec.getLsbD_of_ge ip i (by omega), high]

namespace Ipv4Subnet

variable (net : Ipv4Subnet)

theorem subnet_toNat : net.subnet.toNat = net.ip.toNat % 2 ^ net.mask := by
  have small := lt_of_le_of_lt (mod_le net.ip.toNat (2 ^ net.mask)) net.ip.isLt
  rw [subnet, BitVec.toNat_setWidth, and_subnetBits net.narrow, mod_eq_of_lt small]

/-- `matches` compares the low bits. -/
theorem matchesIp_iff (ip : BitVec 32) :
    net.key.matchesIp ip = true ↔ ip.toNat % 2 ^ net.mask = net.ip.toNat % 2 ^ net.mask := by
  have small := lt_of_le_of_lt (mod_le net.ip.toNat (2 ^ net.mask)) net.ip.isLt
  rw [SubnetKey.matchesIp, key, beq_iff_eq, ← BitVec.toNat_inj, and_subnetBits net.narrow,
    BitVec.toNat_setWidth, subnet_toNat, mod_eq_of_lt (lt_trans small (by decide))]

theorem key_eq_iff {net other : Ipv4Subnet} :
    net.key = other.key ↔ net.subnet = other.subnet ∧ net.mask = other.mask := by
  simp [key]

end Ipv4Subnet

/-- Four octets, as a number with the first one lowest and in network order. -/
structure Octets (ip : BitVec 32) (a b c d : Nat) : Prop where
  first : a < 256
  second : b < 256
  third : c < 256
  fourth : d < 256
  number : ip.toNat = a + 256 * b + 65536 * c + 16777216 * d
  order : networkOrder ip = a * 16777216 + b * 65536 + c * 256 + d

theorem octets_octet (ip : BitVec 32) :
    Octets ip (octet ip 0) (octet ip 1) (octet ip 2) (octet ip 3) := by
  have bound (i : Nat) : octet ip i < 256 := mod_lt _ (by decide)
  refine ⟨bound 0, bound 1, bound 2, bound 3, ?_, rfl⟩
  have small : ip.toNat / 256 ^ 3 < 256 := by
    rw [div_lt_iff_lt_mul (by decide)]
    exact ip.isLt
  unfold octet
  omega

/-- Whole octets, as first bits in network order and as low bits of the number. -/
theorem Octets.parts {ip : BitVec 32} {a b c d : Nat} (octets : Octets ip a b c d) :
    firstBits 0 ip = 0 ∧
    (firstBits 8 ip = a ∧ ip.toNat % 2 ^ 8 = a) ∧
    (firstBits 16 ip = a * 256 + b ∧ ip.toNat % 2 ^ 16 = b * 256 + a) ∧
    (firstBits 24 ip = (a * 256 + b) * 256 + c ∧ ip.toNat % 2 ^ 24 = (c * 256 + b) * 256 + a) ∧
    (firstBits 32 ip = ((a * 256 + b) * 256 + c) * 256 + d ∧
      ip.toNat % 2 ^ 32 = ((d * 256 + c) * 256 + b) * 256 + a) := by
  obtain ⟨_, _, _, _, number, order⟩ := octets
  simp only [firstBits]
  refine ⟨?_, ⟨?_, ?_⟩, ⟨?_, ?_⟩, ⟨?_, ?_⟩, ?_, ?_⟩ <;> omega

theorem base256_inj {x y x' y' : Nat} (small : y < 256) (small' : y' < 256) :
    x * 256 + y = x' * 256 + y' ↔ x = x' ∧ y = y' := by
  omega

/-- Whole octets are the first bits in network order and the low bits of the number. -/
theorem firstBits_eq_iff {mask : Nat} (narrow : mask ≤ 32) (whole : mask % 8 = 0)
    (ip other : BitVec 32) :
    firstBits mask ip = firstBits mask other ↔ ip.toNat % 2 ^ mask = other.toNat % 2 ^ mask := by
  have octets := octets_octet ip
  have octets' := octets_octet other
  obtain ⟨none, one, two, three, four⟩ := octets.parts
  obtain ⟨none', one', two', three', four'⟩ := octets'.parts
  have masks : mask = 0 ∨ mask = 8 ∨ mask = 16 ∨ mask = 24 ∨ mask = 32 := by omega
  have first (x x' : Nat) := @base256_inj x _ x' _ octets.first octets'.first
  have second (x x' : Nat) := @base256_inj x _ x' _ octets.second octets'.second
  have third (x x' : Nat) := @base256_inj x _ x' _ octets.third octets'.third
  have fourth (x x' : Nat) := @base256_inj x _ x' _ octets.fourth octets'.fourth
  rcases masks with rfl | rfl | rfl | rfl | rfl
  · rw [none, none', pow_zero, mod_one, mod_one]
  · rw [one.1, one'.1, one.2, one'.2]
  · rw [two.1, two'.1, two.2, two'.2, first, second]
    tauto
  · rw [three.1, three'.1, three.2, three'.2, first, second, third, second]
    tauto
  · rw [four.1, four'.1, four.2, four'.2, first, second, third, fourth, third, second]
    tauto

namespace Ipv4Subnet

variable {net other : Ipv4Subnet} (whole : net.mask % 8 = 0)

include whole

/-- A subnet of whole octets holds the addresses with its first bits. -/
theorem matchesIp_iff_firstBits (ip : BitVec 32) :
    net.key.matchesIp ip = true ↔ firstBits net.mask ip = firstBits net.mask net.ip := by
  rw [matchesIp_iff, firstBits_eq_iff net.narrow whole]

theorem key_eq_iff_firstBits :
    net.key = other.key ↔
      net.mask = other.mask ∧ firstBits net.mask net.ip = firstBits net.mask other.ip := by
  rw [key_eq_iff, firstBits_eq_iff net.narrow whole, ← BitVec.toNat_inj, subnet_toNat, subnet_toNat,
    and_comm]
  refine and_congr_right fun masks => ?_
  rw [masks]

end Ipv4Subnet

/-! ## Printed hosts -/

/-- Numbers can be read back from a text with a separator between them. -/
theorem join_ofNat_injective {separator : UInt8} (cut : isDigit separator = false)
    {numbers others : List Nat} (nonempty : numbers ≠ []) (nonempty' : others ≠ [])
    (same : join separator (numbers.map ofNat) =
      join separator (others.map ofNat)) : numbers = others := by
  have words {numbers : List Nat} (nonempty : numbers ≠ []) :
      split (· == separator) false (join separator (numbers.map ofNat)) =
        numbers.map ofNat := by
    refine split_join (beq_self_eq_true _) (by simpa using nonempty) ?_ ?_
    · intro word member byte inside
      obtain ⟨number, -, rfl⟩ := mem_map.mp member
      rw [beq_eq_false_iff_ne]
      rintro rfl
      exact absurd (isDigit_ofNat number byte inside) (by simp [cut])
    · intro word member
      obtain ⟨number, -, rfl⟩ := mem_map.mp member
      exact ofNat_ne_nil number
  have texts := (words nonempty).symm.trans ((congrArg _ same).trans (words nonempty'))
  have injective : Function.Injective ofNat := fun number other same => by
    rw [← value_ofNat number, same, value_ofNat]
  exact map_injective_iff.mpr injective texts

theorem getIpStringFromInt32_injective {ip other : BitVec 32}
    (same : getIpStringFromInt32 ip = getIpStringFromInt32 other) : ip = other := by
  have text (ip : BitVec 32) : getIpStringFromInt32 ip =
      join point (((List.range 4).map (octet ip)).map ofNat) := by
    rfl
  rw [text] at same
  have equal := map_inj_left.mp (join_ofNat_injective (by decide) (by simp) (by simp) same)
  have octets (i : Nat) (inside : i < 4) : octet ip i = octet other i :=
    equal i (mem_range.mpr inside)
  apply BitVec.eq_of_toNat_eq
  rw [(octets_octet ip).number, (octets_octet other).number, octets 0 (by decide),
    octets 1 (by decide), octets 2 (by decide), octets 3 (by decide)]

/-- A printed IPv4 address has digits and points only. -/
theorem getIpStringFromInt32_bytes (ip : BitVec 32) :
    ∀ byte ∈ getIpStringFromInt32 ip, isDigit byte = true ∨ byte = point := by
  intro byte member
  rcases mem_join member with ⟨word, listed, inside⟩ | separator
  · obtain ⟨i, -, rfl⟩ := mem_map.mp listed
    exact .inl (isDigit_ofNat _ byte inside)
  · exact .inr separator

/-- The colon. -/
def colon : UInt8 := 0x3a

/-- What is used of the way IPv6 addresses are printed. -/
structure PrintsIpv6 (ipv6ToString : Ipv6 → HostText) : Prop where
  injective : Function.Injective ipv6ToString
  colon : ∀ address, colon ∈ ipv6ToString address

/-- The bytes and the scope of an IPv6 address as decimals with colons between them. -/
def ipv6Words (address : Ipv6) : HostText :=
  Tokens.join colon ((address.bytes.toList.map UInt8.toNat ++ [address.scopeId]).map Decimal.ofNat)

theorem ipv6Words_prints : PrintsIpv6 ipv6Words where
  injective := by
    intro address other same
    have numbers := join_ofNat_injective (by decide) (by simp) (by simp) same
    obtain ⟨bytes, scope⟩ := append_inj' numbers rfl
    have injective : Function.Injective UInt8.toNat := fun _ _ => UInt8.toNat_inj.mp
    have equal := Vector.toList_inj.mp (map_injective_iff.mpr injective bytes)
    cases address
    cases other
    cases equal
    cases scope
    rfl
  colon := by
    intro address
    have nonempty : address.bytes.toList ≠ [] := by
      intro empty
      have length := address.bytes.length_toList
      rw [empty] at length
      cases length
    obtain ⟨first, rest, bytes⟩ := exists_cons_of_ne_nil nonempty
    rw [ipv6Words, map_append, map_cons, map_nil, join_concat, bytes]
    simp

namespace HiddenNetwork

/-- The last byte of a known host. -/
def ending : HiddenNetwork → UInt8
  | tor => 0x6e
  | i2p => 0x70

theorem tld_getLast? (network : HiddenNetwork) : network.tld.getLast? = some network.ending := by
  cases network <;> rfl

theorem tld_no_colon (network : HiddenNetwork) : colon ∉ network.tld := by
  cases network <;> decide

theorem unknownHost_no_colon (network : HiddenNetwork) : colon ∉ network.unknownHost := by
  cases network <;> decide

theorem unknownHost_getLast? (network : HiddenNetwork) :
    network.unknownHost.getLast? = some 0x3e := by
  cases network <;> rfl

theorem unknownHost_injective {network other : HiddenNetwork}
    (same : network.unknownHost = other.unknownHost) : network = other := by
  revert same
  cases network <;> cases other <;> decide

theorem hostCheck_split {network : HiddenNetwork} {host : HostText}
    (checked : network.hostCheck host = true) :
    ∃ name, host = name ++ network.tld ∧ ∀ byte ∈ name, byte ∈ base32Alphabet := by
  unfold hostCheck at checked
  simp only [Bool.and_eq_true, all_eq_true, isSuffixOf_iff_suffix] at checked
  obtain ⟨⟨⟨name, rfl⟩, -⟩, letters⟩ := checked
  refine ⟨name, rfl, fun byte member => ?_⟩
  rw [List.length_append, Nat.add_sub_cancel, List.take_left] at letters
  exact contains_iff_mem.mp (letters byte member)

end HiddenNetwork

variable {network : HiddenNetwork}
variable (host : HiddenHost network)

theorem HiddenHost.no_colon : colon ∉ host.host := by
  rcases host.checked with unknown | checked
  · rw [unknown]
    exact network.unknownHost_no_colon
  · obtain ⟨name, same, letters⟩ := HiddenNetwork.hostCheck_split checked
    rw [same, mem_append]
    rintro (front | back)
    · exact absurd (letters _ front) (by decide)
    · exact network.tld_no_colon back

/-- The unknown host, or one with the last byte of its network. -/
theorem HiddenHost.unknown_or_ending :
    host.host = network.unknownHost ∨ host.host.getLast? = some network.ending := by
  rcases host.checked with unknown | checked
  · exact .inl unknown
  · obtain ⟨name, same, -⟩ := HiddenNetwork.hostCheck_split checked
    right
    rw [same, getLast?_append, network.tld_getLast?]
    rfl

theorem getIpStringFromInt32_no_colon (ip : BitVec 32) : colon ∉ getIpStringFromInt32 ip := by
  intro member
  have bytes := getIpStringFromInt32_bytes ip colon member
  revert bytes
  decide

/-- Hosts of different networks are printed differently. -/
theorem HiddenHost.network_eq {other : HiddenNetwork} (otherHost : HiddenHost other)
    (same : host.host = otherHost.host) : network = other := by
  rcases host.unknown_or_ending with unknown | known <;>
    rcases otherHost.unknown_or_ending with unknown' | known'
  · exact HiddenNetwork.unknownHost_injective (unknown.symm.trans (same.trans unknown'))
  · rw [← same, unknown, network.unknownHost_getLast?] at known'
    cases other <;> cases known'
  · rw [same, unknown', other.unknownHost_getLast?] at known
    cases network <;> cases known
  · rw [same, known'] at known
    revert known
    cases network <;> cases other <;> decide

theorem HiddenHost.ne_none : host.host ≠ ascii "<none>" := by
  intro same
  rcases host.checked with unknown | checked
  · rw [unknown] at same
    revert same
    cases network <;> decide
  · rw [same] at checked
    revert checked
    cases network <;> decide

/-- The last byte of a hidden host is neither a digit nor a point. -/
theorem HiddenHost.ne_ip (ip : BitVec 32) : host.host ≠ getIpStringFromInt32 ip := by
  intro same
  have bytes {byte : UInt8} (last : host.host.getLast? = some byte) :
      isDigit byte = true ∨ byte = point :=
    getIpStringFromInt32_bytes ip byte (same ▸ mem_of_getLast? last)
  rcases host.unknown_or_ending with unknown | known
  · have last := bytes (unknown ▸ network.unknownHost_getLast?)
    revert last
    decide
  · have last := bytes known
    revert last
    cases network <;> decide

theorem getIpStringFromInt32_ne_none (ip : BitVec 32) :
    getIpStringFromInt32 ip ≠ ascii "<none>" := by
  intro same
  have byte := getIpStringFromInt32_bytes ip 0x3c (same ▸ (by decide))
  revert byte
  decide

namespace NetworkAddress

variable {ipv6ToString : Ipv6 → HostText}

/-- Addresses that are not mapped are the same host when they are printed alike. -/
theorem isSameHost_iff (prints : PrintsIpv6 ipv6ToString) {a b : NetworkAddress}
    (unmapped : a.Unmapped) (unmapped' : b.Unmapped) :
    a.isSameHost b = true ↔ a.hostStr ipv6ToString = b.hostStr ipv6ToString := by
  have colonless (address : Ipv6) {text : HostText} (without : colon ∉ text) :
      ipv6ToString address ≠ text := fun same => without (same ▸ prints.colon address)
  have none_colonless : colon ∉ ascii "<none>" := by decide
  cases a with
  | none =>
    cases b with
    | none => simp [isSameHost]
    | ipv4 ip => simpa [isSameHost, hostStr] using (getIpStringFromInt32_ne_none ip).symm
    | ipv6 address => simpa [isSameHost, hostStr] using (colonless address none_colonless).symm
    | hidden network host => simpa [isSameHost, hostStr] using host.ne_none.symm
  | ipv4 ip =>
    cases b with
    | none => simpa [isSameHost, hostStr] using getIpStringFromInt32_ne_none ip
    | ipv4 other =>
      simpa [isSameHost] using
        ⟨congrArg getIpStringFromInt32, getIpStringFromInt32_injective⟩
    | ipv6 address =>
      have plain : address.isV4Mapped = false := unmapped'
      simpa [isSameHost, hostStr, plain] using
        (colonless address (getIpStringFromInt32_no_colon ip)).symm
    | hidden network host => simpa [isSameHost, hostStr] using (host.ne_ip ip).symm
  | ipv6 address =>
    have plain : address.isV4Mapped = false := unmapped
    cases b with
    | none => simpa [isSameHost, hostStr] using colonless address none_colonless
    | ipv4 ip =>
      simpa [isSameHost, hostStr, plain] using
        colonless address (getIpStringFromInt32_no_colon ip)
    | ipv6 other => simpa [isSameHost, hostStr] using prints.injective.eq_iff.symm
    | hidden network host => simpa [isSameHost, hostStr] using colonless address host.no_colon
  | hidden network host =>
    cases b with
    | none => simpa [isSameHost, hostStr] using host.ne_none
    | ipv4 ip => simpa [isSameHost, hostStr] using host.ne_ip ip
    | ipv6 address => simpa [isSameHost, hostStr] using (colonless address host.no_colon).symm
    | hidden other otherHost => simpa [isSameHost, hostStr] using host.network_eq otherHost

end NetworkAddress

end Memero
