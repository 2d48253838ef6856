import Memero.Net.Addresses

/-!
# Lists of peers

`network/p2p/net_peerlist` and the candidates of `make_new_connection_from_peerlist` in
`net_node_extra.cpp`. The callback that looks for peers to skip counts them, and lists them all the
same.
-/

namespace Memero

open List

/-- `peerlist_entry`. -/
structure PeerlistEntry where
  adr : NetworkAddress
  id : Nat
  lastSeen : Int

/-! ## White and gray list -/

deriving instance DecidableEq for NetworkAddress

namespace NetworkAddress

/-- `is_loopback`. -/
def isLoopback : NetworkAddress → Bool
  | ipv4 ip _ => (ip ||| 0xffffff00) == 0xffffff7f
  | ipv6 address _ => address.bytes.toList == replicate 15 0 ++ [1]
  | _ => false

/-- `is_local`: `is_ip_local` or `is_link_local`. -/
def isLocal : NetworkAddress → Bool
  | ipv4 ip _ =>
    let secondNum := (ip >>> 8) &&& 0xff
    (ip ||| 0xffffff00) == 0xffffff0a || (ip ||| 0xffff0000) == 0xffffa8c0 ||
      (ip ||| 0xffffff00) == 0xffffffac && 16 ≤ secondNum && secondNum ≤ 31
  | ipv6 address _ => address.bytes[0] == 0xfe && (address.bytes[1] &&& 0xc0) == 0x80
  | _ => false

theorem isSameHost_comm (a b : NetworkAddress) : a.isSameHost b = b.isSameHost a := by
  cases a <;> cases b <;> simp [isSameHost, Bool.beq_comm]

end NetworkAddress

/-- `peerlist_manager`: the entries by time, the stalest first. -/
structure PeerLists where
  allowLocalIp : Bool
  white : List PeerlistEntry
  gray : List PeerlistEntry

/-- `P2P_LOCAL_WHITE_PEERLIST_LIMIT`. -/
def whitePeerlistLimit : Nat := 1000

/-- `P2P_LOCAL_GRAY_PEERLIST_LIMIT`. -/
def grayPeerlistLimit : Nat := 5000

/-- The addresses of a list. -/
abbrev addresses (peers : List PeerlistEntry) : List NetworkAddress := peers.map (·.adr)

/-- `insert`: behind the entries that were seen at the same time. -/
def insertByTime (ple : PeerlistEntry) (peers : List PeerlistEntry) : List PeerlistEntry :=
  peers.takeWhile (·.lastSeen ≤ ple.lastSeen) ++ ple ::
    peers.dropWhile (·.lastSeen ≤ ple.lastSeen)

/-- `trim_white_peerlist` and `trim_gray_peerlist`. -/
def trimPeerlist (limit : Nat) (peers : List PeerlistEntry) : List PeerlistEntry :=
  peers.drop (peers.length - limit)

/-- `replace` by an entry that keeps the time. -/
def replaceEntry (ple : PeerlistEntry) (peers : List PeerlistEntry) : List PeerlistEntry :=
  peers.map fun pe => if pe.adr = ple.adr then { ple with lastSeen := pe.lastSeen } else pe

/-- `erase` of the entry with an address. -/
def eraseAddress (adr : NetworkAddress) (peers : List PeerlistEntry) : List PeerlistEntry :=
  peers.filter (·.adr ≠ adr)

/-- How both lists take an entry: in place of one with its address, or into what is kept. -/
def storeEntry (limit : Nat) (kept : List PeerlistEntry) (ple : PeerlistEntry)
    (peers : List PeerlistEntry) : List PeerlistEntry :=
  if ple.adr ∈ addresses peers then
    replaceEntry ple peers
  else
    trimPeerlist limit (insertByTime ple kept)

namespace PeerLists

variable (lists : PeerLists)

/-- `is_host_allowed`. -/
def isHostAllowed (address : NetworkAddress) : Bool :=
  !address.isLoopback && (lists.allowLocalIp || !address.isLocal)

/-- `append_with_peer_white`, with `evict_host_from_white_peerlist`. -/
def appendWithPeerWhite (ple : PeerlistEntry) : PeerLists :=
  if !lists.isHostAllowed ple.adr then
    lists
  else
    let kept := lists.white.filter fun pe => !pe.adr.isSameHost ple.adr
    { lists with
      white := storeEntry whitePeerlistLimit kept ple lists.white
      gray := eraseAddress ple.adr lists.gray }

/-- `append_with_peer_gray`. -/
def appendWithPeerGray (ple : PeerlistEntry) : PeerLists :=
  if !lists.isHostAllowed ple.adr ∨ ple.adr ∈ addresses lists.white then
    lists
  else
    { lists with gray := storeEntry grayPeerlistLimit lists.gray ple lists.gray }

/-- `set_peer_just_seen`. -/
def setPeerJustSeen (now : Int) (peer : Nat) (addr : NetworkAddress) : PeerLists :=
  lists.appendWithPeerWhite ⟨addr, peer, now⟩

/-- `merge_peerlist`. -/
def mergePeerlist (outer : List PeerlistEntry) (f : PeerlistEntry → Bool) : PeerLists :=
  let merged := (outer.filter f).foldl appendWithPeerGray lists
  { merged with gray := trimPeerlist grayPeerlistLimit merged.gray }

end PeerLists

/-- The operations on the lists. -/
inductive PeerlistCall where
  | setPeerJustSeen (now : Int) (peer : Nat) (addr : NetworkAddress)
  | appendWithPeerWhite (ple : PeerlistEntry)
  | appendWithPeerGray (ple : PeerlistEntry)
  | mergePeerlist (outer : List PeerlistEntry) (f : PeerlistEntry → Bool)
  | removeFromPeerWhite (pe : PeerlistEntry)
  | removeFromPeerGray (pe : PeerlistEntry)

/-- One operation. -/
def PeerLists.perform (lists : PeerLists) : PeerlistCall → PeerLists
  | .setPeerJustSeen now peer addr => lists.setPeerJustSeen now peer addr
  | .appendWithPeerWhite ple => lists.appendWithPeerWhite ple
  | .appendWithPeerGray ple => lists.appendWithPeerGray ple
  | .mergePeerlist outer f => lists.mergePeerlist outer f
  | .removeFromPeerWhite pe => { lists with white := eraseAddress pe.adr lists.white }
  | .removeFromPeerGray pe => { lists with gray := eraseAddress pe.adr lists.gray }

/-- What holds of the lists after each operation. -/
structure PeerLists.Consistent (lists : PeerLists) : Prop where
  apart : ∀ a ∈ addresses lists.white, a ∉ addresses lists.gray
  hosts : (addresses lists.white).Pairwise fun a b => a.isSameHost b = false
  allowed : ∀ a ∈ addresses lists.white ++ addresses lists.gray, lists.isHostAllowed a = true
  white_le : lists.white.length ≤ whitePeerlistLimit
  gray_le : lists.gray.length ≤ grayPeerlistLimit

section Stored

variable {limit : Nat} {ple : PeerlistEntry} {kept peers : List PeerlistEntry}

theorem insertByTime_perm : insertByTime ple peers ~ ple :: peers := by
  unfold insertByTime
  refine perm_middle.trans ?_
  rw [takeWhile_append_dropWhile]

theorem trimPeerlist_length_le : (trimPeerlist limit peers).length ≤ limit := by
  rw [trimPeerlist, length_drop]
  omega

theorem addresses_replaceEntry : addresses (replaceEntry ple peers) = addresses peers := by
  unfold addresses replaceEntry
  rw [map_map]
  refine map_congr_left fun pe _ => ?_
  dsimp only [Function.comp]
  split
  · rename_i same
    exact same.symm
  · rfl

theorem storeEntry_length_le (small : peers.length ≤ limit) :
    (storeEntry limit kept ple peers).length ≤ limit := by
  unfold storeEntry
  split
  · rwa [replaceEntry, length_map]
  · exact trimPeerlist_length_le

theorem addresses_storeEntry (sub : kept <+ peers) :
    ∀ a ∈ addresses (storeEntry limit kept ple peers), a = ple.adr ∨ a ∈ addresses peers := by
  intro a member
  unfold storeEntry at member
  split at member
  · rw [addresses_replaceEntry] at member
    exact .inr member
  · have inserted := ((drop_sublist _ _).map _).subset member
    rcases mem_cons.mp ((insertByTime_perm.map _).subset inserted) with here | there
    · exact .inl here
    · exact .inr ((sub.map _).subset there)

/-- The entry is on no host of another one. -/
theorem storeEntry_hosts (hosts : (addresses peers).Pairwise fun a b => a.isSameHost b = false) :
    (addresses (storeEntry limit (peers.filter fun pe => !pe.adr.isSameHost ple.adr) ple
      peers)).Pairwise fun a b => a.isSameHost b = false := by
  unfold storeEntry
  split
  · rwa [addresses_replaceEntry]
  · refine ((pairwise_cons (a := ple.adr)).mpr ⟨?_, hosts.sublist (filter_sublist.map _)⟩).perm
      (insertByTime_perm.map _).symm (fun same => ?_) |>.sublist ((drop_sublist _ _).map _)
    · intro b member
      obtain ⟨pe, present, rfl⟩ := mem_map.mp member
      rw [NetworkAddress.isSameHost_comm]
      simpa using (mem_filter.mp present).2
    · rwa [NetworkAddress.isSameHost_comm]

end Stored

namespace PeerLists.Consistent

variable {lists : PeerLists}
variable (consistent : lists.Consistent)
include consistent

/-- Entries can be left out. -/
theorem of_sublist {white gray : List PeerlistEntry} (fewerWhite : white <+ lists.white)
    (fewerGray : gray <+ lists.gray) :
    Consistent { lists with white, gray } where
  apart a member other :=
    consistent.apart a ((fewerWhite.map _).subset member) ((fewerGray.map _).subset other)
  hosts := consistent.hosts.sublist (fewerWhite.map _)
  allowed a member :=
    consistent.allowed a (((fewerWhite.map _).append (fewerGray.map _)).subset member)
  white_le := fewerWhite.length_le.trans consistent.white_le
  gray_le := fewerGray.length_le.trans consistent.gray_le

theorem appendWithPeerWhite (ple : PeerlistEntry) : (lists.appendWithPeerWhite ple).Consistent := by
  unfold PeerLists.appendWithPeerWhite
  split
  · exact consistent
  · rename_i refused
    have welcome : lists.isHostAllowed ple.adr = true := by simpa using refused
    refine ⟨?_, storeEntry_hosts consistent.hosts, ?_, storeEntry_length_le consistent.white_le,
      length_filter_le .. |>.trans consistent.gray_le⟩
    · intro a member other
      obtain ⟨pe, left, rfl⟩ := mem_map.mp other
      have ⟨present, different⟩ := mem_filter.mp left
      rcases addresses_storeEntry filter_sublist _ member with here | there
      · exact of_decide_eq_true different here
      · exact consistent.apart _ there (mem_map_of_mem present)
    · intro a member
      rcases mem_append.mp member with white | gray
      · rcases addresses_storeEntry filter_sublist a white with rfl | there
        · exact welcome
        · exact consistent.allowed a (mem_append_left _ there)
      · exact consistent.allowed a (mem_append_right _ ((filter_sublist.map _).subset gray))

theorem appendWithPeerGray (ple : PeerlistEntry) : (lists.appendWithPeerGray ple).Consistent := by
  unfold PeerLists.appendWithPeerGray
  split
  · exact consistent
  · rename_i refused
    simp only [not_or, Bool.not_eq_true, Bool.not_eq_false'] at refused
    obtain ⟨welcome, unknown⟩ := refused
    refine ⟨?_, consistent.hosts, ?_, consistent.white_le, storeEntry_length_le consistent.gray_le⟩
    · intro a member other
      rcases addresses_storeEntry (Sublist.refl _) a other with rfl | there
      · exact unknown member
      · exact consistent.apart a member there
    · intro a member
      rcases mem_append.mp member with white | gray
      · exact consistent.allowed a (mem_append_left _ white)
      · rcases addresses_storeEntry (Sublist.refl _) a gray with rfl | there
        · exact welcome
        · exact consistent.allowed a (mem_append_right _ there)

theorem perform (call : PeerlistCall) : (lists.perform call).Consistent := by
  cases call with
  | setPeerJustSeen now peer addr => exact consistent.appendWithPeerWhite _
  | appendWithPeerWhite ple => exact consistent.appendWithPeerWhite ple
  | appendWithPeerGray ple => exact consistent.appendWithPeerGray ple
  | mergePeerlist outer f =>
    have merged : ((outer.filter f).foldl PeerLists.appendWithPeerGray lists).Consistent :=
      foldlRecOn _ _ consistent fun _ so pe _ => so.appendWithPeerGray pe
    exact merged.of_sublist (Sublist.refl _) (drop_sublist _ _)
  | removeFromPeerWhite pe => exact consistent.of_sublist filter_sublist (Sublist.refl _)
  | removeFromPeerGray pe => exact consistent.of_sublist (Sublist.refl _) filter_sublist

end PeerLists.Consistent

/-- The lists are consistent after all operations. -/
theorem peerLists_consistent (allowLocalIp : Bool) (calls : List PeerlistCall) :
    (calls.foldl PeerLists.perform ⟨allowLocalIp, [], []⟩).Consistent := by
  refine foldlRecOn _ _ ⟨?_, Pairwise.nil, ?_, Nat.zero_le _, Nat.zero_le _⟩
    fun _ so call _ => so.perform call
  · exact fun _ member => absurd member not_mem_nil
  · exact fun _ member => absurd member not_mem_nil

/-! ## Candidates for a connection -/

/-- The key of a /16 network; the number of an address has its first octet lowest. -/
def NetworkAddress.classB (address : NetworkAddress) : Option (BitVec 32) :=
  address.toIpv4.map (· &&& 0x0000ffff)

/-- `get_host_string`. -/
def NetworkAddress.getHostString (ipv6ToString : Ipv6 → HostText) (address : NetworkAddress) :
    HostText :=
  address.toIpv4.elim (address.hostStr ipv6ToString) getIpStringFromInt32

/-- What the callback changes. -/
structure Filtering where
  filtered : List Nat
  idx : Nat
  skipped : Nat
  hostsAdded : List HostText

/-- `foreach` with the callback of `make_new_connection_from_peerlist`. -/
def filterPeers (ipv6ToString : Ipv6 → HostText) (classB : List (BitVec 32)) (limit : Nat)
    (skipDuplicateClassB : Bool) : List PeerlistEntry → Filtering → Filtering
  | [], state => state
  | pe :: rest, state =>
    if state.filtered.length ≥ limit then
      state
    else
      let host := pe.adr.getHostString ipv6ToString
      let shared := skipDuplicateClassB && pe.adr.classB.any classB.contains
      let skip := shared || state.hostsAdded.contains host
      filterPeers ipv6ToString classB limit skipDuplicateClassB rest
        { filtered := state.filtered ++ [state.idx]
          idx := state.idx + 1
          skipped := if skip then state.skipped + 1 else state.skipped
          hostsAdded := host :: state.hostsAdded }

/-- How many candidates there may be. -/
def candidateLimit (useWhiteList : Bool) : Nat :=
  if useWhiteList then 20 else 2 ^ 64 - 1

/-- The places among which `make_new_connection_from_peerlist` draws, in a list from the last seen
peer on. -/
def candidates (ipv6ToString : Ipv6 → HostText) (publicZone useWhiteList : Bool)
    (connections : List NetworkAddress) (peers : List PeerlistEntry) : List Nat :=
  let classB := if publicZone then connections.filterMap NetworkAddress.classB else []
  let pass := filterPeers ipv6ToString classB (candidateLimit useWhiteList)
  let first := pass true peers { filtered := [], idx := 0, skipped := 0, hostsAdded := [] }
  if first.skipped = 0 ∨ first.filtered ≠ [] then
    first.filtered
  else
    (pass false peers { first with idx := 0, skipped := 0 }).filtered

/-- The /16 network of a peer is that of an open connection. -/
def SharesNetwork (connections : List NetworkAddress) (pe : PeerlistEntry) : Prop :=
  ∃ connection ∈ connections, pe.adr.classB.isSome ∧ connection.classB = pe.adr.classB

/-- Chosen peers are on different hosts, and in networks without a connection if there are any
such peers. -/
structure Diverse (connections : List NetworkAddress) (peers chosen : List PeerlistEntry) :
    Prop where
  hosts : chosen.Pairwise fun a b => a.adr.isSameHost b.adr = false
  networks : ∀ pe ∈ chosen, SharesNetwork connections pe →
    ∀ other ∈ peers, SharesNetwork connections other

section Candidates

variable {ipv6ToString : Ipv6 → HostText} {publicZone useWhiteList : Bool}
  {connections : List NetworkAddress} {peers : List PeerlistEntry}

/-- A pass lists every place up to the limit. -/
theorem filterPeers_filtered {classB : List (BitVec 32)} {limit : Nat} {duplicate : Bool}
    {state : Filtering} (listed : state.filtered = range state.idx) (below : state.idx ≤ limit) :
    (filterPeers ipv6ToString classB limit duplicate peers state).filtered =
      range (min limit (state.idx + peers.length)) := by
  induction peers generalizing state with
  | nil => rw [filterPeers, listed, length_nil, Nat.add_zero, Nat.min_eq_right below]
  | cons pe rest ih =>
    rw [filterPeers, listed, length_range, length_cons]
    split
    · rename_i full
      rw [listed, Nat.min_eq_left (by omega), Nat.le_antisymm below full]
    · rename_i room
      rw [ih range_succ.symm (Nat.succ_le_of_lt (Nat.lt_of_not_le room))]
      dsimp only
      rw [Nat.add_right_comm, Nat.add_assoc]

/-- The candidates are all peers up to the limit. -/
theorem candidates_eq : candidates ipv6ToString publicZone useWhiteList connections peers =
    range (min (candidateLimit useWhiteList) peers.length) := by
  unfold candidates
  generalize (if publicZone then connections.filterMap NetworkAddress.classB else []) = classB
  dsimp only
  split
  · rw [filterPeers_filtered rfl (Nat.zero_le _), Nat.zero_add]
  · rename_i empty
    simp only [not_or, not_not] at empty
    rw [filterPeers_filtered empty.2 (Nat.zero_le _), Nat.zero_add]

theorem filterMap_candidates :
    (candidates ipv6ToString publicZone useWhiteList connections peers).filterMap (peers[·]?) =
      peers.take (candidateLimit useWhiteList) := by
  have places : ∀ n, (range n).filterMap (peers[·]?) = peers.take n := by
    intro n
    induction n with
    | zero => rfl
    | succ n ih =>
      rw [range_succ, filterMap_append, ih, take_add_one]
      cases found : peers[n]? <;> simp [found]
  rw [candidates_eq, places, ← take_eq_take_min]

/-- The candidates are diverse exactly if all peers up to the limit are. -/
theorem candidates_diverse_iff :
    Diverse connections (peers.take (candidateLimit useWhiteList))
        ((candidates ipv6ToString publicZone useWhiteList connections peers).filterMap
          (peers[·]?)) ↔
      (peers.take (candidateLimit useWhiteList)).Pairwise
          (fun a b => a.adr.isSameHost b.adr = false) ∧
        ((∀ pe ∈ peers.take (candidateLimit useWhiteList), ¬ SharesNetwork connections pe) ∨
          ∀ pe ∈ peers.take (candidateLimit useWhiteList), SharesNetwork connections pe) := by
  rw [filterMap_candidates]
  constructor
  · rintro ⟨hosts, networks⟩
    refine ⟨hosts, ?_⟩
    by_cases none : ∀ pe ∈ peers.take (candidateLimit useWhiteList), ¬ SharesNetwork connections pe
    · exact .inl none
    · push Not at none
      obtain ⟨pe, member, shares⟩ := none
      exact .inr (networks pe member shares)
  · rintro ⟨hosts, none | every⟩
    · exact ⟨hosts, fun pe member shares => absurd shares (none pe member)⟩
    · exact ⟨hosts, fun _ _ _ => every⟩

end Candidates

/-- Two ports of one host. -/
def twoPorts : List PeerlistEntry :=
  [⟨.ipv4 1 18080, 0, 2⟩, ⟨.ipv4 1 18081, 0, 1⟩]

theorem twoPorts_both_candidates :
    ¬ Diverse [] (twoPorts.take (candidateLimit true))
      ((candidates (fun _ => []) true true [] twoPorts).filterMap (twoPorts[·]?)) := by
  rw [filterMap_candidates]
  rintro ⟨hosts, -⟩
  have different := (pairwise_cons.mp hosts).1 _ mem_cons_self
  cases different

end Memero
