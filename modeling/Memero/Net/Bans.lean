import Memero.Lib.Limits
import Memero.Net.Addresses

/-!
# Bans

`network/p2p/net_node_extra`: hosts are banned by their printed name and subnets by their bits, each
up to a limit, and a query drops what it finds past its limit. Against the list of the bans that were
placed, the tables answer every query right in the runs that stay off four things: addresses mapped
into IPv6, subnets that end inside an octet, a ban that cuts a longer one short, and a query that
drops the last subnet.
-/

namespace Memero

open List Table

open Limits

/-- `std::numeric_limits<time_t>::max()`. -/
def timeMax : Nat :=
  2 ^ 63 - 1

/-- `m_blocked_hosts` and `m_blocked_subnets`, the latter in the order of its keys. -/
structure BlockedHosts where
  hosts : Table HostText Nat
  subnets : Table SubnetKey Nat
  deriving DecidableEq

/-- The answer of `is_remote_host_allowed`, with the time that is left. -/
inductive Admission where
  | allowed
  | blocked (left : Nat)
  deriving DecidableEq

/-- The limit of a ban, capped at the last time. -/
def banLimit (now seconds : Nat) : Nat :=
  if timeMax - seconds < now then timeMax else now + seconds

/-- The loop of `is_remote_host_allowed` over the subnets. After a subnet is erased the log names the
one that follows it, so erasing the last one is undefined. -/
def sweepSubnets (now : Nat) (ip : BitVec 32) :
    Table SubnetKey Nat → Option (Admission × Table SubnetKey Nat)
  | [] => some (.allowed, [])
  | row :: rest =>
    if row.2 ≤ now then
      if rest.isEmpty then none else sweepSubnets now ip rest
    else if row.1.matchesIp ip then some (.blocked (row.2 - now), row :: rest)
    else (sweepSubnets now ip rest).map fun (answer, kept) => (answer, row :: kept)

namespace BlockedHosts

variable (ipv6ToString : Ipv6 → HostText)

/-- The part of `is_remote_host_allowed` after the hosts. -/
def checkSubnets (state : BlockedHosts) (now : Nat) :
    NetworkAddress → Option (Admission × BlockedHosts)
  | .ipv4 ip _ =>
    (sweepSubnets now ip state.subnets).map
      fun (answer, subnets) => (answer, { state with subnets })
  | _ => some (.allowed, state)

/-- `is_remote_host_allowed`. -/
def isRemoteHostAllowed (state : BlockedHosts) (now : Nat) (address : NetworkAddress) :
    Option (Admission × BlockedHosts) :=
  match state.hosts.find (address.hostStr ipv6ToString) with
  | some limit =>
    if limit ≤ now then
      checkSubnets { state with hosts := state.hosts.remove (address.hostStr ipv6ToString) } now
        address
    else some (.blocked (limit - now), state)
  | none => checkSubnets state now address

/-- `block_host`. -/
def blockHost (state : BlockedHosts) (now : Nat) (address : NetworkAddress) (seconds : Nat) :
    Bool × BlockedHosts :=
  if address.isBlockable then
    (true, { state with
      hosts := state.hosts.set (address.hostStr ipv6ToString) (banLimit now seconds) })
  else (false, state)

/-- `unblock_host`. -/
def unblockHost (state : BlockedHosts) (address : NetworkAddress) : Bool × BlockedHosts :=
  (state.hosts.has (address.hostStr ipv6ToString),
    { state with hosts := state.hosts.remove (address.hostStr ipv6ToString) })

/-- `block_subnet`. -/
def blockSubnet (state : BlockedHosts) (now : Nat) (net : Ipv4Subnet) (seconds : Nat) :
    Bool × BlockedHosts :=
  (true, { state with
    subnets := Table.insert SubnetKey.less net.key (banLimit now seconds) state.subnets })

/-- `unblock_subnet`. -/
def unblockSubnet (state : BlockedHosts) (net : Ipv4Subnet) : Bool × BlockedHosts :=
  (state.subnets.has net.key, { state with subnets := state.subnets.remove net.key })

end BlockedHosts

/-- The calls on the tables. -/
inductive BanCall where
  | isRemoteHostAllowed (address : NetworkAddress)
  | blockHost (address : NetworkAddress) (seconds : Nat)
  | unblockHost (address : NetworkAddress)
  | blockSubnet (net : Ipv4Subnet) (seconds : Nat)
  | unblockSubnet (net : Ipv4Subnet)

section Runs

variable (ipv6ToString : Ipv6 → HostText)

/-- The tables after a call at a time. -/
def BlockedHosts.call (state : BlockedHosts) (now : Nat) : BanCall → Option BlockedHosts
  | .isRemoteHostAllowed address =>
    (state.isRemoteHostAllowed ipv6ToString now address).map Prod.snd
  | .blockHost address seconds => some (state.blockHost ipv6ToString now address seconds).2
  | .unblockHost address => some (state.unblockHost ipv6ToString address).2
  | .blockSubnet net seconds => some (state.blockSubnet now net seconds).2
  | .unblockSubnet net => some (state.unblockSubnet net).2

/-- Calls one after the other. -/
def BlockedHosts.run : BlockedHosts → List (Nat × BanCall) → Option BlockedHosts
  | state, [] => some state
  | state, (now, call) :: rest => (state.call ipv6ToString now call).bind fun state => state.run rest

end Runs

/-! ## The bans that were placed -/

/-- Every ban that was placed and not lifted, with the time at which it ends. -/
structure Bans where
  hosts : List (NetworkAddress × Nat)
  subnets : List (Ipv4Subnet × Nat)

namespace Bans

/-- A subnet is named by its mask and the first bits of its address. -/
def SameSubnet (net other : Ipv4Subnet) : Prop :=
  net.mask = other.mask ∧ firstBits net.mask net.ip = firstBits net.mask other.ip

instance (net other : Ipv4Subnet) : Decidable (SameSubnet net other) :=
  inferInstanceAs (Decidable (_ ∧ _))

/-- The bans after a call. An address that cannot be blocked is not banned. -/
def call (bans : Bans) (now : Nat) : BanCall → Bans
  | .isRemoteHostAllowed _ => bans
  | .blockHost address seconds =>
    if address.isBlockable then { bans with hosts := (address, now + seconds) :: bans.hosts }
    else bans
  | .unblockHost address =>
    { bans with hosts := bans.hosts.filter fun ban => !address.isSameHost ban.1 }
  | .blockSubnet net seconds => { bans with subnets := (net, now + seconds) :: bans.subnets }
  | .unblockSubnet net =>
    { bans with subnets := bans.subnets.filter fun ban => !decide (SameSubnet net ban.1) }

/-- The bans after a list of calls. -/
def run (bans : Bans) (calls : List (Nat × BanCall)) : Bans :=
  calls.foldl (fun bans call => bans.call call.1 call.2) bans

/-- An address that a ban covers which has not ended. -/
def Covers (bans : Bans) (now : Nat) (address : NetworkAddress) : Prop :=
  (∃ ban ∈ bans.hosts, now < ban.2 ∧ address.isSameHost ban.1 = true) ∨
    ∃ ban ∈ bans.subnets, now < ban.2 ∧
      ∃ ip, address.toIpv4 = some ip ∧ firstBits ban.1.mask ip = firstBits ban.1.mask ban.1.ip

end Bans

/-! ## Fair runs -/

section Fair

variable (ipv6ToString : Ipv6 → HostText)

/-- A call on which the tables keep up with the bans: it names no mapped address and no subnet that
ends inside an octet, no ban ends before one it replaces, and a query that looks through the subnets
does not find the last one past its limit. -/
def BlockedHosts.Fair (state : BlockedHosts) (now : Nat) : BanCall → Prop
  | .isRemoteHostAllowed address =>
    address.Unmapped ∧ now < timeMax ∧
      (address.toIpv4.isSome = true → ∀ row ∈ state.subnets.getLast?, now < row.2)
  | .blockHost address seconds =>
    address.Unmapped ∧
      ∀ limit ∈ state.hosts.find (address.hostStr ipv6ToString), limit ≤ now + seconds
  | .unblockHost address => address.Unmapped
  | .blockSubnet net seconds =>
    net.mask % 8 = 0 ∧ ∀ row ∈ state.subnets, row.1 = net.key → row.2 ≤ now + seconds
  | .unblockSubnet net => net.mask % 8 = 0

/-- A run of fair calls. -/
def BlockedHosts.FairRun : BlockedHosts → List (Nat × BanCall) → Prop
  | _, [] => True
  | state, (now, call) :: rest =>
    state.Fair ipv6ToString now call ∧
      ∀ after ∈ state.call ipv6ToString now call, after.FairRun rest

/-- The tables hold what the bans do, from a time on. -/
structure Follows (now : Nat) (state : BlockedHosts) (bans : Bans) : Prop where
  hosts : Agree timeMax now state.hosts
    (bans.hosts.map fun ban => (ban.1.hostStr ipv6ToString, ban.2))
  unique : (state.hosts.map Prod.fst).Nodup
  unmapped : ∀ ban ∈ bans.hosts, ban.1.Unmapped
  subnets : Agree timeMax now state.subnets (bans.subnets.map fun ban => (ban.1.key, ban.2))
  whole : ∀ ban ∈ bans.subnets, ban.1.mask % 8 = 0

end Fair

variable {now : Nat}

/-- Below the last time the cap makes no difference. -/
theorem lt_banLimit {seconds time : Nat} (before : time < timeMax) :
    time < banLimit now seconds ↔ time < now + seconds := by
  unfold banLimit
  split <;> omega

/-- The sweep keeps every subnet that is not past its limit, and looks at each of them until one
matches. -/
theorem sweepSubnets_spec (ip : BitVec 32) {rows : Table SubnetKey Nat}
    (last : ∀ row ∈ rows.getLast?, now < row.2) :
    ∃ answer kept, sweepSubnets now ip rows = some (answer, kept) ∧
      (∀ row ∈ kept, row ∈ rows) ∧ (∀ row ∈ rows, now < row.2 → row ∈ kept) ∧
      (answer = .allowed ↔ ∀ row ∈ rows, now < row.2 → row.1.matchesIp ip = false) := by
  induction rows with
  | nil => exact ⟨.allowed, [], rfl, by simp, by simp, by simp⟩
  | cons row rest ih =>
    obtain ⟨answer, kept, swept, old, stays, verdict⟩ :=
      ih fun other member => last other (by simp [getLast?_cons, Option.mem_def.mp member])
    by_cases past : row.2 ≤ now
    · -- the last subnet is not past its limit, so there is one to name in the log
      have more : rest ≠ [] := by
        rintro rfl
        exact absurd (last row rfl) (Nat.not_lt.mpr past)
      have notEmpty : rest.isEmpty = false := by simpa using more
      refine ⟨answer, kept, ?_, fun row member => mem_cons_of_mem _ (old row member), ?_, ?_⟩
      · simp only [sweepSubnets, past, notEmpty, if_true, Bool.false_eq_true, if_false, swept]
      · intro other member ahead
        rcases mem_cons.mp member with rfl | member
        · omega
        · exact stays other member ahead
      · rw [verdict, forall_mem_cons]
        exact ⟨fun rest => ⟨fun ahead => by omega, rest⟩, fun all => all.2⟩
    · by_cases hit : row.1.matchesIp ip = true
      · refine ⟨.blocked (row.2 - now), row :: rest, by simp [sweepSubnets, past, hit],
          fun _ member => member, fun _ member _ => member, ?_⟩
        simp [hit, Nat.not_le.mp past]
      · refine ⟨answer, row :: kept, by simp [sweepSubnets, past, hit, swept], ?_, ?_, ?_⟩
        · rintro other (_ | ⟨_, member⟩)
          · exact mem_cons_self
          · exact mem_cons_of_mem _ (old other member)
        · rintro other (_ | ⟨_, member⟩) ahead
          · exact mem_cons_self
          · exact mem_cons_of_mem _ (stays other member ahead)
        · rw [verdict, forall_mem_cons]
          exact ⟨fun rest => ⟨fun _ => by simpa using hit, rest⟩, fun all => all.2⟩

namespace Follows

variable {ipv6ToString : Ipv6 → HostText} {before now : Nat} {state : BlockedHosts} {bans : Bans}

theorem later (follows : Follows ipv6ToString before state bans) (ordered : before ≤ now) :
    Follows ipv6ToString now state bans :=
  { follows with
    hosts := follows.hosts.later ordered
    subnets := follows.subnets.later ordered }

variable (follows : Follows ipv6ToString now state bans)

include follows

variable {host : HostText} {limit seconds : Nat} {net : Ipv4Subnet}

theorem mem_hosts_iff : (host, limit) ∈ state.hosts ↔ state.hosts.find host = some limit :=
  ⟨find_of_mem follows.unique, mem_of_find⟩

variable {address : NetworkAddress}

theorem blockHost (unmapped : address.Unmapped)
    (longest : ∀ limit ∈ state.hosts.find (address.hostStr ipv6ToString), limit ≤ now + seconds) :
    Follows ipv6ToString now (state.blockHost ipv6ToString now address seconds).2
      (bans.call now (.blockHost address seconds)) := by
  unfold BlockedHosts.blockHost Bans.call
  by_cases blockable : address.isBlockable = true
  · simp only [blockable]
    exact
      { follows with
        hosts := follows.hosts.place mem_cons_self
          (fun row member => (mem_cons.mp member).imp_right mem_of_mem_remove)
          (fun row member different => mem_cons_of_mem _
            (mem_filter.mpr ⟨member, decide_eq_true different⟩))
          (fun past member => longest past (follows.mem_hosts_iff.mp member))
          (fun time early => lt_banLimit early)
        unique := nodup_keys_set follows.unique _ _
        unmapped := forall_mem_cons.mpr ⟨unmapped, follows.unmapped⟩ }
  · simp only [blockable]
    exact follows

theorem unblockHost (prints : PrintsIpv6 ipv6ToString) (unmapped : address.Unmapped) :
    Follows ipv6ToString now (state.unblockHost ipv6ToString address).2
      (bans.call now (.unblockHost address)) :=
  { follows with
    hosts := follows.hosts.remove_map fun ban member => by
      have same := NetworkAddress.isSameHost_iff prints unmapped (follows.unmapped ban member)
      rw [Bool.not_eq_true', ← Bool.not_eq_true, same, eq_comm]
    unique := nodup_keys_remove follows.unique _
    unmapped := fun ban member => follows.unmapped ban (mem_of_mem_filter member) }

theorem blockSubnet (whole : net.mask % 8 = 0)
    (longest : ∀ row ∈ state.subnets, row.1 = net.key → row.2 ≤ now + seconds) :
    Follows ipv6ToString now (state.blockSubnet now net seconds).2
      (bans.call now (.blockSubnet net seconds)) :=
  { follows with
    subnets := follows.subnets.place (mem_insert_self _)
      (fun _ => eq_or_mem_of_mem_insert)
      (fun _ member different => mem_insert_of_ne SubnetKey.eq_of_not_less different member)
      (fun _ member => longest _ member rfl) (fun _ early => lt_banLimit early)
    whole := forall_mem_cons.mpr ⟨whole, follows.whole⟩ }

theorem unblockSubnet (whole : net.mask % 8 = 0) :
    Follows ipv6ToString now (state.unblockSubnet net).2 (bans.call now (.unblockSubnet net)) :=
  { follows with
    subnets := follows.subnets.remove_map fun ban _ => by
      have same : net.key = ban.1.key ↔ Bans.SameSubnet net ban.1 :=
        Ipv4Subnet.key_eq_iff_firstBits whole
      rw [Bool.not_eq_true', decide_eq_false_iff_not, ← same, eq_comm]
    whole := fun ban member => follows.whole ban (mem_of_mem_filter member) }

/-- A subnet in the table that matches is a ban that covers the address, and the other way round. -/
theorem exists_match_iff (ip : BitVec 32) (early : now < timeMax) :
    (∃ row ∈ state.subnets, now < row.2 ∧ row.1.matchesIp ip = true) ↔
      ∃ ban ∈ bans.subnets, now < ban.2 ∧
        firstBits ban.1.mask ip = firstBits ban.1.mask ban.1.ip := by
  constructor
  · rintro ⟨row, member, ahead, hit⟩
    obtain ⟨limit, listed, ahead⟩ :=
      (follows.subnets row.1 now le_rfl early).mp ⟨row.2, member, ahead⟩
    obtain ⟨ban, placed, same⟩ := mem_map.mp listed
    obtain ⟨key, rfl⟩ := Prod.mk.injEq .. ▸ same
    rw [← key, Ipv4Subnet.matchesIp_iff_firstBits (follows.whole ban placed)] at hit
    exact ⟨ban, placed, ahead, hit⟩
  · rintro ⟨ban, placed, ahead, bits⟩
    obtain ⟨limit, stored, ahead⟩ := (follows.subnets ban.1.key now le_rfl early).mpr
      ⟨ban.2, mem_map_of_mem placed, ahead⟩
    exact ⟨_, stored, ahead,
      (Ipv4Subnet.matchesIp_iff_firstBits (follows.whole ban placed) ip).mpr bits⟩

/-- A host with a limit ahead is banned, and the other way round. -/
theorem exists_limit_iff (prints : PrintsIpv6 ipv6ToString) (unmapped : address.Unmapped)
    (early : now < timeMax) :
    (∃ limit, state.hosts.find (address.hostStr ipv6ToString) = some limit ∧ now < limit) ↔
      ∃ ban ∈ bans.hosts, now < ban.2 ∧ address.isSameHost ban.1 = true := by
  have agree := follows.hosts (address.hostStr ipv6ToString) now le_rfl early
  simp only [Held, follows.mem_hosts_iff] at agree
  rw [agree]
  constructor
  · rintro ⟨limit, listed, ahead⟩
    obtain ⟨ban, placed, same⟩ := mem_map.mp listed
    obtain ⟨host, rfl⟩ := Prod.mk.injEq .. ▸ same
    exact ⟨ban, placed, ahead,
      (NetworkAddress.isSameHost_iff prints unmapped (follows.unmapped ban placed)).mpr host.symm⟩
  · rintro ⟨ban, placed, ahead, same⟩
    have host :=
      (NetworkAddress.isSameHost_iff prints unmapped (follows.unmapped ban placed)).mp same
    exact ⟨ban.2, mem_map.mpr ⟨ban, placed, by rw [host]⟩, ahead⟩

/-- The host is erased that a query finds past its limit. -/
theorem eraseHost (found : state.hosts.find host = some limit) (past : limit ≤ now) :
    Follows ipv6ToString now { state with hosts := state.hosts.remove host } bans :=
  { follows with
    hosts := by
      refine follows.hosts.drop (fun _ => mem_of_mem_remove) fun row member ahead => ?_
      refine mem_filter.mpr ⟨member, decide_eq_true ?_⟩
      rintro rfl
      have same : some row.2 = some limit := (follows.mem_hosts_iff.mp member).symm.trans found
      cases same
      omega
    unique := nodup_keys_remove follows.unique _ }

theorem checkSubnets (unmapped : address.Unmapped) (early : now < timeMax)
    (last : address.toIpv4.isSome = true → ∀ row ∈ state.subnets.getLast?, now < row.2) :
    ∃ answer after, state.checkSubnets now address = some (answer, after) ∧
      Follows ipv6ToString now after bans ∧
      (answer = .allowed ↔ ¬ ∃ ban ∈ bans.subnets, now < ban.2 ∧
        ∃ ip, address.toIpv4 = some ip ∧
          firstBits ban.1.mask ip = firstBits ban.1.mask ban.1.ip) := by
  -- only a plain IPv4 address is compared with the subnets
  have other (plain : address.toIpv4 = none) :
      Admission.allowed = .allowed ↔ ¬ ∃ ban ∈ bans.subnets, now < ban.2 ∧
        ∃ ip, address.toIpv4 = some ip ∧
          firstBits ban.1.mask ip = firstBits ban.1.mask ban.1.ip := by
    simp [plain]
  cases address with
  | none => exact ⟨_, _, rfl, follows, other rfl⟩
  | hidden network host port => exact ⟨_, _, rfl, follows, other rfl⟩
  | ipv6 address port =>
    have plain : address.isV4Mapped = false := unmapped
    exact ⟨_, _, rfl, follows, other (by simp [NetworkAddress.toIpv4, plain])⟩
  | ipv4 ip port =>
    obtain ⟨answer, kept, swept, old, stays, verdict⟩ := sweepSubnets_spec ip (last rfl)
    refine ⟨answer, { state with subnets := kept }, ?_, ?_, ?_⟩
    · simp only [BlockedHosts.checkSubnets, swept, Option.map_some]
    · exact { follows with subnets := follows.subnets.drop old stays }
    · have matched := follows.exists_match_iff ip early
      simp only [NetworkAddress.toIpv4, Option.some.injEq, exists_eq_left', ← matched]
      rw [verdict]
      simp

theorem isRemoteHostAllowed (prints : PrintsIpv6 ipv6ToString)
    (fair : state.Fair ipv6ToString now (.isRemoteHostAllowed address)) :
    ∃ answer after, state.isRemoteHostAllowed ipv6ToString now address = some (answer, after) ∧
      Follows ipv6ToString now after bans ∧ (answer = .allowed ↔ ¬ bans.Covers now address) := by
  obtain ⟨unmapped, early, last⟩ := fair
  have host := follows.exists_limit_iff prints unmapped early
  unfold Bans.Covers
  rw [← host]
  cases found : state.hosts.find (address.hostStr ipv6ToString) with
  | none =>
    obtain ⟨answer, after, checked, next, verdict⟩ := follows.checkSubnets unmapped early last
    refine ⟨answer, after, ?_, next, ?_⟩
    · simp only [BlockedHosts.isRemoteHostAllowed, found, checked]
    · simpa using verdict
  | some limit =>
    by_cases past : limit ≤ now
    · obtain ⟨answer, after, checked, next, verdict⟩ :=
        (follows.eraseHost found past).checkSubnets unmapped early last
      refine ⟨answer, after, ?_, next, ?_⟩
      · simp only [BlockedHosts.isRemoteHostAllowed, found, past, if_true, checked]
      · simpa [past] using verdict
    · refine ⟨.blocked (limit - now), state, ?_, follows, ?_⟩
      · simp only [BlockedHosts.isRemoteHostAllowed, found, past, if_false]
      · simp [Nat.not_le.mp past]

/-- A fair call keeps the tables with the bans. -/
theorem call (prints : PrintsIpv6 ipv6ToString) {call : BanCall}
    (fair : state.Fair ipv6ToString now call) :
    ∃ after, state.call ipv6ToString now call = some after ∧
      Follows ipv6ToString now after (bans.call now call) := by
  cases call with
  | isRemoteHostAllowed address =>
    obtain ⟨answer, after, asked, next, -⟩ := follows.isRemoteHostAllowed prints fair
    exact ⟨after, by simp only [BlockedHosts.call, asked, Option.map_some], next⟩
  | blockHost address seconds => exact ⟨_, rfl, follows.blockHost fair.1 fair.2⟩
  | unblockHost address => exact ⟨_, rfl, follows.unblockHost prints fair⟩
  | blockSubnet net seconds => exact ⟨_, rfl, follows.blockSubnet fair.1 fair.2⟩
  | unblockSubnet net => exact ⟨_, rfl, follows.unblockSubnet fair⟩

end Follows

/-! ## Whole runs -/

/-- No host and no subnet is blocked. -/
def BlockedHosts.empty : BlockedHosts where
  hosts := []
  subnets := []

/-- No ban was placed. -/
def Bans.empty : Bans where
  hosts := []
  subnets := []

section Runs

variable {ipv6ToString : Ipv6 → HostText}

theorem Follows.empty : Follows ipv6ToString 0 .empty .empty where
  hosts := Agree.nil
  unique := List.nodup_nil
  unmapped := by simp [Bans.empty]
  subnets := Agree.nil
  whole := by simp [Bans.empty]

/-- A fair run on a clock that does not go back keeps the tables with the bans. -/
theorem Follows.run (prints : PrintsIpv6 ipv6ToString) {calls : List (Nat × BanCall)}
    {query : Nat × BanCall} {before : Nat} {state : BlockedHosts} {bans : Bans}
    (follows : Follows ipv6ToString before state bans)
    (ordered : (before :: (calls ++ [query]).map Prod.fst).Pairwise (· ≤ ·))
    (fair : state.FairRun ipv6ToString (calls ++ [query])) :
    ∃ after, state.run ipv6ToString calls = some after ∧
      Follows ipv6ToString query.1 after (bans.run calls) ∧
      after.Fair ipv6ToString query.1 query.2 := by
  induction calls generalizing before state bans with
  | nil =>
    have next := rel_of_pairwise_cons ordered (mem_singleton_self _)
    exact ⟨state, rfl, follows.later next, fair.1⟩
  | cons call rest ih =>
    have next := rel_of_pairwise_cons ordered mem_cons_self
    obtain ⟨after, called, follows⟩ := (follows.later next).call prints fair.1
    obtain ⟨last, ran, follows⟩ := ih follows ordered.tail (fair.2 after called)
    exact ⟨last, by simp only [BlockedHosts.run, called, Option.bind_some, ran], follows⟩

/-- In a fair run a query refuses the addresses that a ban covers, and no others. -/
theorem isRemoteHostAllowed_iff (prints : PrintsIpv6 ipv6ToString) {calls : List (Nat × BanCall)}
    {now : Nat} {address : NetworkAddress}
    (ordered : ((calls ++ [(now, BanCall.isRemoteHostAllowed address)]).map Prod.fst).Pairwise
      (· ≤ ·))
    (fair : BlockedHosts.empty.FairRun ipv6ToString
      (calls ++ [(now, .isRemoteHostAllowed address)])) :
    ∃ state answer after, BlockedHosts.empty.run ipv6ToString calls = some state ∧
      state.isRemoteHostAllowed ipv6ToString now address = some (answer, after) ∧
      (answer = .allowed ↔ ¬ (Bans.empty.run calls).Covers now address) := by
  have clock := pairwise_cons.mpr ⟨fun time _ => Nat.zero_le time, ordered⟩
  obtain ⟨state, ran, follows, last⟩ := Follows.empty.run prints clock fair
  obtain ⟨answer, after, asked, -, verdict⟩ := follows.isRemoteHostAllowed prints last
  exact ⟨state, answer, after, ran, asked, verdict⟩

end Runs

/-- A subnet written as `a.b.c.d/mask`. -/
def subnetOf (a b c d : Nat) (mask : Fin 33) : Ipv4Subnet where
  ip := BitVec.ofNat 32 (a + 256 * b + 65536 * c + 16777216 * d)
  mask := mask
  narrow := Nat.le_of_lt_succ mask.isLt

/-- An address written as `a.b.c.d`. -/
def hostOf (a b c d : Nat) : NetworkAddress :=
  .ipv4 (BitVec.ofNat 32 (a + 256 * b + 65536 * c + 16777216 * d)) 0

theorem isRemoteHostAllowed_ten :
    ∃ state answer after,
      BlockedHosts.empty.run ipv6Words [(5, .blockSubnet (subnetOf 10 0 0 0 8) 100)] = some state ∧
      state.isRemoteHostAllowed ipv6Words 6 (hostOf 10 1 2 3) = some (answer, after) ∧
      (answer = .allowed ↔
        ¬ (Bans.empty.run [(5, .blockSubnet (subnetOf 10 0 0 0 8) 100)]).Covers 6
          (hostOf 10 1 2 3)) := by
  refine isRemoteHostAllowed_iff ipv6Words_prints (by decide) ⟨⟨by decide, by decide⟩, ?_⟩
  rintro after called
  cases called
  refine ⟨⟨trivial, by decide, fun _ => by decide⟩, fun _ _ => trivial⟩

/-- What `is_remote_host_allowed` answers after a run. -/
def answerAfter (calls : List (Nat × BanCall)) (now : Nat) (address : NetworkAddress) :
    Option Admission :=
  ((BlockedHosts.empty.run ipv6Words calls).bind fun state =>
    state.isRemoteHostAllowed ipv6Words now address).map Prod.fst

/-- `::ffff:1.2.3.4`. -/
def mappedHost : NetworkAddress :=
  .ipv6 { bytes := #v[0, 0, 0, 0, 0, 0, 0, 0, 0, 0, 0xff, 0xff, 1, 2, 3, 4], scopeId := 0 } 0

/-- An address inside `10.16.0.0/12` is let in under a ban of that subnet, `1.2.3.4` under one of the
same address mapped into IPv6, and under one that a shorter ban replaced; dropping the last subnet is
undefined. -/
theorem allowed_under_ban :
    (answerAfter [(0, .blockSubnet (subnetOf 10 16 0 0 12) 100)] 1 (hostOf 10 17 0 1) =
        some .allowed ∧
      (Bans.empty.run [(0, .blockSubnet (subnetOf 10 16 0 0 12) 100)]).Covers 1
        (hostOf 10 17 0 1)) ∧
    (answerAfter [(0, .blockHost mappedHost 100)] 1 (hostOf 1 2 3 4) = some .allowed ∧
      (Bans.empty.run [(0, .blockHost mappedHost 100)]).Covers 1 (hostOf 1 2 3 4)) ∧
    (answerAfter [(0, .blockHost (hostOf 1 2 3 4) 100), (1, .blockHost (hostOf 1 2 3 4) 10)] 20
        (hostOf 1 2 3 4) = some .allowed ∧
      (Bans.empty.run [(0, .blockHost (hostOf 1 2 3 4) 100),
        (1, .blockHost (hostOf 1 2 3 4) 10)]).Covers 20 (hostOf 1 2 3 4)) ∧
    answerAfter [(0, .blockSubnet (subnetOf 10 0 0 0 8) 100)] 200 (hostOf 1 2 3 4) = none := by
  refine ⟨⟨by decide +kernel, .inr ⟨_, mem_cons_self, by decide, _, rfl, by decide⟩⟩,
    ⟨by decide +kernel, .inl ⟨_, mem_cons_self, by decide, by decide +kernel⟩⟩,
    ⟨by decide +kernel, .inl ⟨_, mem_cons_of_mem _ mem_cons_self, by decide, by decide⟩⟩,
    by decide +kernel⟩

end Memero
