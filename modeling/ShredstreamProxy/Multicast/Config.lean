import ShredstreamProxy.Multicast.Address
import ShredstreamProxy.Lib.KeyedFold

/-!
# Multicast sockets

Besides its own port the proxy may listen to multicast groups.  The groups are given on the
command line, or they are discovered among the routes of a network device: a route to a single
multicast address names a group.  One socket is bound for each family that has a group, and it
joins the groups of that family.  The tool that lists routes, addresses and links, the JSON
library and the sockets of the system are parameters, with any outcome at every use.

Main results:

- Theorem {lit}`routeGroup_eq_some_iff`: the routes that name a group.
- Theorem {lit}`route_groups_exact`: the discovered groups, each once and in order.
- Theorem {lit}`multicast_joins_exactly`: which groups the sockets join.
-/

namespace ShredstreamProxy

open Digits KeyedFold

/-! ## Rows of the tool -/

structure RouteRow where
  dst : String
deriving DecidableEq

structure AddrInfo where
  family : Option String
  localAddr : Option String
deriving DecidableEq

structure IfaceRow where
  addrInfo : Option (List AddrInfo)
deriving DecidableEq

structure LinkRow where
  ifindex : Option UInt32
deriving DecidableEq

/-- The JSON library: the rows that a text is read as, if it is read at all. -/
structure SerdeJson where
  routeRows : Bytes → Option (List RouteRow)
  ifaceRows : Bytes → Option (List IfaceRow)
  linkRows : Bytes → Option (List LinkRow)

/-- The parts of a text around the first occurrence of a character. -/
def splitOnce (c : Char) : List Char → Option (List Char × List Char)
  | [] => none
  | x :: text =>
      if x = c then some ([], text) else (splitOnce c text).map fun r => (x :: r.1, r.2)

namespace IpAddr

/-- The length of a mask that leaves a single address. -/
def fullMask : IpAddr → Nat
  | v4 _ => 32
  | v6 _ => 128

end IpAddr

/-- The group that a route leads to: its destination must be a multicast address, alone or with a
mask of full length. -/
def routeGroup (row : RouteRow) : Option IpAddr :=
  match splitOnce '/' row.dst.toList with
  | some (base, maskStr) => do
      let ip ← parseIpAddr base
      let mask ← parseU8 maskStr
      if ip.isMulticast && decide (mask.val = ip.fullMask) then some ip else none
  | none => do
      let ip ← parseIpAddr row.dst.toList
      if ip.isMulticast then some ip else none

/-- The multicast groups among the routes of a device. -/
def parseIpRouteForDevice (json : SerdeJson) (bytes : Bytes) : Option (List IpAddr) :=
  (json.routeRows bytes).map fun rows => sortDedup (· ≤ ·) (rows.filterMap routeGroup)

/-- The first IPv4 address of a device that the tool shows, if it can be parsed. -/
def parseIpv4AddrFromIpAddrShowJson (json : SerdeJson) (bytes : Bytes) :
    Option (Option (BitVec 32)) :=
  (json.ifaceRows bytes).map fun rows =>
    ((rows.flatMap fun row => row.addrInfo.getD []).findSome? fun info =>
      if info.family = some "inet" then info.localAddr else none).bind fun text =>
        parseIpv4Addr text.toList

/-- The index of the last link that the tool shows. -/
def parseIfindexFromIpLinkShowJson (json : SerdeJson) (bytes : Bytes) : Option (Option UInt32) :=
  (json.linkRows bytes).map fun rows => rows.getLast?.bind LinkRow.ifindex

/-! ## Sockets -/

/-- A group that a socket joins, with the interface to join it on. -/
inductive Membership where
  | v4 (multiaddr interface : BitVec 32)
  | v6 (multiaddr : BitVec 128) (interface : UInt32)
deriving DecidableEq

def Membership.group : Membership → IpAddr
  | v4 multiaddr _ => .v4 multiaddr
  | v6 multiaddr _ => .v6 multiaddr

/-- A bound socket with the groups it joined. -/
structure UdpSocket where
  addr : SocketAddr
  memberships : List Membership
deriving DecidableEq

/-- The machine the proxy runs on: the output of the tool for its arguments, and whether binding
an address and joining a group succeed. -/
structure Host where
  runIpJson : List String → Option Bytes
  json : SerdeJson
  bind : SocketAddr → Bool
  join : Membership → Bool

def getIpRouteForDevice (host : Host) (device : String) : Option (List IpAddr) :=
  (host.runIpJson ["--json", "route", "show", "dev", device]).bind
    (parseIpRouteForDevice host.json)

def ipv4AddrForDevice (host : Host) (device : String) : Option (Option (BitVec 32)) :=
  (host.runIpJson ["--json", "addr", "show", "dev", device]).bind
    (parseIpv4AddrFromIpAddrShowJson host.json)

def ifindexForDevice (host : Host) (device : String) : Option (Option UInt32) :=
  (host.runIpJson ["--json", "link", "show", "dev", device]).bind
    (parseIfindexFromIpLinkShowJson host.json)

/-- The groups to join: the one that was asked for, or those of the device's routes. -/
def multicastGroups (host : Host) (deviceName : String) (multicastIp : Option IpAddr) :
    List IpAddr :=
  match multicastIp with
  | some ip => [ip]
  | none => (getIpRouteForDevice host deviceName).getD []

/-- The interface of the device that a group is joined on; without one the system chooses. -/
def membership (host : Host) (deviceName : String) : IpAddr → Membership
  | .v4 g => .v4 g (((ipv4AddrForDevice host deviceName).getD none).getD 0)
  | .v6 g => .v6 g (((ifindexForDevice host deviceName).getD none).getD 0)

namespace IpAddr

def isV4 : IpAddr → Bool
  | v4 _ => true
  | v6 _ => false

/-- The address that stands for every address of the machine. -/
def unspecified : IpAddr → IpAddr
  | v4 _ => v4 0
  | v6 _ => v6 0

end IpAddr

/-- Bind a socket for the groups of one family, if there are any, and join them.  A group that
cannot be joined is passed over. -/
def openSocket (host : Host) (addr : SocketAddr) (memberships : List Membership) :
    List UdpSocket :=
  if memberships.isEmpty then []
  else if host.bind addr then [⟨addr, memberships.filter host.join⟩]
  else []

/-- Open the multicast sockets of a device. -/
def createMulticastSocketOnDevice (host : Host) (deviceName : String) (multicastPort : UInt16)
    (multicastIp : Option IpAddr) : Option (List UdpSocket) :=
  let groups := multicastGroups host deviceName multicastIp
  let groupsV4 := groups.filter IpAddr.isV4
  let groupsV6 := groups.filter fun ip => !ip.isV4
  if groupsV4.isEmpty && groupsV6.isEmpty then none
  else
    let sockets :=
      openSocket host ⟨.v4 0, multicastPort⟩ (groupsV4.map (membership host deviceName)) ++
        openSocket host ⟨.v6 0, multicastPort⟩ (groupsV6.map (membership host deviceName))
    if sockets.isEmpty then none else some sockets

/-! ## Routes that name a group -/

/-- A text is split at the first occurrence of the character. -/
theorem splitOnce_eq_some_iff {c : Char} {text a b : List Char} :
    splitOnce c text = some (a, b) ↔ text = a ++ c :: b ∧ c ∉ a := by
  induction text generalizing a with
  | nil => simp [splitOnce]
  | cons x text ih =>
      by_cases hx : x = c
      · simp only [splitOnce, hx, if_true, Option.some.injEq, Prod.mk.injEq]
        constructor
        · rintro ⟨rfl, rfl⟩
          exact ⟨rfl, List.not_mem_nil⟩
        · rintro ⟨htext, hnot⟩
          cases a with
          | nil => exact ⟨rfl, (List.cons.inj htext).2⟩
          | cons y a =>
              rw [List.cons_append, List.cons.injEq] at htext
              exact absurd (htext.1 ▸ List.mem_cons_self) hnot
      · simp only [splitOnce, hx, if_false, Option.map_eq_some_iff]
        constructor
        · rintro ⟨⟨a', b'⟩, hsplit, heq⟩
          rw [Prod.mk.injEq] at heq
          obtain ⟨rfl, rfl⟩ := heq
          rcases ih.mp hsplit with ⟨rfl, hnot⟩
          refine ⟨rfl, ?_⟩
          rw [List.mem_cons, not_or]
          exact ⟨fun heq => hx heq.symm, hnot⟩
        · rintro ⟨htext, hnot⟩
          cases a with
          | nil => exact absurd (List.cons.inj htext).1 hx
          | cons y a =>
              rw [List.cons_append, List.cons.injEq] at htext
              obtain ⟨rfl, rfl⟩ := htext
              rw [List.mem_cons, not_or] at hnot
              exact ⟨(a, b), ih.mpr ⟨rfl, hnot.2⟩, rfl⟩

/-- A text without the character is not split. -/
theorem splitOnce_eq_none_iff {c : Char} {text : List Char} :
    splitOnce c text = none ↔ c ∉ text := by
  induction text with
  | nil => simp [splitOnce]
  | cons x text ih =>
      by_cases hx : x = c
      · simp [splitOnce, hx]
      · simp [splitOnce, hx, ih, Ne.symm hx]

/-- The destination is a single address: its text, alone or with a mask of full length. -/
def LeadsTo (dst : List Char) (ip : IpAddr) : Prop :=
  ∃ base, '/' ∉ base ∧ parseIpAddr base = some ip ∧
    (dst = base ∨ ∃ mask n, dst = base ++ '/' :: mask ∧ parseU8 mask = some n ∧
      n.val = ip.fullMask)

/-- The routes that name a group are those to a single multicast address. -/
theorem routeGroup_eq_some_iff {row : RouteRow} {ip : IpAddr} :
    routeGroup row = some ip ↔ ip.isMulticast = true ∧ LeadsTo row.dst.toList ip := by
  unfold routeGroup
  cases hsplit : splitOnce '/' row.dst.toList with
  | none =>
      have hnot := splitOnce_eq_none_iff.mp hsplit
      simp only [Option.bind_eq_bind, Option.bind_eq_some_iff, Option.ite_none_right_eq_some,
        Option.some.injEq]
      constructor
      · rintro ⟨ip', hparse, hmulti, rfl⟩
        exact ⟨hmulti, _, hnot, hparse, Or.inl rfl⟩
      · rintro ⟨hmulti, base, _, hparse, heq | ⟨mask, n, heq, _⟩⟩
        · exact ⟨ip, heq ▸ hparse, hmulti, rfl⟩
        · rw [heq] at hnot
          exact absurd (by simp) hnot
  | some parts =>
      rcases parts with ⟨base, maskStr⟩
      rcases splitOnce_eq_some_iff.mp hsplit with ⟨htext, hnot⟩
      simp only [Option.bind_eq_bind, Option.bind_eq_some_iff, Option.ite_none_right_eq_some,
        Option.some.injEq, Bool.and_eq_true, decide_eq_true_eq]
      constructor
      · rintro ⟨ip', hparse, n, hmask, ⟨hmulti, hfull⟩, rfl⟩
        exact ⟨hmulti, base, hnot, hparse, Or.inr ⟨maskStr, n, htext, hmask, hfull⟩⟩
      · rintro ⟨hmulti, base', hnot', hparse, heq | ⟨mask, n, heq, hmask, hfull⟩⟩
        · rw [htext] at heq
          exact absurd (heq ▸ by simp) hnot'
        · have hsame := splitOnce_eq_some_iff.mpr ⟨heq, hnot'⟩
          rw [hsplit, Option.some.injEq, Prod.mk.injEq] at hsame
          obtain ⟨rfl, rfl⟩ := hsame
          exact ⟨ip, hparse, n, hmask, ⟨hmulti, hfull⟩, rfl⟩

/-- The text of an IPv4 address has no slash. -/
theorem slash_not_mem_ipv4Text (addr : BitVec 32) : '/' ∉ ipv4Text addr := by
  have hdigits : ∀ n, '/' ∉ Nat.toDigits 10 n := by
    intro n hmem
    have hdigit := Nat.isDigit_of_mem_toDigits (by decide) (by decide) hmem
    contradiction
  simp [ipv4Text, hdigits]

/-- A single IPv4 address has one text, whatever its mask. -/
theorem leadsTo_v4_iff {dst : List Char} {addr : BitVec 32} :
    LeadsTo dst (.v4 addr) ↔ dst = ipv4Text addr ∨
      ∃ mask, dst = ipv4Text addr ++ '/' :: mask ∧ parseU8 mask = some 32 := by
  constructor
  · rintro ⟨base, _, hparse, hdst⟩
    obtain rfl := parseIpAddr_v4_iff.mp hparse
    refine hdst.imp_right ?_
    rintro ⟨mask, n, rfl, hmask, hfull⟩
    exact ⟨mask, rfl, hmask.trans (congrArg some (Fin.ext hfull))⟩
  · intro hdst
    refine ⟨ipv4Text addr, slash_not_mem_ipv4Text addr, parseIpAddr_v4_iff.mpr rfl, ?_⟩
    refine hdst.imp_right ?_
    rintro ⟨mask, rfl, hmask⟩
    exact ⟨mask, 32, rfl, hmask, rfl⟩

/-- The groups of a device are the multicast addresses that its rows lead to, in order. -/
theorem mem_parseIpRouteForDevice {json : SerdeJson} {bytes : Bytes} {rows : List RouteRow}
    (h : json.routeRows bytes = some rows) :
    ∃ groups, parseIpRouteForDevice json bytes = some groups ∧ groups.Pairwise (· < ·) ∧
      ∀ ip, ip ∈ groups ↔ ip.isMulticast = true ∧ ∃ row ∈ rows, LeadsTo row.dst.toList ip := by
  refine ⟨sortDedup (· ≤ ·) (rows.filterMap routeGroup), ?_, ?_, ?_⟩
  · rw [parseIpRouteForDevice, h]
    rfl
  · have hle := pairwise_sortDedup (r := (· ≤ ·)) (rows.filterMap routeGroup)
    exact (hle.and (nodup_sortDedup _)).imp fun hpair => lt_of_le_of_ne hpair.1 hpair.2
  · intro ip
    rw [mem_sortDedup, List.mem_filterMap]
    constructor
    · rintro ⟨row, hrow, hgroup⟩
      rcases routeGroup_eq_some_iff.mp hgroup with ⟨hmulti, hleads⟩
      exact ⟨hmulti, row, hrow, hleads⟩
    · rintro ⟨hmulti, row, hrow, hleads⟩
      exact ⟨row, hrow, routeGroup_eq_some_iff.mpr ⟨hmulti, hleads⟩⟩

/-- The groups found among the rows of a device are strictly ascending.  An IPv4 group is found
exactly when it is a multicast address and some row has its text as destination, alone or before a
mask of 32 bits; an IPv6 group exactly when some row has one of its texts, alone or before a mask
of 128 bits. -/
theorem route_groups_exact (json : SerdeJson) (bytes : Bytes) (rows : List RouteRow)
    (h : json.routeRows bytes = some rows) :
    ∃ groups, parseIpRouteForDevice json bytes = some groups ∧ groups.Pairwise (· < ·) ∧
      (∀ addr, .v4 addr ∈ groups ↔ (224 ≤ octet addr 0 ∧ octet addr 0 ≤ 239) ∧
        ∃ row ∈ rows, row.dst.toList = ipv4Text addr ∨
          ∃ mask, row.dst.toList = ipv4Text addr ++ '/' :: mask ∧ parseU8 mask = some 32) ∧
      ∀ addr, .v6 addr ∈ groups ↔ (group addr 0 &&& 0xff00 = 0xff00) ∧
        ∃ row ∈ rows, LeadsTo row.dst.toList (.v6 addr) := by
  rcases mem_parseIpRouteForDevice h with ⟨groups, hgroups, hsorted, hmem⟩
  refine ⟨groups, hgroups, hsorted, ?_, ?_⟩
  · intro addr
    simp only [hmem, leadsTo_v4_iff, IpAddr.isMulticast, decide_eq_true_eq]
  · intro addr
    simp only [hmem, IpAddr.isMulticast, decide_eq_true_eq]

/-- The IPv6 group of all nodes of a link. -/
def Sample.allNodes : BitVec 128 := BitVec.ofNat 128 0xff020000000000000000000000000001

/-- The destinations of the static routes of a device: a group with a mask and again without one, a
whole range, an IPv6 group, and a group below the first one. -/
def Sample.routes : List RouteRow :=
  [⟨"233.84.178.2/32"⟩, ⟨"233.84.178.2"⟩, ⟨"224.0.0.0/4"⟩, ⟨"ff02::1/128"⟩, ⟨"224.0.0.5"⟩]

/-- What the tool prints for this device. -/
def Sample.routesText : Bytes :=
  ("[\x7b\"dst\":\"233.84.178.2/32\"\x7d,\x7b\"dst\":\"233.84.178.2\"\x7d," ++
    "\x7b\"dst\":\"224.0.0.0/4\"\x7d,\x7b\"dst\":\"ff02::1/128\"\x7d," ++
    "\x7b\"dst\":\"224.0.0.5\"\x7d]").toUTF8.toList

/-- A JSON library that knows this text. -/
def Sample.json : SerdeJson where
  routeRows bytes := if bytes = Sample.routesText then some Sample.routes else none
  ifaceRows _ := none
  linkRows _ := none

/-- Three groups are found, in ascending order and each once. -/
theorem route_groups_exact_sample :
    ∃ groups, parseIpRouteForDevice Sample.json Sample.routesText = some groups ∧
      groups.Pairwise (· < ·) ∧ .v4 (ofOctets 224 0 0 5) ∈ groups ∧
      .v4 (ofOctets 233 84 178 2) ∈ groups ∧ .v6 Sample.allNodes ∈ groups ∧
      groups.length = 3 := by
  have hrows : Sample.json.routeRows Sample.routesText = some Sample.routes := if_pos rfl
  rcases route_groups_exact Sample.json Sample.routesText _ hrows with
    ⟨groups, hgroups, hsorted, hv4, hv6⟩
  refine ⟨groups, hgroups, hsorted, (hv4 _).mpr ⟨by decide, ⟨"224.0.0.5"⟩, by decide, ?_⟩,
    (hv4 _).mpr ⟨by decide, ⟨"233.84.178.2/32"⟩, by decide, ?_⟩,
    (hv6 _).mpr ⟨by decide, ⟨"ff02::1/128"⟩, by decide, ?_⟩, ?_⟩
  · exact Or.inl (by decide)
  · exact Or.inr ⟨"32".toList, by decide, by decide⟩
  · refine ⟨"ff02::1".toList, by decide, by decide, Or.inr ⟨"128".toList, 128, ?_⟩⟩
    exact ⟨by decide, by decide, by decide⟩
  · unfold parseIpRouteForDevice at hgroups
    rw [hrows] at hgroups
    obtain rfl := Option.some.inj hgroups
    decide +kernel

/-! ## Sockets and their groups -/

theorem mem_openSocket {host : Host} {addr : SocketAddr} {memberships : List Membership}
    {s : UdpSocket} :
    s ∈ openSocket host addr memberships ↔ memberships ≠ [] ∧ host.bind addr = true ∧
      s = ⟨addr, memberships.filter host.join⟩ := by
  unfold openSocket
  split
  · rename_i hempty
    simp [List.isEmpty_iff.mp hempty]
  · rename_i hempty
    have hne : memberships ≠ [] := fun hnil => hempty (by simp [hnil])
    split
    · rename_i hbind
      simp [hne, hbind]
    · rename_i hbind
      simp [hbind]

theorem membership_group (host : Host) (deviceName : String) (ip : IpAddr) :
    (membership host deviceName ip).group = ip := by
  cases ip <;> rfl

theorem nodup_multicastGroups (host : Host) (deviceName : String) (multicastIp : Option IpAddr) :
    (multicastGroups host deviceName multicastIp).Nodup := by
  unfold multicastGroups
  cases multicastIp with
  | some ip => exact List.nodup_singleton ip
  | none =>
      cases hgroups : getIpRouteForDevice host deviceName with
      | none => exact List.nodup_nil
      | some groups =>
          rcases Option.bind_eq_some_iff.mp hgroups with ⟨bytes, _, hparse⟩
          rcases Option.map_eq_some_iff.mp hparse with ⟨rows, _, rfl⟩
          exact nodup_sortDedup _

/-- The two sockets that may be opened. -/
def multicastSockets (host : Host) (deviceName : String) (multicastPort : UInt16)
    (groups : List IpAddr) : List UdpSocket :=
  openSocket host ⟨.v4 0, multicastPort⟩
      ((groups.filter IpAddr.isV4).map (membership host deviceName)) ++
    openSocket host ⟨.v6 0, multicastPort⟩
      ((groups.filter fun ip => !ip.isV4).map (membership host deviceName))

/-- Without a socket nothing is returned; this covers the early return without groups. -/
theorem createMulticastSocketOnDevice_eq (host : Host) (deviceName : String)
    (multicastPort : UInt16) (multicastIp : Option IpAddr) :
    createMulticastSocketOnDevice host deviceName multicastPort multicastIp =
      if (multicastSockets host deviceName multicastPort
          (multicastGroups host deviceName multicastIp)).isEmpty then none
      else some (multicastSockets host deviceName multicastPort
          (multicastGroups host deviceName multicastIp)) := by
  unfold createMulticastSocketOnDevice
  generalize multicastGroups host deviceName multicastIp = groups
  by_cases hempty : ((groups.filter IpAddr.isV4).isEmpty &&
      (groups.filter fun ip => !ip.isV4).isEmpty) = true
  · have hboth := hempty
    rw [Bool.and_eq_true, List.isEmpty_iff, List.isEmpty_iff] at hboth
    simp [multicastSockets, openSocket, hboth.1, hboth.2]
  · simp only [hempty, Bool.false_eq_true, if_false]
    rfl

section Sockets

variable {host : Host} {deviceName : String} {multicastPort : UInt16} {groups : List IpAddr}

theorem isV4_iff {ip : IpAddr} : ip.isV4 = true ↔ ip.unspecified = .v4 0 := by
  cases ip <;> simp [IpAddr.isV4, IpAddr.unspecified]

theorem not_isV4_iff {ip : IpAddr} : (!ip.isV4) = true ↔ ip.unspecified = .v6 0 := by
  cases ip <;> simp [IpAddr.isV4, IpAddr.unspecified]

/-- One socket and the groups of its family. -/
theorem mem_openSocket_family {family : IpAddr → Bool} {unspecified : IpAddr}
    (hfamily : ∀ ip, family ip = true ↔ ip.unspecified = unspecified) {m : Membership} :
    (∃ s ∈ openSocket host ⟨unspecified, multicastPort⟩
        ((groups.filter family).map (membership host deviceName)), m ∈ s.memberships) ↔
      m.group ∈ groups ∧ m.group.unspecified = unspecified ∧
        host.bind ⟨m.group.unspecified, multicastPort⟩ = true ∧
        m = membership host deviceName m.group ∧ host.join m = true := by
  constructor
  · rintro ⟨s, hs, hm⟩
    rcases mem_openSocket.mp hs with ⟨_, hbind, rfl⟩
    rcases List.mem_filter.mp hm with ⟨hm, hjoin⟩
    rcases List.mem_map.mp hm with ⟨ip, hip, rfl⟩
    rcases List.mem_filter.mp hip with ⟨hip, hfam⟩
    rw [membership_group, (hfamily ip).mp hfam]
    exact ⟨hip, rfl, hbind, rfl, hjoin⟩
  · rintro ⟨hmem, hun, hbind, heq, hjoin⟩
    have hm : m ∈ (groups.filter family).map (membership host deviceName) := by
      rw [heq]
      exact List.mem_map_of_mem (List.mem_filter.mpr ⟨hmem, (hfamily _).mpr hun⟩)
    rw [hun] at hbind
    exact ⟨_, mem_openSocket.mpr ⟨List.ne_nil_of_mem hm, hbind, rfl⟩,
      List.mem_filter.mpr ⟨hm, hjoin⟩⟩

/-- A family has a socket when there is a group of it and it can be bound. -/
theorem exists_openSocket_family {family : IpAddr → Bool} {unspecified : IpAddr}
    (hfamily : ∀ ip, family ip = true ↔ ip.unspecified = unspecified) :
    (∃ s, s ∈ openSocket host ⟨unspecified, multicastPort⟩
        ((groups.filter family).map (membership host deviceName))) ↔
      ∃ ip ∈ groups, ip.unspecified = unspecified ∧
        host.bind ⟨ip.unspecified, multicastPort⟩ = true := by
  constructor
  · rintro ⟨s, hs⟩
    rcases mem_openSocket.mp hs with ⟨hne, hbind, _⟩
    rcases List.exists_mem_of_ne_nil _ hne with ⟨m, hm⟩
    rcases List.mem_map.mp hm with ⟨ip, hip, _⟩
    rcases List.mem_filter.mp hip with ⟨hip, hfam⟩
    have hun := (hfamily ip).mp hfam
    exact ⟨ip, hip, hun, hun ▸ hbind⟩
  · rintro ⟨ip, hip, hun, hbind⟩
    have hm : membership host deviceName ip ∈
        (groups.filter family).map (membership host deviceName) :=
      List.mem_map_of_mem (List.mem_filter.mpr ⟨hip, (hfamily ip).mpr hun⟩)
    rw [hun] at hbind
    exact ⟨_, mem_openSocket.mpr ⟨List.ne_nil_of_mem hm, hbind, rfl⟩⟩

/-- No socket is opened exactly when none can be bound for any of the groups. -/
theorem multicastSockets_eq_nil_iff :
    multicastSockets host deviceName multicastPort groups = [] ↔
      ∀ ip ∈ groups, host.bind ⟨ip.unspecified, multicastPort⟩ = false := by
  have hsome : (∃ s, s ∈ multicastSockets host deviceName multicastPort groups) ↔
      ∃ ip ∈ groups, host.bind ⟨ip.unspecified, multicastPort⟩ = true := by
    simp only [multicastSockets, List.mem_append, exists_or,
      exists_openSocket_family fun _ => isV4_iff, exists_openSocket_family fun _ => not_isV4_iff]
    constructor
    · rintro (⟨ip, hip, _, hbind⟩ | ⟨ip, hip, _, hbind⟩)
      · exact ⟨ip, hip, hbind⟩
      · exact ⟨ip, hip, hbind⟩
    · rintro ⟨ip, hip, hbind⟩
      cases ip with
      | v4 addr => exact Or.inl ⟨_, hip, rfl, hbind⟩
      | v6 addr => exact Or.inr ⟨_, hip, rfl, hbind⟩
  rw [List.eq_nil_iff_forall_not_mem, ← not_exists, hsome]
  simp

/-- The memberships of the opened sockets. -/
theorem exists_mem_multicastSockets_iff {m : Membership} :
    (∃ s ∈ multicastSockets host deviceName multicastPort groups, m ∈ s.memberships) ↔
      m.group ∈ groups ∧ host.bind ⟨m.group.unspecified, multicastPort⟩ = true ∧
        m = membership host deviceName m.group ∧ host.join m = true := by
  simp only [multicastSockets, List.mem_append, or_and_right, exists_or,
    mem_openSocket_family fun _ => isV4_iff, mem_openSocket_family fun _ => not_isV4_iff]
  constructor
  · rintro (⟨hmem, _, hrest⟩ | ⟨hmem, _, hrest⟩)
    · exact ⟨hmem, hrest⟩
    · exact ⟨hmem, hrest⟩
  · rintro ⟨hmem, hrest⟩
    cases m with
    | v4 multiaddr interface => exact Or.inl ⟨hmem, rfl, hrest⟩
    | v6 multiaddr interface => exact Or.inr ⟨hmem, rfl, hrest⟩

/-- A socket is opened at its address and joins some of its groups, in order. -/
theorem openSocket_sublist (addr : SocketAddr) (memberships : List Membership) :
    ((openSocket host addr memberships).map UdpSocket.addr).Sublist [addr] ∧
      ((openSocket host addr memberships).flatMap UdpSocket.memberships).Sublist memberships := by
  unfold openSocket
  split
  · exact ⟨List.nil_sublist _, List.nil_sublist _⟩
  · split
    · refine ⟨List.Sublist.refl _, ?_⟩
      rw [List.flatMap_singleton]
      exact List.filter_sublist
    · exact ⟨List.nil_sublist _, List.nil_sublist _⟩

/-- At most one socket is opened for each family, IPv4 first. -/
theorem multicastSockets_addr_sublist (host : Host) (deviceName : String)
    (multicastPort : UInt16) (groups : List IpAddr) :
    ((multicastSockets host deviceName multicastPort groups).map UdpSocket.addr).Sublist
      [⟨.v4 0, multicastPort⟩, ⟨.v6 0, multicastPort⟩] := by
  rw [multicastSockets, List.map_append]
  exact (openSocket_sublist _ _).1.append (openSocket_sublist _ _).1

theorem nodup_memberships (h : groups.Nodup) :
    ((multicastSockets host deviceName multicastPort groups).flatMap
      UdpSocket.memberships).Nodup := by
  have hinjective : Function.Injective (membership host deviceName) := by
    intro ip ip' heq
    rw [← membership_group host deviceName ip, heq, membership_group]
  have hall : ((groups.filter IpAddr.isV4).map (membership host deviceName) ++
      (groups.filter fun ip => !ip.isV4).map (membership host deviceName)).Nodup := by
    rw [← List.map_append]
    exact (((List.filter_append_perm IpAddr.isV4 groups).nodup_iff).mpr h).map hinjective
  refine hall.sublist ?_
  rw [multicastSockets, List.flatMap_append]
  exact (openSocket_sublist _ _).2.append (openSocket_sublist _ _).2

end Sockets

/-- For every outcome of the tool, of binding and of joining: no socket is returned exactly when
none could be bound for a group to join.  Otherwise there is at most one socket for each family,
IPv4 first, no group is joined twice, and a group is joined, on the interface of the device,
exactly when it is one of the groups to join, its socket could be bound and joining succeeded. -/
theorem multicast_joins_exactly (host : Host) (deviceName : String) (multicastPort : UInt16)
    (multicastIp : Option IpAddr) :
    (createMulticastSocketOnDevice host deviceName multicastPort multicastIp = none ↔
        ∀ ip ∈ multicastGroups host deviceName multicastIp,
          host.bind ⟨ip.unspecified, multicastPort⟩ = false) ∧
      ∀ sockets, createMulticastSocketOnDevice host deviceName multicastPort multicastIp =
          some sockets →
        (sockets.map UdpSocket.addr).Sublist [⟨.v4 0, multicastPort⟩, ⟨.v6 0, multicastPort⟩] ∧
        (sockets.flatMap UdpSocket.memberships).Nodup ∧
        ∀ m, (∃ s ∈ sockets, m ∈ s.memberships) ↔
          m.group ∈ multicastGroups host deviceName multicastIp ∧
            host.bind ⟨m.group.unspecified, multicastPort⟩ = true ∧
            m = membership host deviceName m.group ∧ host.join m = true := by
  have hnodup := nodup_multicastGroups host deviceName multicastIp
  rw [createMulticastSocketOnDevice_eq]
  generalize multicastGroups host deviceName multicastIp = groups at hnodup ⊢
  constructor
  · rw [← @multicastSockets_eq_nil_iff host deviceName multicastPort groups, ← List.isEmpty_iff]
    split
    · rename_i hempty
      exact iff_of_true rfl hempty
    · rename_i hempty
      exact iff_of_false (by simp) hempty
  · intro sockets hsockets
    rw [Option.ite_none_left_eq_some, Option.some.injEq] at hsockets
    obtain ⟨_, rfl⟩ := hsockets
    exact ⟨multicastSockets_addr_sublist host deviceName multicastPort groups,
      nodup_memberships hnodup, fun m => exists_mem_multicastSockets_iff⟩

/-- A machine on which the tool always prints this text. -/
def Sample.host : Host where
  runIpJson _ := some Sample.routesText
  json := Sample.json
  bind _ := true
  join _ := true

/-- The sockets that are opened there, one for each family. -/
def Sample.sockets : List UdpSocket :=
  [⟨⟨.v4 0, 20001⟩, [.v4 (ofOctets 224 0 0 5) 0, .v4 (ofOctets 233 84 178 2) 0]⟩,
    ⟨⟨.v6 0, 20001⟩, [.v6 Sample.allNodes 0]⟩]

/-- A device with groups of both families. -/
theorem multicast_joins_exactly_sample :
    createMulticastSocketOnDevice Sample.host "doublezero1" 20001 none = some Sample.sockets ∧
      (Sample.sockets.flatMap UdpSocket.memberships).Nodup ∧
      .v6 Sample.allNodes ∈
        multicastGroups Sample.host "doublezero1" none := by
  have hsockets : createMulticastSocketOnDevice Sample.host "doublezero1" 20001 none =
      some Sample.sockets := by
    decide +kernel
  rcases (multicast_joins_exactly Sample.host "doublezero1" 20001 none).2 _ hsockets with
    ⟨_, hnodup, hjoined⟩
  have hgroup := (hjoined (.v6 Sample.allNodes 0)).mp
    ⟨_, List.mem_cons_of_mem _ (List.mem_singleton_self _), List.mem_singleton_self _⟩
  exact ⟨hsockets, hnodup, hgroup.1⟩

end ShredstreamProxy
