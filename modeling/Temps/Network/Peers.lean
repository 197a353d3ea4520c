import Mathlib.Data.Finset.Basic
import Mathlib.Data.List.Sort
import Temps.Lib.Fallible
import Temps.Network.Ipv4Net

namespace Temps.Network

open List

structure NodeAlloc where
  nodeId : Nat
  computeCidr : Ipv4Net
  bridgeAddress : IpAddr

structure Peer where
  nodeId : Nat
  computeCidr : Ipv4Net
  underlayAddress : IpAddr
deriving DecidableEq

inductive PeerFault
  | overlapsLocal
  | localNode
  | overlapsPeer
deriving DecidableEq

inductive NetworkError
  | ipv6Bridge
  | bridgeOutsideCidr
  | invalidPeer (nodeId : Nat) (fault : PeerFault)
  | noMatchingPeer (cidr : Ipv4Net)
  | ipv6Gateway (cidr : Ipv4Net)
deriving DecidableEq

def checkAgainstLocal (alloc : NodeAlloc) (peer : Peer) : Except NetworkError Unit :=
  if cidrsOverlap peer.computeCidr alloc.computeCidr then
    .error (.invalidPeer peer.nodeId .overlapsLocal)
  else if peer.nodeId = alloc.nodeId then .error (.invalidPeer peer.nodeId .localNode)
  else .ok ()

def checkPairs : List Peer → Except NetworkError Unit
  | [] => .ok ()
  | a :: rest =>
    match rest.find? (fun b ↦ cidrsOverlap a.computeCidr b.computeCidr) with
    | some b => .error (.invalidPeer b.nodeId .overlapsPeer)
    | none => checkPairs rest

/-- The part of the validation that looks at the allocation and the peers. The device names and
the MTU of the configuration are checked before it and are not used below. -/
def validateWith (alloc : NodeAlloc) (peers : List Peer) : Except NetworkError Unit :=
  match alloc.bridgeAddress with
  | .v6 _ => .error .ipv6Bridge
  | .v4 bridge =>
    if alloc.computeCidr.contains bridge then do
      peers.forM (checkAgainstLocal alloc)
      checkPairs peers
    else .error .bridgeOutsideCidr

/-- A peer list that the manager has validated for its node, one entry for each node. -/
structure PeerList (alloc : NodeAlloc) where
  peers : List Peer
  valid : validateWith alloc peers = .ok ()
  distinct : (peers.map Peer.nodeId).Nodup

def byId (peers : List Peer) (id : Nat) : Option Peer := peers.find? fun p ↦ p.nodeId == id

structure PeerDiff where
  toAdd : List Peer
  fdbToRemove : List IpAddr
  toReplace : List (Peer × Peer)

namespace PeerDiff

def joined (current desired : List Peer) : List Peer :=
  desired.filter fun want ↦ (byId current want.nodeId).isNone

def replaced (current desired : List Peer) : List (Peer × Peer) :=
  desired.filterMap fun want ↦
    ((byId current want.nodeId).filter fun old ↦ old != want).map fun old ↦ (old, want)

def compute (current desired : List Peer) : PeerDiff where
  toAdd := (joined current desired).insertionSort fun a b ↦ a.nodeId ≤ b.nodeId
  fdbToRemove :=
    ((joined desired current).map Peer.underlayAddress).insertionSort fun a b ↦ a.le b = true
  toReplace := (replaced current desired).insertionSort fun a b ↦ a.2.nodeId ≤ b.2.nodeId

def isNoop (diff : PeerDiff) : Bool :=
  diff.toAdd.isEmpty && diff.fdbToRemove.isEmpty && diff.toReplace.isEmpty

end PeerDiff

structure RouteDiff where
  toAdd : List Ipv4Net
  toRemove : List Ipv4Net

namespace RouteDiff

def missing (left right : List Peer) : List Ipv4Net :=
  (left.map Peer.computeCidr).dedup.filter (· ∉ right.map Peer.computeCidr)

def compute (current desired : List Peer) : RouteDiff where
  toAdd := (missing desired current).insertionSort fun a b ↦ a.le b = true
  toRemove := (missing current desired).insertionSort fun a b ↦ a.le b = true

def isNoop (diff : RouteDiff) : Bool := diff.toAdd.isEmpty && diff.toRemove.isEmpty

end RouteDiff

inductive Transport
  | vxlan
  | native

inductive Route
  | gateway (addr : IpAddr)
  | bridge
deriving DecidableEq

def Ipv4Net.destination (cidr : Ipv4Net) : Nat × Nat := (cidr.network, cidr.prefixLen)

abbrev RouteTable := Nat × Nat → Option Route

structure Kernel where
  fdb : Finset IpAddr
  routes : RouteTable

inductive FdbOp
  | append (dst : IpAddr)
  | delete (dst : IpAddr)

def FdbOp.apply (fdb : Finset IpAddr) : FdbOp → Finset IpAddr
  | .append dst => insert dst fdb
  | .delete dst => fdb.erase dst

def replaceOps (pair : Peer × Peer) : List FdbOp :=
  if pair.1.underlayAddress ≠ pair.2.underlayAddress then
    [.delete pair.1.underlayAddress, .append pair.2.underlayAddress]
  else []

def fdbOps (diff : PeerDiff) : List FdbOp :=
  diff.fdbToRemove.map .delete ++ diff.toReplace.flatMap replaceOps ++
    diff.toAdd.map fun p ↦ .append p.underlayAddress

def removeRoute (routes : RouteTable) (cidr : Ipv4Net) : RouteTable :=
  Function.update routes cidr.destination none

def insertRoute (routes : RouteTable) (cidr : Ipv4Net) (route : Route) : RouteTable :=
  match routes cidr.destination with
  | some _ => routes
  | none => Function.update routes cidr.destination (some route)

def routeFor (transport : Transport) (desired : List Peer) (cidr : Ipv4Net) :
    Except NetworkError Route :=
  match transport with
  | .vxlan => .ok .bridge
  | .native =>
    match desired.find? fun p ↦ p.computeCidr == cidr with
    | none => .error (.noMatchingPeer cidr)
    | some p =>
      match p.underlayAddress with
      | .v4 _ => .ok (.gateway p.underlayAddress)
      | .v6 _ => .error (.ipv6Gateway cidr)

def addRoutes (transport : Transport) (desired : List Peer) :
    RouteTable → List Ipv4Net → RouteTable × Except NetworkError Unit
  | routes, [] => (routes, .ok ())
  | routes, cidr :: rest =>
    match routeFor transport desired cidr with
    | .error e => (routes, .error e)
    | .ok route => addRoutes transport desired (insertRoute routes cidr route) rest

def reconcilePeers (transport : Transport) (kernel : Kernel) (current desired : List Peer) :
    Kernel × Except NetworkError Bool :=
  let peerDiff := PeerDiff.compute current desired
  let routeDiff := RouteDiff.compute current desired
  if peerDiff.isNoop && routeDiff.isNoop then (kernel, .ok false)
  else
    let fdb := match transport with
      | .vxlan => (fdbOps peerDiff).foldl FdbOp.apply kernel.fdb
      | .native => kernel.fdb
    let added := addRoutes transport desired (routeDiff.toRemove.foldl removeRoute kernel.routes)
      routeDiff.toAdd
    (⟨fdb, added.1⟩, added.2.map fun _ ↦ true)

def underlays (peers : List Peer) : Finset IpAddr := (peers.map Peer.underlayAddress).toFinset

def gateways (peers : List Peer) : RouteTable := fun destination ↦
  (peers.find? fun p ↦ p.computeCidr.destination == destination).map
    fun p ↦ .gateway p.underlayAddress

section Samples

def sampleNode : NodeAlloc := ⟨0, slash24 0, .v4 (172 * 2 ^ 24 + 20 * 2 ^ 16 + 1)⟩

def twoPeers (first second : IpAddr) : List Peer := [⟨1, slash24 1, first⟩, ⟨2, slash24 2, second⟩]

def apart : PeerList sampleNode := ⟨twoPeers (.v4 10) (.v4 20), by decide, by decide⟩

def exchanged : PeerList sampleNode := ⟨twoPeers (.v4 20) (.v4 10), by decide, by decide⟩

def readdressed : PeerList sampleNode := ⟨twoPeers (.v4 10) (.v4 30), by decide, by decide⟩

end Samples

variable {current desired : List Peer} {p q : Peer} {id : Nat}

theorem byId_some (h : byId current id = some p) : p ∈ current ∧ p.nodeId = id :=
  ⟨mem_of_find?_eq_some h, by simpa using List.find?_some h⟩

theorem byId_of_mem (hd : (current.map Peer.nodeId).Nodup) (hp : p ∈ current) :
    byId current p.nodeId = some p := by
  cases h : byId current p.nodeId with
  | none => exact absurd (beq_self_eq_true p.nodeId) (List.find?_eq_none.mp h p hp)
  | some q =>
    obtain ⟨hq, hid⟩ := byId_some h
    exact congrArg some (inj_on_of_nodup_map hd hq hp hid)

theorem byId_isNone : (byId current id).isNone ↔ ∀ p ∈ current, p.nodeId ≠ id := by
  simp [byId]

theorem mem_joined :
    q ∈ PeerDiff.joined current desired ↔ q ∈ desired ∧ ∀ p ∈ current, p.nodeId ≠ q.nodeId := by
  rw [PeerDiff.joined, mem_filter, byId_isNone]

theorem mem_replaced (hd : (current.map Peer.nodeId).Nodup) :
    (p, q) ∈ PeerDiff.replaced current desired ↔
      p ∈ current ∧ q ∈ desired ∧ p.nodeId = q.nodeId ∧ p ≠ q := by
  simp only [PeerDiff.replaced, mem_filterMap, Option.map_eq_some_iff,
    Option.filter_eq_some_iff, Prod.mk.injEq, bne_iff_ne]
  constructor
  · rintro ⟨q, hq, p, ⟨hp, hne⟩, rfl, rfl⟩
    exact ⟨(byId_some hp).1, hq, (byId_some hp).2, hne⟩
  · rintro ⟨hp, hq, hid, hne⟩
    exact ⟨q, hq, p, ⟨hid ▸ byId_of_mem hd hp, hne⟩, rfl, rfl⟩

theorem checkPairs_ok (h : checkPairs current = .ok ()) :
    (current.map fun p ↦ p.computeCidr.destination).Nodup := by
  induction current with
  | nil => exact nodup_nil
  | cons a rest ih =>
    rw [checkPairs] at h
    split at h
    case h_1 => exact (nomatch h)
    case h_2 hnone =>
      refine nodup_cons.mpr ⟨fun hmem ↦ ?_, ih h⟩
      obtain ⟨b, hb, heq⟩ := mem_map.mp hmem
      exact List.find?_eq_none.mp hnone b hb
        (Ipv4Net.overlap_of_network_eq (congrArg Prod.fst heq).symm)

theorem PeerList.nodup_destinations {alloc : NodeAlloc} (list : PeerList alloc) :
    (list.peers.map fun p ↦ p.computeCidr.destination).Nodup := by
  have h := list.valid
  rw [validateWith] at h
  split at h
  · exact (nomatch h)
  · split at h
    · obtain ⟨_, _, hpairs⟩ := Lib.Fallible.bind_eq_ok.mp h
      exact checkPairs_ok hpairs
    · exact (nomatch h)

theorem mem_missing {cidr : Ipv4Net} : cidr ∈ RouteDiff.missing current desired ↔
    (∃ p ∈ current, p.computeCidr = cidr) ∧ ∀ q ∈ desired, q.computeCidr ≠ cidr := by
  simp [RouteDiff.missing]

theorem mem_underlays {a : IpAddr} :
    a ∈ underlays current ↔ ∃ p ∈ current, p.underlayAddress = a := by
  simp [underlays]

end Temps.Network
