import Mathlib.Data.List.Perm.Basic
import Mathlib.Data.List.Nodup
import Temps.Lib.Fallible
import Temps.Network.Ipv4Net

namespace Temps.Network

structure NodeRow where
  id : Nat
  /-- `some none` is a text that is no IP address. -/
  underlayAddress : Option (Option IpAddr)
  computeCidr : Option Ipv4Net

structure NodeTable where
  rows : List NodeRow
  distinct : (rows.map NodeRow.id).Nodup

structure ConfigRow where
  computePoolCidr : Ipv4Net
  subnetPrefixLen : Nat
  controlPlaneComputeCidr : Option Ipv4Net
  controlPlaneUnderlayAddress : Option IpAddr
  controlPlaneOverlayReady : Bool
  controlPlaneSetupGeneration : Nat

structure NetworkState where
  config : ConfigRow
  nodes : NodeTable

structure NodeAllocPersisted where
  nodeId : Nat
  computeCidr : Ipv4Net
  bridgeAddress : IpAddr
  underlayAddress : IpAddr

structure ControlPlaneReservation where
  computeCidr : Ipv4Net
  underlayAddress : IpAddr
  wasReady : Bool
  poolCidr : Ipv4Net
  poolPrefixLen : Nat
  setupGeneration : Nat

inductive AllocatorError
  | prefixOutOfRange
  | tooManySubnets
  | publicPool
  | generationExhausted
  | poolChangeAfterAllocation (allocationCount : Nat)
  | supersededControlPlaneSetup
  | readyControlPlaneRelease
  | underlayOverlapsComputePool (address : Nat)
  | nodeNotFound
  | alreadyAllocated (existing : Ipv4Net)
  | underlayMissing
  | underlayInvalid
  | publicUnderlayAddress
  | poolExhausted (usedCount : Nat)

def isPrivateV4 (a : Nat) : Bool :=
  a / 2 ^ 24 == 10 || a / 2 ^ 20 == 172 * 2 ^ 4 + 1 || a / 2 ^ 16 == 192 * 2 ^ 8 + 168

def isPrivateUnderlay : IpAddr → Bool
  | .v4 a => isPrivateV4 a || a / 2 ^ 16 == 169 * 2 ^ 8 + 254
  | .v6 a => a / 2 ^ 121 == 0x7e || a / 2 ^ 118 == 0x3fa

def bridgeAddressFor (cidr : Ipv4Net) : IpAddr := .v4 (min (cidr.network + 1) (2 ^ 32 - 1))

def validateSubnetPrefix (pool : Ipv4Net) (len : Nat) : Except AllocatorError Unit :=
  if len ≤ pool.prefixLen ∨ 30 < len then .error .prefixOutOfRange
  else if 20 < len - pool.prefixLen then .error .tooManySubnets
  else .ok ()

def validateUnderlayOutsidePool (address : IpAddr) (pool : Ipv4Net) : Except AllocatorError Unit :=
  match address with
  | .v4 a => if pool.contains a then .error (.underlayOverlapsComputePool a) else .ok ()
  | .v6 _ => .ok ()

def validatePool (pool : Ipv4Net) (len : Nat) : Except AllocatorError Unit :=
  if !isPrivateV4 pool.network || !isPrivateV4 pool.broadcast then .error .publicPool
  else validateSubnetPrefix pool len

def block (pool : Ipv4Net) (len i : Nat) : Option Ipv4Net :=
  if h : pool.network + i * 2 ^ (32 - len) < 2 ^ 32 ∧ len ≤ 32 then some ⟨_, len, h.1, h.2⟩
  else none

def firstFree (pool : Ipv4Net) (len : Nat) (used : List Ipv4Net) : List Nat → Option Ipv4Net
  | [] => none
  | i :: rest =>
    match block pool len i with
    | none => none
    | some candidate =>
      if used.any fun u ↦ cidrsOverlap u candidate then firstFree pool len used rest
      else some candidate

def pickFreeSubnet (pool : Ipv4Net) (len : Nat) (used : List Ipv4Net) : Option Ipv4Net :=
  if pool.prefixLen ≤ len then firstFree pool len used (List.range (2 ^ (len - pool.prefixLen)))
  else none

def pickHighestFreeSubnet (pool : Ipv4Net) (len : Nat) (used : List Ipv4Net) : Option Ipv4Net :=
  if pool.prefixLen ≤ len then
    firstFree pool len used (List.range (2 ^ (len - pool.prefixLen))).reverse
  else none

def nextGeneration (generation : Nat) : Except AllocatorError Nat :=
  if generation + 1 < 2 ^ 63 then .ok (generation + 1) else .error .generationExhausted

namespace NodeTable

def cidrs (nodes : NodeTable) : List Ipv4Net := nodes.rows.filterMap NodeRow.computeCidr

def setRow (id : Nat) (cidr : Option Ipv4Net) (row : NodeRow) : NodeRow :=
  if row.id = id then { row with computeCidr := cidr } else row

theorem setRow_id (id : Nat) (cidr : Option Ipv4Net) (row : NodeRow) :
    (setRow id cidr row).id = row.id := by
  unfold setRow
  split <;> rfl

def setCidr (nodes : NodeTable) (id : Nat) (cidr : Option Ipv4Net) : NodeTable where
  rows := nodes.rows.map (setRow id cidr)
  distinct := by
    rw [List.map_map, show NodeRow.id ∘ setRow id cidr = NodeRow.id from funext (setRow_id id cidr)]
    exact nodes.distinct

def find (nodes : NodeTable) (id : Nat) : Option NodeRow := nodes.rows.find? fun r ↦ r.id == id

end NodeTable

namespace NetworkState

variable (s : NetworkState)

def used : List Ipv4Net := s.nodes.cidrs ++ s.config.controlPlaneComputeCidr.toList

def configurePool (pool : Ipv4Net) (len : Nat) : Except AllocatorError NetworkState := do
  validatePool pool len
  validatePool s.config.computePoolCidr s.config.subnetPrefixLen
  if s.config.computePoolCidr = pool ∧ s.config.subnetPrefixLen = len then return s
  else if s.used.length > 0 then throw (.poolChangeAfterAllocation s.used.length)
  else
    let generation ← nextGeneration s.config.controlPlaneSetupGeneration
    return { s with config := ⟨pool, len, none, none, false, generation⟩ }

def reservedCidr : Except AllocatorError Ipv4Net :=
  match s.config.controlPlaneComputeCidr with
  | some cidr => .ok cidr
  | none =>
    match pickHighestFreeSubnet s.config.computePoolCidr s.config.subnetPrefixLen s.nodes.cidrs with
    | some cidr => .ok cidr
    | none => .error (.poolExhausted s.nodes.cidrs.length)

def ensureControlPlaneReservation (underlay : IpAddr) :
    Except AllocatorError (NetworkState × ControlPlaneReservation) := do
  validateSubnetPrefix s.config.computePoolCidr s.config.subnetPrefixLen
  validateUnderlayOutsidePool underlay s.config.computePoolCidr
  let cidr ← s.reservedCidr
  let unchanged := s.config.controlPlaneComputeCidr == some cidr &&
    s.config.controlPlaneUnderlayAddress == some underlay
  let ready := s.config.controlPlaneOverlayReady && unchanged
  let generation ← nextGeneration s.config.controlPlaneSetupGeneration
  let config := { s.config with
    controlPlaneComputeCidr := some cidr
    controlPlaneUnderlayAddress := some underlay
    controlPlaneOverlayReady := ready
    controlPlaneSetupGeneration := generation }
  return ({ s with config },
    ⟨cidr, underlay, ready, s.config.computePoolCidr, s.config.subnetPrefixLen, generation⟩)

def matchesReservation (r : ControlPlaneReservation) : Bool :=
  s.config.controlPlaneComputeCidr == some r.computeCidr &&
  s.config.controlPlaneUnderlayAddress == some r.underlayAddress &&
  s.config.computePoolCidr == r.poolCidr && s.config.subnetPrefixLen == r.poolPrefixLen &&
  s.config.controlPlaneSetupGeneration == r.setupGeneration

def setControlPlaneReadyFor (r : ControlPlaneReservation) (ready : Bool) :
    Except AllocatorError NetworkState :=
  if s.matchesReservation r then
    .ok { s with config := { s.config with controlPlaneOverlayReady := ready } }
  else .error .supersededControlPlaneSetup

def releaseUnreadyControlPlaneReservation (r : ControlPlaneReservation) :
    Except AllocatorError NetworkState :=
  if !s.matchesReservation r then .error .supersededControlPlaneSetup
  else if s.config.controlPlaneOverlayReady then .error .readyControlPlaneRelease
  else do
    let generation ← nextGeneration s.config.controlPlaneSetupGeneration
    return { s with config := { s.config with
      controlPlaneComputeCidr := none
      controlPlaneUnderlayAddress := none
      controlPlaneOverlayReady := false
      controlPlaneSetupGeneration := generation } }

def nodeUnderlay (row : NodeRow) : Except AllocatorError IpAddr :=
  match row.computeCidr, row.underlayAddress with
  | some existing, _ => .error (.alreadyAllocated existing)
  | none, none => .error .underlayMissing
  | none, some none => .error .underlayInvalid
  | none, some (some underlay) => .ok underlay

def chooseFor (row : NodeRow) : Except AllocatorError NodeAllocPersisted := do
  let underlay ← nodeUnderlay row
  validateUnderlayOutsidePool underlay s.config.computePoolCidr
  if s.config.controlPlaneOverlayReady && !isPrivateUnderlay underlay then
    throw .publicUnderlayAddress
  else
    match pickFreeSubnet s.config.computePoolCidr s.config.subnetPrefixLen s.used with
    | none => throw (.poolExhausted s.used.length)
    | some chosen => return ⟨row.id, chosen, bridgeAddressFor chosen, underlay⟩

def allocateForNode (id : Nat) : Except AllocatorError (NetworkState × NodeAllocPersisted) := do
  validateSubnetPrefix s.config.computePoolCidr s.config.subnetPrefixLen
  match s.nodes.find id with
  | none => throw .nodeNotFound
  | some row =>
    let alloc ← s.chooseFor row
    return ({ s with nodes := s.nodes.setCidr id (some alloc.computeCidr) }, alloc)

def release (id : Nat) : NetworkState := { s with nodes := s.nodes.setCidr id none }

end NetworkState

inductive Call
  | configurePool (pool : Ipv4Net) (len : Nat)
  | ensureControlPlaneReservation (underlay : IpAddr)
  | setControlPlaneReadyFor (r : ControlPlaneReservation) (ready : Bool)
  | releaseUnreadyControlPlaneReservation (r : ControlPlaneReservation)
  | allocateForNode (id : Nat)
  | release (id : Nat)

def Call.run (s : NetworkState) : Call → Except AllocatorError NetworkState
  | .configurePool pool len => s.configurePool pool len
  | .ensureControlPlaneReservation underlay =>
    (s.ensureControlPlaneReservation underlay).map Prod.fst
  | .setControlPlaneReadyFor r ready => s.setControlPlaneReadyFor r ready
  | .releaseUnreadyControlPlaneReservation r => s.releaseUnreadyControlPlaneReservation r
  | .allocateForNode id => (s.allocateForNode id).map Prod.fst
  | .release id => .ok (s.release id)

def NetworkState.after (s : NetworkState) (call : Call) : NetworkState :=
  match call.run s with
  | .ok s' => s'
  | .error _ => s

def NetworkState.fresh (config : ConfigRow) (nodes : NodeTable) : NetworkState where
  config := { config with controlPlaneComputeCidr := none }
  nodes := ⟨nodes.rows.map fun row ↦ { row with computeCidr := none }, by
    rw [List.map_map]
    exact nodes.distinct⟩

end Temps.Network
