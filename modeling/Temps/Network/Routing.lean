import Temps.Network.Peers

namespace Temps.Network

open List Function

section Table

variable {routes : RouteTable} {cidrs : List Ipv4Net} {transport : Transport} {desired : List Peer}
  {key : Nat × Nat} {c : Ipv4Net} {route : Route}

theorem removeRoutes_apply :
    cidrs.foldl removeRoute routes key =
      if ∃ c ∈ cidrs, c.destination = key then none else routes key := by
  induction cidrs generalizing routes with
  | nil => simp
  | cons c cidrs ih =>
    rw [foldl_cons, ih, removeRoute, update_apply]
    simp only [eq_comm (a := key)]
    by_cases hc : c.destination = key <;> simp [hc]

theorem insertRoute_of_ne (h : c.destination ≠ key) :
    insertRoute routes c route key = routes key := by
  rw [insertRoute]
  cases routes c.destination with
  | some => rfl
  | none => exact update_of_ne h.symm _ _

theorem insertRoute_of_none (h : routes c.destination = none) :
    insertRoute routes c route c.destination = some route := by
  rw [insertRoute, h]
  exact update_self _ _ _

theorem addRoutes_of_forall
    (h : ∀ c ∈ cidrs, c.destination = key → ∀ r, routeFor transport desired c ≠ .ok r) :
    (addRoutes transport desired routes cidrs).1 key = routes key := by
  induction cidrs generalizing routes with
  | nil => rfl
  | cons c cidrs ih =>
    rw [addRoutes]
    obtain ⟨hc, hrest⟩ := forall_mem_cons.mp h
    split
    case h_1 => rfl
    case h_2 r hr => rw [ih hrest, insertRoute_of_ne fun hkey ↦ hc hkey r hr]

theorem addRoutes_of_mem {r : Route} (hc : c ∈ cidrs)
    (hnodup : (cidrs.map Ipv4Net.destination).Nodup) (hfree : routes c.destination = none)
    (hall : ∀ c ∈ cidrs, ∃ r, routeFor transport desired c = .ok r)
    (hr : routeFor transport desired c = .ok r) :
    (addRoutes transport desired routes cidrs).1 c.destination = some r := by
  induction cidrs generalizing routes with
  | nil => exact (nomatch hc)
  | cons d cidrs ih =>
    obtain ⟨hd, hrest⟩ := nodup_cons.mp hnodup
    obtain ⟨⟨r', hr'⟩, hall'⟩ := forall_mem_cons.mp hall
    rw [addRoutes, hr']
    rcases mem_cons.mp hc with rfl | hc
    · obtain rfl : r' = r := Except.ok.inj (hr'.symm.trans hr)
      rw [addRoutes_of_forall, insertRoute_of_none hfree]
      exact fun e he heq ↦ absurd (mem_map.mpr ⟨e, he, heq⟩) hd
    · refine ih hc hrest ?_ hall'
      rwa [insertRoute_of_ne fun heq ↦ hd (mem_map.mpr ⟨c, hc, heq.symm⟩)]

theorem routes_reconcilePeers (kernel : Kernel) (left right : List Peer) :
    (reconcilePeers transport kernel left right).1.routes = (addRoutes transport right
        ((RouteDiff.compute left right).toRemove.foldl removeRoute kernel.routes)
        (RouteDiff.compute left right).toAdd).1 := by
  unfold reconcilePeers
  dsimp only
  split
  case isTrue h =>
    obtain ⟨-, hadd, hremove⟩ :=
      by simpa only [Bool.and_eq_true, RouteDiff.isNoop, List.isEmpty_iff] using h
    simp [hadd, hremove, addRoutes]
  case isFalse => rfl

end Table

variable {alloc : NodeAlloc} (list : PeerList alloc) {q p : Peer} {key : Nat × Nat}

theorem PeerList.destination_inj (hp : p ∈ list.peers) (hq : q ∈ list.peers)
    (h : p.computeCidr.destination = q.computeCidr.destination) : p = q :=
  inj_on_of_nodup_map list.nodup_destinations hp hq h

theorem PeerList.gateways_of_mem (hp : p ∈ list.peers) :
    gateways list.peers p.computeCidr.destination = some (.gateway p.underlayAddress) := by
  have h : (list.peers.find? fun q ↦ q.computeCidr.destination == p.computeCidr.destination) =
      some p := by
    cases hfind : list.peers.find? fun q ↦
        q.computeCidr.destination == p.computeCidr.destination with
    | none => exact absurd (beq_self_eq_true _) (List.find?_eq_none.mp hfind p hp)
    | some q =>
      have hq := mem_of_find?_eq_some hfind
      exact congrArg some (list.destination_inj hq hp (by simpa using List.find?_some hfind))
  rw [gateways, h]
  rfl

theorem gateways_eq_none {peers : List Peer} (h : ∀ p ∈ peers, p.computeCidr.destination ≠ key) :
    gateways peers key = none := by
  rw [gateways, List.find?_eq_none.mpr fun p hp ↦ by simpa using h p hp]
  rfl

theorem PeerList.routeFor_of_mem (hq : q ∈ list.peers) :
    routeFor .native list.peers q.computeCidr =
      match q.underlayAddress with
      | .v4 _ => .ok (.gateway q.underlayAddress)
      | .v6 _ => .error (.ipv6Gateway q.computeCidr) := by
  have h : (list.peers.find? fun p ↦ p.computeCidr == q.computeCidr) = some q := by
    cases hfind : list.peers.find? fun p ↦ p.computeCidr == q.computeCidr with
    | none => exact absurd (beq_self_eq_true _) (List.find?_eq_none.mp hfind q hq)
    | some p =>
      have hp := mem_of_find?_eq_some hfind
      have hcidr : p.computeCidr = q.computeCidr := by simpa using List.find?_some hfind
      exact congrArg some (list.destination_inj hp hq (congrArg Ipv4Net.destination hcidr))
  cases hu : q.underlayAddress <;> simp only [routeFor, h, hu]

variable (current desired : PeerList alloc)

theorem route_of_kept (hp : p ∈ current.peers) (hq : q ∈ desired.peers)
    (hcidr : p.computeCidr = q.computeCidr) (fdb : Finset IpAddr) :
    (reconcilePeers .native ⟨fdb, gateways current.peers⟩ current.peers desired.peers).1.routes
      q.computeCidr.destination = some (.gateway p.underlayAddress) := by
  have hremove : ¬ ∃ c ∈ (RouteDiff.compute current.peers desired.peers).toRemove,
      c.destination = q.computeCidr.destination := by
    rintro ⟨c, hc, heq⟩
    obtain ⟨⟨p', hp', rfl⟩, hgone⟩ := mem_missing.mp ((mem_insertionSort _).mp hc)
    obtain rfl := current.destination_inj hp' hp (heq.trans (by rw [hcidr]))
    exact hgone q hq hcidr.symm
  rw [routes_reconcilePeers, addRoutes_of_forall, removeRoutes_apply, if_neg hremove, ← hcidr]
  · exact current.gateways_of_mem hp
  · intro c hc heq
    obtain ⟨⟨q', hq', rfl⟩, hnew⟩ := mem_missing.mp ((mem_insertionSort _).mp hc)
    obtain rfl := desired.destination_inj hq' hq heq
    exact absurd hcidr (hnew p hp)

theorem free_of_gone (hgone : ∀ p ∈ current.peers, p.computeCidr.destination = key →
      ∀ q ∈ desired.peers, q.computeCidr ≠ p.computeCidr) :
    (RouteDiff.compute current.peers desired.peers).toRemove.foldl removeRoute
      (gateways current.peers) key = none := by
  rw [removeRoutes_apply]
  split
  case isTrue => rfl
  case isFalse hno =>
    refine gateways_eq_none fun p hp heq ↦ hno ⟨p.computeCidr, ?_, heq⟩
    exact (mem_insertionSort _).mpr (mem_missing.mpr ⟨⟨p, hp, rfl⟩, hgone p hp heq⟩)

theorem free_of_new (hq : q ∈ desired.peers)
    (hnew : ∀ p ∈ current.peers, p.computeCidr ≠ q.computeCidr) :
    (RouteDiff.compute current.peers desired.peers).toRemove.foldl removeRoute
      (gateways current.peers) q.computeCidr.destination = none := by
  refine free_of_gone current desired fun p hp heq q' hq' h ↦ ?_
  obtain rfl := desired.destination_inj hq' hq (by rw [h, heq])
  exact hnew p hp h.symm

theorem route_of_absent (h : ∀ q ∈ desired.peers, q.computeCidr.destination ≠ key)
    (fdb : Finset IpAddr) :
    (reconcilePeers .native ⟨fdb, gateways current.peers⟩ current.peers desired.peers).1.routes
      key = none := by
  rw [routes_reconcilePeers, addRoutes_of_forall]
  · refine free_of_gone current desired fun p hp heq q hq hcidr ↦ ?_
    exact h q hq (by rw [hcidr, heq])
  · intro c hc heq
    obtain ⟨⟨q, hq, rfl⟩, -⟩ := mem_missing.mp ((mem_insertionSort _).mp hc)
    exact absurd heq (h q hq)

theorem toAdd_destinations_nodup :
    ((RouteDiff.compute current.peers desired.peers).toAdd.map Ipv4Net.destination).Nodup := by
  have hdedup : (RouteDiff.missing desired.peers current.peers).Nodup := (nodup_dedup _).filter _
  refine ((perm_insertionSort _ _).map _).nodup_iff.mpr (hdedup.map_on ?_)
  intro c hc d hd heq
  obtain ⟨⟨p, hp, rfl⟩, -⟩ := mem_missing.mp hc
  obtain ⟨⟨q, hq, rfl⟩, -⟩ := mem_missing.mp hd
  rw [desired.destination_inj hp hq heq]

def IpAddr.isV4 : IpAddr → Bool
  | .v4 _ => true
  | .v6 _ => false

/-- The routes become those of the desired peers exactly when no CIDR stays with another gateway
and every CIDR that is new has an IPv4 gateway. -/
theorem native_reaches_desired_iff (fdb : Finset IpAddr) :
    (reconcilePeers .native ⟨fdb, gateways current.peers⟩ current.peers
        desired.peers).1.routes = gateways desired.peers ↔
      (∀ p ∈ current.peers, ∀ q ∈ desired.peers, p.computeCidr = q.computeCidr →
        p.underlayAddress = q.underlayAddress) ∧
      ∀ q ∈ desired.peers, (∀ p ∈ current.peers, p.computeCidr ≠ q.computeCidr) →
        q.underlayAddress.isV4 = true := by
  constructor
  · intro h
    constructor
    · intro p hp q hq hcidr
      have hkept := route_of_kept current desired hp hq hcidr fdb
      rw [h, desired.gateways_of_mem hq] at hkept
      exact (Route.gateway.inj (Option.some.inj hkept)).symm
    · intro q hq hnew
      have hroute := congrFun h q.computeCidr.destination
      rw [desired.gateways_of_mem hq, routes_reconcilePeers] at hroute
      cases hu : q.underlayAddress with
      | v4 => rfl
      | v6 =>
        -- no addition can write there, since the only one that would is refused
        rw [addRoutes_of_forall, free_of_new current desired hq hnew] at hroute
        · exact (nomatch hroute)
        · intro c hc heq r
          obtain ⟨⟨q', hq', rfl⟩, -⟩ := mem_missing.mp ((mem_insertionSort _).mp hc)
          obtain rfl := desired.destination_inj hq' hq heq
          rw [desired.routeFor_of_mem hq, hu]
          exact nofun
  · rintro ⟨hkept, hv4⟩
    have hall {q : Peer} (hq : q ∈ desired.peers)
        (hnew : ∀ p ∈ current.peers, p.computeCidr ≠ q.computeCidr) :
        routeFor .native desired.peers q.computeCidr = .ok (.gateway q.underlayAddress) := by
      have := hv4 q hq hnew
      rw [desired.routeFor_of_mem hq]
      cases hu : q.underlayAddress with
      | v4 => rfl
      | v6 => rw [hu] at this; exact (nomatch this)
    funext key
    by_cases hkey : ∃ q ∈ desired.peers, q.computeCidr.destination = key
    · obtain ⟨q, hq, rfl⟩ := hkey
      rw [desired.gateways_of_mem hq]
      by_cases hold : ∃ p ∈ current.peers, p.computeCidr = q.computeCidr
      · obtain ⟨p, hp, hcidr⟩ := hold
        rw [route_of_kept current desired hp hq hcidr, hkept p hp q hq hcidr]
      · have hnew : ∀ p ∈ current.peers, p.computeCidr ≠ q.computeCidr :=
          fun p hp h ↦ hold ⟨p, hp, h⟩
        rw [routes_reconcilePeers]
        refine addRoutes_of_mem ?_ (toAdd_destinations_nodup current desired)
          (free_of_new current desired hq hnew) ?_ (hall hq hnew)
        · exact (mem_insertionSort _).mpr (mem_missing.mpr ⟨⟨q, hq, rfl⟩, hnew⟩)
        · intro c hc
          obtain ⟨⟨q', hq', rfl⟩, hnew'⟩ := mem_missing.mp ((mem_insertionSort _).mp hc)
          exact ⟨_, hall hq' hnew'⟩
    · have habsent : ∀ q ∈ desired.peers, q.computeCidr.destination ≠ key :=
        fun q hq h ↦ hkey ⟨q, hq, h⟩
      rw [route_of_absent current desired habsent, gateways_eq_none habsent]

/-- A node keeps its CIDR and gets another underlay address: its route keeps the old gateway. -/
theorem readdressed_keeps_gateway :
    (reconcilePeers .native ⟨∅, gateways apart.peers⟩ apart.peers
        readdressed.peers).1.routes (slash24 2).destination = some (.gateway (.v4 20)) ∧
      gateways readdressed.peers (slash24 2).destination = some (.gateway (.v4 30)) := by
  decide

end Temps.Network
