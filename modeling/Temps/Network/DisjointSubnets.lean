import Temps.Lib.Machine
import Temps.Network.Allocator

namespace Temps.Network

open Lib.Fallible List Option

section Picking

variable {pool net : Ipv4Net} {len : Nat} {used : List Ipv4Net} {indices : List Nat}

/-- A subnet that may be handed out: of the configured length, inside the pool and apart from
everything in use. -/
structure Free (pool : Ipv4Net) (len : Nat) (used : List Ipv4Net) (net : Ipv4Net) : Prop where
  length : net.prefixLen = len
  within : ∀ ip, net.contains ip = true → pool.contains ip = true
  apart : ∀ u ∈ used, cidrsOverlap u net = false

theorem firstFree_some (hlen : pool.prefixLen ≤ len)
    (hi : ∀ i ∈ indices, i < 2 ^ (len - pool.prefixLen))
    (h : firstFree pool len used indices = some net) : Free pool len used net := by
  fun_induction firstFree pool len used indices with
  | case1 | case2 => cases h
  | case3 i rest _ _ _ ih => exact ih (forall_mem_cons.mp hi).2 h
  | case4 i rest candidate hblock hany =>
    obtain rfl := some.inj h
    obtain ⟨hb, hnet⟩ := dite_none_right_eq_some.mp hblock
    obtain rfl := some.inj hnet
    have hof : Ipv4Net.BlockOf pool i ⟨_, len, hb.1, hb.2⟩ :=
      ⟨hlen, (forall_mem_cons.mp hi).1, rfl⟩
    exact ⟨rfl, fun ip hip ↦ hof.within hip, by simpa using hany⟩

theorem pickFreeSubnet_some (h : pickFreeSubnet pool len used = some net) :
    Free pool len used net := by
  obtain ⟨hlen, h⟩ := ite_none_right_eq_some.mp h
  exact firstFree_some hlen (fun _ hi ↦ mem_range.mp hi) h

theorem pickHighestFreeSubnet_some (h : pickHighestFreeSubnet pool len used = some net) :
    Free pool len used net := by
  obtain ⟨hlen, h⟩ := ite_none_right_eq_some.mp h
  exact firstFree_some hlen (fun _ hi ↦ mem_range.mp (mem_reverse.mp hi)) h

end Picking

namespace NodeTable

variable {nodes : NodeTable} {id : Nat} {row : NodeRow}

theorem cidrs_setCidr (nodes : NodeTable) (id : Nat) (cidr : Option Ipv4Net) :
    (nodes.setCidr id cidr).cidrs =
      (nodes.rows.map (setRow id cidr)).filterMap NodeRow.computeCidr := rfl

theorem cidrs_release_sublist : (nodes.setCidr id none).cidrs.Sublist nodes.cidrs := by
  rw [cidrs_setCidr, cidrs]
  induction nodes.rows with
  | nil => exact .slnil
  | cons r rows ih =>
    rw [map_cons, filterMap_cons, filterMap_cons, setRow]
    by_cases hid : r.id = id
    · rw [if_pos hid]
      cases r.computeCidr with
      | none => exact ih
      | some c => exact ih.cons c
    · rw [if_neg hid]
      cases r.computeCidr with
      | none => exact ih
      | some c => exact ih.cons_cons c

theorem map_setRow_of_not_mem {rows : List NodeRow} {cidr : Option Ipv4Net}
    (h : id ∉ rows.map NodeRow.id) : rows.map (setRow id cidr) = rows := by
  refine (map_congr_left fun r hr ↦ if_neg fun hid ↦ h ?_).trans (map_id' rows)
  exact mem_map.mpr ⟨r, hr, hid⟩

theorem cidrs_allocate_perm (hfind : nodes.find id = some row) (hfree : row.computeCidr = none)
    (net : Ipv4Net) : (nodes.setCidr id (some net)).cidrs.Perm (net :: nodes.cidrs) := by
  have hid : row.id = id := by simpa using List.find?_some hfind
  obtain ⟨front, back, hrows⟩ := append_of_mem (mem_of_find?_eq_some hfind)
  have hdistinct := nodes.distinct
  rw [hrows, map_append, map_cons, hid, nodup_middle, nodup_cons, mem_append, not_or] at hdistinct
  obtain ⟨⟨hfront, hback⟩, -⟩ := hdistinct
  rw [cidrs_setCidr, cidrs, hrows, map_append, map_cons, map_setRow_of_not_mem hfront,
    map_setRow_of_not_mem hback, setRow, if_pos hid]
  simp only [filterMap_append, filterMap_cons, hfree]
  exact perm_middle

end NodeTable

/-- The store invariant: what is in use is apart, of the configured length and in the pool. -/
structure Sound (s : NetworkState) : Prop where
  apart : s.used.Pairwise fun a b ↦ cidrsOverlap a b = false
  fits : ∀ c ∈ s.used, c.prefixLen = s.config.subnetPrefixLen ∧
    ∀ ip, c.contains ip = true → s.config.computePoolCidr.contains ip = true

variable {s t : NetworkState} {r : ControlPlaneReservation} {alloc : NodeAllocPersisted}

section

variable (hs : Sound s) (hpool : t.config.computePoolCidr = s.config.computePoolCidr)
  (hlen : t.config.subnetPrefixLen = s.config.subnetPrefixLen)
include hs hpool hlen

theorem Sound.of_sublist (hsub : t.used.Sublist s.used) : Sound t where
  apart := hs.apart.sublist hsub
  fits c hc := by
    rw [hpool, hlen]
    exact hs.fits c (hsub.subset hc)

theorem Sound.of_free {net : Ipv4Net}
    (hnet : Free s.config.computePoolCidr s.config.subnetPrefixLen s.used net)
    (hperm : t.used.Perm (net :: s.used)) : Sound t where
  apart := by
    refine (hperm.pairwise_iff fun h ↦ (Ipv4Net.overlap_comm _ _).trans h).mpr ?_
    refine pairwise_cons.mpr ⟨fun u hu ↦ ?_, hs.apart⟩
    exact (Ipv4Net.overlap_comm _ _).trans (hnet.apart u hu)
  fits c hc := by
    rw [hpool, hlen]
    rcases mem_cons.mp (hperm.subset hc) with rfl | hc
    · exact ⟨hnet.length, hnet.within⟩
    · exact hs.fits c hc

end

theorem sound_of_used_nil (h : s.used = []) : Sound s where
  apart := h ▸ List.Pairwise.nil
  fits c hc := by
    rw [h] at hc
    exact (nomatch hc)

theorem configurePool_sound {pool : Ipv4Net} {len : Nat} (hs : Sound s)
    (h : s.configurePool pool len = .ok t) : Sound t := by
  obtain ⟨_, -, h⟩ := bind_eq_ok.mp h
  obtain ⟨_, -, h⟩ := bind_eq_ok.mp h
  split at h
  case isTrue =>
    obtain rfl := Except.ok.inj h
    exact hs
  case isFalse =>
    obtain ⟨hnone, h⟩ := guard_eq_ok.mp h
    obtain ⟨generation, -, h⟩ := bind_eq_ok.mp h
    obtain rfl := Except.ok.inj h
    have hused : s.used = [] := length_eq_zero_iff.mp (by omega)
    exact sound_of_used_nil (by simpa [NetworkState.used] using (append_eq_nil_iff.mp hused).1)

theorem ensureControlPlaneReservation_sound {underlay : IpAddr} (hs : Sound s)
    (h : s.ensureControlPlaneReservation underlay = .ok (t, r)) : Sound t := by
  obtain ⟨_, -, h⟩ := bind_eq_ok.mp h
  obtain ⟨_, -, h⟩ := bind_eq_ok.mp h
  obtain ⟨cidr, hcidr, h⟩ := bind_eq_ok.mp h
  obtain ⟨generation, -, h⟩ := bind_eq_ok.mp h
  obtain rfl := congrArg Prod.fst (Except.ok.inj h)
  unfold NetworkState.reservedCidr at hcidr
  cases hold : s.config.controlPlaneComputeCidr with
  | some old =>
    -- the reservation made before is kept
    rw [hold] at hcidr
    obtain rfl := Except.ok.inj hcidr
    refine hs.of_sublist rfl rfl ?_
    rw [NetworkState.used, NetworkState.used, hold]
  | none =>
    rw [hold] at hcidr
    dsimp only at hcidr
    split at hcidr
    case h_2 => exact (nomatch hcidr)
    case h_1 net hpick =>
      obtain rfl := Except.ok.inj hcidr
      have hused : s.used = s.nodes.cidrs := by simp [NetworkState.used, hold]
      refine hs.of_free rfl rfl (hused ▸ pickHighestFreeSubnet_some hpick) ?_
      rw [hused]
      exact perm_append_comm

theorem releaseUnready_sound (hs : Sound s)
    (h : s.releaseUnreadyControlPlaneReservation r = .ok t) : Sound t := by
  obtain ⟨-, h⟩ := guard_eq_ok.mp h
  obtain ⟨-, h⟩ := guard_eq_ok.mp h
  obtain ⟨generation, -, h⟩ := bind_eq_ok.mp h
  obtain rfl := Except.ok.inj h
  exact hs.of_sublist rfl rfl (List.Sublist.append_left (nil_sublist _) _)

theorem chooseFor_ok {row : NodeRow} (h : s.chooseFor row = .ok alloc) :
    row.computeCidr = none ∧ Free s.config.computePoolCidr s.config.subnetPrefixLen s.used
      alloc.computeCidr := by
  obtain ⟨underlay, hunderlay, h⟩ := bind_eq_ok.mp h
  obtain ⟨_, -, h⟩ := bind_eq_ok.mp h
  obtain ⟨-, h⟩ := guard_eq_ok.mp h
  split at h
  case h_1 => exact (nomatch h)
  case h_2 chosen hpick =>
    obtain rfl := Except.ok.inj h
    refine ⟨?_, pickFreeSubnet_some hpick⟩
    unfold NetworkState.nodeUnderlay at hunderlay
    cases hold : row.computeCidr with
    | none => rfl
    | some existing => exact absurd hunderlay (by simp [hold])

theorem allocateForNode_sound {id : Nat} (hs : Sound s)
    (h : s.allocateForNode id = .ok (t, alloc)) : Sound t := by
  obtain ⟨_, -, h⟩ := bind_eq_ok.mp h
  split at h
  case h_1 => exact (nomatch h)
  case h_2 row hfind =>
    obtain ⟨alloc, halloc, h⟩ := bind_eq_ok.mp h
    obtain rfl := congrArg Prod.fst (Except.ok.inj h)
    obtain ⟨hfree, hnet⟩ := chooseFor_ok halloc
    refine hs.of_free rfl rfl hnet ?_
    exact (NodeTable.cidrs_allocate_perm hfind hfree _).append_right _

theorem run_sound {call : Call} (hs : Sound s) (h : call.run s = .ok t) : Sound t := by
  cases call with
  | configurePool pool len => exact configurePool_sound hs h
  | ensureControlPlaneReservation underlay =>
    obtain ⟨p, hr, rfl⟩ := map_eq_ok.mp h
    exact ensureControlPlaneReservation_sound hs hr
  | setControlPlaneReadyFor r ready =>
    rw [Call.run, NetworkState.setControlPlaneReadyFor] at h
    split at h
    · obtain rfl := Except.ok.inj h
      exact hs.of_sublist rfl rfl (.refl _)
    · exact (nomatch h)
  | releaseUnreadyControlPlaneReservation r => exact releaseUnready_sound hs h
  | allocateForNode id =>
    obtain ⟨p, hr, rfl⟩ := map_eq_ok.mp h
    exact allocateForNode_sound hs hr
  | release id =>
    obtain rfl := Except.ok.inj h
    exact hs.of_sublist rfl rfl (NodeTable.cidrs_release_sublist.append_right _)

theorem after_sound (s : NetworkState) (call : Call) (hs : Sound s) : Sound (s.after call) := by
  unfold NetworkState.after
  split
  case h_1 hrun => exact run_sound hs hrun
  case h_2 => exact hs

theorem fresh_sound (config : ConfigRow) (nodes : NodeTable) :
    Sound (NetworkState.fresh config nodes) := by
  refine sound_of_used_nil ?_
  simp [NetworkState.used, NodeTable.cidrs, NetworkState.fresh]

/-- After any calls no address belongs to two of the subnets in use, and each of them has the
configured length and lies in the configured pool. -/
theorem subnets_disjoint (config : ConfigRow) (nodes : NodeTable) (calls : List Call) :
    let s := calls.foldl NetworkState.after (NetworkState.fresh config nodes)
    (s.used.Pairwise fun a b ↦ ∀ ip, ¬ (a.contains ip ∧ b.contains ip)) ∧
      ∀ c ∈ s.used, c.prefixLen = s.config.subnetPrefixLen ∧
        ∀ ip, c.contains ip → s.config.computePoolCidr.contains ip := by
  intro s
  have hs : Sound s := Lib.Machine.foldl_invariant after_sound (fresh_sound config nodes) calls
  refine ⟨hs.apart.imp fun {a b} hab ip hip ↦ ?_, hs.fits⟩
  exact absurd (Ipv4Net.overlap_of_common hip.1 hip.2) (by simp [hab])

end Temps.Network
