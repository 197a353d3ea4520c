import Temps.Network.Allocator

namespace Temps.Network

open Lib.Fallible List Option

variable {pool net : Ipv4Net} {len i : ℕ} {used : List Ipv4Net} {indices : List ℕ}

/-- A subnet of the pool on a boundary of its own length, whose addresses nothing uses. -/
structure Separate (pool : Ipv4Net) (len : ℕ) (used : List Ipv4Net) (net : Ipv4Net) : Prop where
  length : net.prefixLen = len
  aligned : net.network = net.addr
  within : ∀ ip, net.contains ip = true → pool.contains ip = true
  apart : ∀ u ∈ used, ∀ ip, ¬ (u.contains ip = true ∧ net.contains ip = true)

/-- What a search that prefers small addresses in the order `le` has to return. -/
structure Picks (pool : Ipv4Net) (len : ℕ) (used : List Ipv4Net) (le : ℕ → ℕ → Prop)
    (picked : Option Ipv4Net) : Prop where
  best : ∀ net, picked = some net → Separate pool len used net ∧
    ∀ other, Separate pool len used other → le net.addr other.addr
  exhausted : picked = none ↔ ∀ net, ¬ Separate pool len used net
  bridge : ∀ net, picked = some net → ∃ ip, bridgeAddressFor net = .v4 ip ∧
    ip = net.network + 1 ∧ net.contains ip = true

namespace Ipv4Net

theorem network_contains (net : Ipv4Net) : net.contains net.network :=
  contains_iff.mpr ⟨le_rfl, net.network_le_broadcast⟩

theorem overlap_iff {a b : Ipv4Net} : cidrsOverlap a b ↔ ∃ ip, a.contains ip ∧ b.contains ip := by
  constructor
  · intro h
    rcases Bool.or_eq_true_iff.mp h with h | h
    · exact ⟨b.network, h, b.network_contains⟩
    · exact ⟨a.network, a.network_contains, h⟩
  · intro ⟨ip, ha, hb⟩
    exact overlap_of_common ha hb

theorem broadcast_lt (net : Ipv4Net) : net.broadcast < 2 ^ 32 := by
  have hsize : net.size * 2 ^ net.prefixLen = 2 ^ 32 := by
    rw [size, ← pow_add, Nat.sub_add_cancel net.prefixLen_le]
  have hq : net.addr / net.size < 2 ^ net.prefixLen :=
    Nat.div_lt_of_lt_mul (hsize.symm ▸ net.addr_lt)
  have hle : (net.addr / net.size + 1) * net.size ≤ 2 ^ net.prefixLen * net.size :=
    Nat.mul_le_mul_right _ hq
  have hpos := net.size_pos
  rw [Nat.mul_comm (2 ^ _), Nat.add_mul] at hle
  rw [broadcast, network]
  omega

theorem block_index (hlen : pool.prefixLen ≤ net.prefixLen) (haligned : net.network = net.addr)
    (hin : pool.contains net.addr) : ∃ i, BlockOf pool i net := by
  obtain ⟨hlow, hhigh⟩ := contains_iff.mp hin
  have hsize := size_of_longer hlen
  have hdvd : net.size ∣ net.addr - pool.network := by
    refine Nat.dvd_sub (haligned ▸ Nat.dvd_mul_left _ _) ?_
    rw [network, hsize, ← mul_assoc]
    exact Nat.dvd_mul_left _ _
  obtain ⟨i, hi⟩ := hdvd
  refine ⟨i, hlen, ?_, by rw [Nat.mul_comm i]; omega⟩
  have hlt : net.size * i < net.size * 2 ^ (net.prefixLen - pool.prefixLen) := by
    have := pool.size_pos
    rw [broadcast] at hhigh
    rw [← hi, Nat.mul_comm]
    omega
  exact Nat.lt_of_mul_lt_mul_left hlt

end Ipv4Net

open Ipv4Net

theorem block_addr_lt (hlen : pool.prefixLen ≤ len) (h32 : len ≤ 32)
    (hi : i < 2 ^ (len - pool.prefixLen)) : pool.network + i * 2 ^ (32 - len) < 2 ^ 32 := by
  have hbound := pool.broadcast_lt
  have hsize : 2 ^ (len - pool.prefixLen) * 2 ^ (32 - len) = pool.size := by
    rw [← pow_add]
    congr 1
    omega
  have hlt : i * 2 ^ (32 - len) < pool.size :=
    hsize ▸ Nat.mul_lt_mul_of_pos_right hi (Nat.two_pow_pos _)
  rw [broadcast] at hbound
  omega

theorem block_eq_some (hlen : pool.prefixLen ≤ len) (hi : i < 2 ^ (len - pool.prefixLen)) :
    block pool len i = some net ↔ net.prefixLen = len ∧ BlockOf pool i net := by
  constructor
  · intro h
    obtain ⟨_, ⟨⟩⟩ := dite_none_right_eq_some.mp h
    exact ⟨rfl, hlen, hi, rfl⟩
  · intro ⟨rfl, hof⟩
    have haddr : pool.network + i * 2 ^ (32 - net.prefixLen) = net.addr := hof.addr.symm
    rw [block, dif_pos ⟨haddr ▸ net.addr_lt, net.prefixLen_le⟩]
    simp only [haddr]

theorem firstFree_eq (h : ∀ i ∈ indices, ∃ net, block pool len i = some net) :
    firstFree pool len used indices = (indices.filterMap (block pool len)).find? fun net ↦
      !used.any fun u ↦ cidrsOverlap u net := by
  induction indices with
  | nil => rfl
  | cons i rest ih =>
    obtain ⟨⟨net, hnet⟩, hrest⟩ := forall_mem_cons.mp h
    rw [firstFree, filterMap_cons, hnet, find?_cons, ← ih hrest]
    cases hany : used.any fun u ↦ cidrsOverlap u net <;> simp [hany]

theorem separate_iff (hlen : pool.prefixLen ≤ len) :
    Separate pool len used net ↔ (∃ i < 2 ^ (len - pool.prefixLen), block pool len i = some net) ∧
      (!used.any fun u ↦ cidrsOverlap u net) := by
  have hapart : (!used.any fun u ↦ cidrsOverlap u net) ↔
      ∀ u ∈ used, ∀ ip, ¬ (u.contains ip ∧ net.contains ip) := by
    simp only [Bool.not_eq_true', List.any_eq_false, overlap_iff, not_exists]
  rw [hapart]
  constructor
  · intro h
    obtain ⟨i, hi⟩ := block_index (h.length ▸ hlen) h.aligned
      (h.aligned ▸ h.within _ net.network_contains)
    have hlt : i < 2 ^ (len - pool.prefixLen) := h.length ▸ hi.index
    exact ⟨⟨i, hlt, (block_eq_some hlen hlt).mpr ⟨h.length, hi⟩⟩, h.apart⟩
  · intro ⟨⟨i, hi, hblock⟩, hfree⟩
    obtain ⟨hlength, hof⟩ := (block_eq_some hlen hi).mp hblock
    exact ⟨hlength, hof.network_eq, fun ip ↦ hof.within, hfree⟩

theorem bridge_inside (h : net.prefixLen ≤ 30) : ∃ ip, bridgeAddressFor net = .v4 ip ∧
    ip = net.network + 1 ∧ net.contains ip := by
  have hbound := net.broadcast_lt
  have hsize : 2 ^ 2 ≤ net.size := Nat.pow_le_pow_right (by decide) (by omega)
  rw [broadcast] at hbound
  refine ⟨net.network + 1, ?_, rfl, contains_iff.mpr ⟨Nat.le_succ _, ?_⟩⟩
  · rw [bridgeAddressFor, Nat.min_eq_left (by omega)]
  · rw [broadcast]
    omega

theorem firstFree_picks {le : ℕ → ℕ → Prop} (hlen : pool.prefixLen ≤ len)
    (h30 : len ≤ 30) (hindices : ∀ i, i ∈ indices ↔ i < 2 ^ (len - pool.prefixLen))
    (hrefl : ∀ x, le x x)
    (hsorted : indices.Pairwise fun i j ↦
      le (pool.network + i * 2 ^ (32 - len)) (pool.network + j * 2 ^ (32 - len))) :
    Picks pool len used le (firstFree pool len used indices) := by
  have hblock : ∀ i ∈ indices, ∃ net, block pool len i = some net := fun i hi ↦
    ⟨_, dif_pos ⟨block_addr_lt hlen (by omega) ((hindices i).mp hi), by omega⟩⟩
  have hmem : ∀ net, net ∈ indices.filterMap (block pool len) ↔
      ∃ i < 2 ^ (len - pool.prefixLen), block pool len i = some net := by
    intro net
    simp only [mem_filterMap, hindices]
  have hordered : (indices.filterMap (block pool len)).Pairwise fun a b ↦ le a.addr b.addr := by
    refine pairwise_filterMap.mpr (hsorted.imp fun hle a ha b hb ↦ ?_)
    obtain ⟨_, ⟨⟩⟩ := dite_none_right_eq_some.mp ha
    obtain ⟨_, ⟨⟩⟩ := dite_none_right_eq_some.mp hb
    exact hle
  rw [firstFree_eq hblock]
  refine ⟨fun net hnet ↦ ?_, ?_, fun net hnet ↦ ?_⟩
  · obtain ⟨hfree, before, after, hlist, hbefore⟩ := find?_eq_some_iff_append.mp hnet
    rw [hlist] at hordered hmem
    have hnet : net ∈ before ++ net :: after := mem_append_right before mem_cons_self
    refine ⟨(separate_iff hlen).mpr ⟨(hmem net).mp hnet, hfree⟩, fun other hother ↦ ?_⟩
    obtain ⟨hother, hotherFree⟩ := (separate_iff hlen).mp hother
    rcases mem_append.mp ((hmem other).mpr hother) with hin | hin
    · have := hbefore other hin
      rw [hotherFree] at this
      cases this
    · rcases mem_cons.mp hin with rfl | hin
      · exact hrefl _
      · exact (pairwise_cons.mp (pairwise_append.mp hordered).2.1).1 other hin
  · simp only [find?_eq_none, hmem, separate_iff hlen, not_and]
  · have hin := (hmem net).mp (mem_of_find?_eq_some hnet)
    obtain ⟨i, hi, hblock⟩ := hin
    exact bridge_inside (((block_eq_some hlen hi).mp hblock).1 ▸ h30)

/-- Picking finds the lowest and the highest subnet that nothing uses, and computes no number past
the width of its type. -/
theorem subnet_picking_exact (used : List Ipv4Net) (h : validateSubnetPrefix pool len = .ok ()) :
    Picks pool len used (· ≤ ·) (pickFreeSubnet pool len used) ∧
    Picks pool len used (· ≥ ·) (pickHighestFreeSubnet pool len used) ∧
    2 ^ (len - pool.prefixLen) < 2 ^ 64 ∧ 2 ^ (32 - len) < 2 ^ 64 ∧
    ∀ i < 2 ^ (len - pool.prefixLen), i * 2 ^ (32 - len) < 2 ^ 64 ∧
      pool.network + i * 2 ^ (32 - len) < 2 ^ 32 := by
  obtain ⟨hrange, h⟩ := guard_eq_ok.mp h
  obtain ⟨hlen, h30⟩ := not_or.mp hrange
  have hlen : pool.prefixLen ≤ len := by omega
  have h30 : len ≤ 30 := Nat.not_lt.mp h30
  rw [pickFreeSubnet, if_pos hlen, pickHighestFreeSubnet, if_pos hlen]
  have hsorted : (List.range (2 ^ (len - pool.prefixLen))).Pairwise fun i j ↦
      pool.network + i * 2 ^ (32 - len) ≤ pool.network + j * 2 ^ (32 - len) :=
    pairwise_lt_range.imp fun hlt ↦ Nat.add_le_add_left (Nat.mul_le_mul_right _ (Nat.le_of_lt hlt)) _
  refine ⟨firstFree_picks hlen h30 (fun i ↦ mem_range) Nat.le_refl hsorted,
    firstFree_picks hlen h30 (fun i ↦ mem_reverse.trans mem_range) Nat.le_refl
      (pairwise_reverse.mpr hsorted), ?_, ?_, fun i hi ↦ ?_⟩
  · exact Nat.pow_lt_pow_right (by decide) (by omega)
  · exact Nat.pow_lt_pow_right (by decide) (by omega)
  · have hlt := block_addr_lt hlen (by omega) hi
    exact ⟨by omega, hlt⟩

/-- The last sixteen addresses, of which an allocation with host bits takes the first half. -/
theorem last_block_picked :
    (pickFreeSubnet ⟨2 ^ 32 - 1, 28, by decide, by decide⟩ 30
      [⟨2 ^ 32 - 10, 29, by decide, by decide⟩]).map Ipv4Net.addr = some (2 ^ 32 - 8) ∧
    Picks ⟨2 ^ 32 - 1, 28, by decide, by decide⟩ 30 [⟨2 ^ 32 - 10, 29, by decide, by decide⟩] (· ≤ ·)
      (pickFreeSubnet ⟨2 ^ 32 - 1, 28, by decide, by decide⟩ 30
        [⟨2 ^ 32 - 10, 29, by decide, by decide⟩]) :=
  ⟨by decide, (subnet_picking_exact _ rfl).1⟩

end Temps.Network
