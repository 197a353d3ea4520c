import Temps.Network.Peers

namespace Temps.Network

open List

section Forwarding

variable {fdb : Finset IpAddr} {a : IpAddr} {moves : List (Peer × Peer)}

theorem mem_deletes {dsts : List IpAddr} :
    a ∈ (dsts.map FdbOp.delete).foldl FdbOp.apply fdb ↔ a ∈ fdb ∧ a ∉ dsts := by
  induction dsts generalizing fdb with
  | nil => simp
  | cons dst dsts ih =>
    rw [map_cons, foldl_cons, ih, FdbOp.apply, Finset.mem_erase, mem_cons]
    tauto

theorem mem_appends {peers : List Peer} :
    a ∈ (peers.map fun p ↦ FdbOp.append p.underlayAddress).foldl FdbOp.apply fdb ↔
      a ∈ fdb ∨ ∃ p ∈ peers, p.underlayAddress = a := by
  induction peers generalizing fdb with
  | nil => simp
  | cons p peers ih =>
    rw [map_cons, foldl_cons, ih, FdbOp.apply, Finset.mem_insert]
    simp only [mem_cons, exists_eq_or_imp]
    tauto

def Arrives (a : IpAddr) (move : Peer × Peer) : Prop :=
  move.1.underlayAddress ≠ a ∧ move.2.underlayAddress = a

def Leaves (a : IpAddr) (move : Peer × Peer) : Prop :=
  move.1.underlayAddress = a ∧ move.2.underlayAddress ≠ a

theorem mem_replaceOps (move : Peer × Peer) :
    a ∈ (replaceOps move).foldl FdbOp.apply fdb ↔ Arrives a move ∨ a ∈ fdb ∧ ¬ Leaves a move := by
  unfold replaceOps Arrives Leaves
  by_cases h : move.1.underlayAddress = move.2.underlayAddress
  · rw [if_neg (not_not.mpr h), h]
    tauto
  · rw [if_pos h]
    simp only [foldl_cons, foldl_nil, FdbOp.apply, Finset.mem_insert, Finset.mem_erase]
    constructor
    · rintro (rfl | ⟨hne, hmem⟩)
      · exact .inl ⟨h, rfl⟩
      · exact .inr ⟨hmem, fun hl ↦ hne hl.1.symm⟩
    · rintro (⟨-, rfl⟩ | ⟨hmem, hl⟩)
      · exact .inl rfl
      · by_cases hnew : move.2.underlayAddress = a
        · exact .inl hnew.symm
        · exact .inr ⟨fun hold ↦ hl ⟨hold.symm, hnew⟩, hmem⟩

theorem mem_moves (hsorted : moves.Pairwise fun m n ↦ m.2.nodeId < n.2.nodeId) :
    a ∈ (moves.flatMap replaceOps).foldl FdbOp.apply fdb ↔
      (∃ m ∈ moves, Arrives a m ∧ ∀ n ∈ moves, Leaves a n → n.2.nodeId < m.2.nodeId) ∨
      a ∈ fdb ∧ ∀ n ∈ moves, ¬ Leaves a n := by
  induction moves generalizing fdb with
  | nil => simp
  | cons m moves ih =>
    obtain ⟨hm, hrest⟩ := pairwise_cons.mp hsorted
    rw [flatMap_cons, foldl_append, ih hrest, mem_replaceOps]
    simp only [forall_mem_cons, exists_mem_cons_iff]
    constructor
    · rintro (⟨n, hn, harr, hlast⟩ | ⟨harr | ⟨hmem, hstay⟩, hnone⟩)
      · exact .inl (.inr ⟨n, hn, harr, fun _ ↦ hm n hn, hlast⟩)
      · exact .inl (.inl ⟨harr, fun hl ↦ absurd hl.1 harr.1, fun n hn hl ↦ absurd hl (hnone n hn)⟩)
      · exact .inr ⟨hmem, hstay, hnone⟩
    · rintro ((⟨harr, -, hlast⟩ | ⟨n, hn, harr, -, hlast⟩) | ⟨hmem, hstay, hnone⟩)
      · refine .inr ⟨.inl harr, fun n hn hl ↦ ?_⟩
        exact absurd (hm n hn) (hlast n hn hl).le.not_gt
      · exact .inl ⟨n, hn, harr, hlast⟩
      · exact .inr ⟨.inr ⟨hmem, hstay⟩, hnone⟩

end Forwarding

variable {alloc : NodeAlloc} (current desired : PeerList alloc) {a : IpAddr}

theorem replaced_sorted :
    (PeerDiff.compute current.peers desired.peers).toReplace.Pairwise
      fun m n ↦ m.2.nodeId < n.2.nodeId := by
  have hids : ((PeerDiff.replaced current.peers desired.peers).map fun m ↦ m.2.nodeId).Nodup := by
    refine pairwise_map.mpr (pairwise_filterMap.mpr ?_)
    refine (pairwise_map.mp desired.distinct).imp fun {q q'} hne m hm m' hm' ↦ ?_
    obtain ⟨_, _, rfl⟩ := Option.map_eq_some_iff.mp hm
    obtain ⟨_, _, rfl⟩ := Option.map_eq_some_iff.mp hm'
    exact hne
  have hids' := ((perm_insertionSort (fun a b : Peer × Peer ↦ a.2.nodeId ≤ b.2.nodeId)
    _).map fun m ↦ m.2.nodeId).nodup_iff.mpr hids
  have hle := pairwise_insertionSort (fun a b : Peer × Peer ↦ a.2.nodeId ≤ b.2.nodeId)
    (PeerDiff.replaced current.peers desired.peers)
  exact (hle.and (pairwise_map.mp hids')).imp fun h ↦ lt_of_le_of_ne h.1 h.2

theorem fdb_reconcilePeers (kernel : Kernel) (left right : List Peer) :
    (reconcilePeers .vxlan kernel left right).1.fdb =
      (fdbOps (PeerDiff.compute left right)).foldl FdbOp.apply kernel.fdb := by
  unfold reconcilePeers
  dsimp only
  split
  case isTrue h =>
    -- nothing to add, remove or replace: no operation at all
    obtain ⟨⟨⟨hadd, hremove⟩, hreplace⟩, -⟩ :=
      by simpa only [Bool.and_eq_true, PeerDiff.isNoop, List.isEmpty_iff] using h
    simp [fdbOps, hadd, hremove, hreplace]
  case isFalse => rfl

/-- Someone joins at the address, or arrives there after everyone who leaves it, or nobody gives
it up. -/
def Settles (current desired : List Peer) (a : IpAddr) : Prop :=
  (∃ q ∈ desired, (∀ p ∈ current, p.nodeId ≠ q.nodeId) ∧ q.underlayAddress = a) ∨
  (∃ p ∈ current, ∃ q ∈ desired, p.nodeId = q.nodeId ∧ Arrives a (p, q) ∧
    ∀ p' ∈ current, ∀ q' ∈ desired, p'.nodeId = q'.nodeId → Leaves a (p', q') →
      q'.nodeId < q.nodeId) ∨
  ∀ p ∈ current, p.underlayAddress = a →
    ∃ q ∈ desired, p.nodeId = q.nodeId ∧ q.underlayAddress = a

theorem leaves_replaced {P : Peer → Prop} :
    (∀ n ∈ (PeerDiff.compute current.peers desired.peers).toReplace, Leaves a n → P n.2) ↔
      ∀ p ∈ current.peers, ∀ q ∈ desired.peers, p.nodeId = q.nodeId → Leaves a (p, q) → P q := by
  constructor
  · intro h p hp q hq hid hl
    refine h (p, q) ((mem_insertionSort _).mpr ?_) hl
    refine (mem_replaced current.distinct).mpr ⟨hp, hq, hid, ?_⟩
    rintro rfl
    exact hl.2 hl.1
  · rintro h ⟨p, q⟩ hn hl
    obtain ⟨hp, hq, hid, -⟩ := (mem_replaced current.distinct).mp ((mem_insertionSort _).mp hn)
    exact h p hp q hq hid hl

theorem mem_fdbToRemove {left right : List Peer} :
    a ∈ (PeerDiff.compute left right).fdbToRemove ↔
      ∃ p ∈ left, (∀ q ∈ right, q.nodeId ≠ p.nodeId) ∧ p.underlayAddress = a := by
  rw [PeerDiff.compute, mem_insertionSort, mem_map]
  simp only [mem_joined, and_assoc]

theorem kept_iff :
    (∀ p ∈ current.peers, p.underlayAddress = a →
        ∃ q ∈ desired.peers, p.nodeId = q.nodeId ∧ q.underlayAddress = a) ↔
      a ∉ (PeerDiff.compute current.peers desired.peers).fdbToRemove ∧
      ∀ n ∈ (PeerDiff.compute current.peers desired.peers).toReplace, ¬ Leaves a n := by
  rw [leaves_replaced current desired (P := fun _ ↦ False), mem_fdbToRemove]
  constructor
  · intro hkept
    constructor
    · rintro ⟨p, hp, hgone, rfl⟩
      obtain ⟨q, hq, hid, -⟩ := hkept p hp rfl
      exact hgone q hq hid.symm
    · intro p hp q hq hid hl
      obtain ⟨q', hq', hid', hu⟩ := hkept p hp hl.1
      obtain rfl := inj_on_of_nodup_map desired.distinct hq' hq (hid'.symm.trans hid)
      exact hl.2 hu
  · rintro ⟨hgone, hmoved⟩ p hp hu
    by_contra! hno
    refine hgone ⟨p, hp, fun q hq hid ↦ ?_, hu⟩
    exact hmoved p hp q hq hid.symm ⟨hu, hno q hq hid.symm⟩

theorem mem_fdb_reconcilePeers {routes : RouteTable} :
    a ∈ (reconcilePeers .vxlan ⟨underlays current.peers, routes⟩ current.peers
        desired.peers).1.fdb ↔
      a ∈ underlays desired.peers ∧ Settles current.peers desired.peers a := by
  rw [fdb_reconcilePeers, fdbOps, foldl_append, foldl_append, mem_appends,
    mem_moves (replaced_sorted current desired), mem_deletes, and_assoc, ← kept_iff,
    mem_underlays, mem_underlays]
  constructor
  · rintro ((⟨⟨p, q⟩, hm, harr, hlast⟩ | ⟨⟨p, hp, hu⟩, hkept⟩) | ⟨q, hq, rfl⟩)
    · obtain ⟨hp, hq, hid, -⟩ := (mem_replaced current.distinct).mp ((mem_insertionSort _).mp hm)
      refine ⟨⟨q, hq, harr.2⟩, .inr (.inl ⟨p, hp, q, hq, hid, harr, ?_⟩)⟩
      exact (leaves_replaced current desired).mp hlast
    · obtain ⟨q, hq, -, hqu⟩ := hkept p hp hu
      exact ⟨⟨q, hq, hqu⟩, .inr (.inr hkept)⟩
    · obtain ⟨hq, hnew⟩ := mem_joined.mp ((mem_insertionSort _).mp hq)
      exact ⟨⟨q, hq, rfl⟩, .inl ⟨q, hq, hnew, rfl⟩⟩
  · have hjoin {q : Peer} (hq : q ∈ desired.peers)
        (hnew : ∀ p ∈ current.peers, p.nodeId ≠ q.nodeId) :
        q ∈ (PeerDiff.compute current.peers desired.peers).toAdd :=
      (mem_insertionSort _).mpr (mem_joined.mpr ⟨hq, hnew⟩)
    have harrive {p q : Peer} (hp : p ∈ current.peers) (hq : q ∈ desired.peers)
        (hid : p.nodeId = q.nodeId) (harr : Arrives a (p, q)) :
        (p, q) ∈ (PeerDiff.compute current.peers desired.peers).toReplace := by
      refine (mem_insertionSort _).mpr ((mem_replaced current.distinct).mpr ⟨hp, hq, hid, ?_⟩)
      rintro rfl
      exact harr.1 harr.2
    rintro ⟨⟨q, hq, hqu⟩, ⟨q, hq, hnew, hu⟩ | ⟨p, hp, q, hq, hid, harr, hlast⟩ | hkept⟩
    · exact .inr ⟨q, hjoin hq hnew, hu⟩
    · refine .inl (.inl ⟨(p, q), harrive hp hq hid harr, harr, ?_⟩)
      exact (leaves_replaced current desired).mpr hlast
    · by_cases hold : ∃ p ∈ current.peers, p.underlayAddress = a
      · exact .inl (.inr ⟨hold, hkept⟩)
      · -- nobody had the address: the peer that has it now is new or has come to it
        by_cases hnew : ∀ p ∈ current.peers, p.nodeId ≠ q.nodeId
        · exact .inr ⟨q, hjoin hq hnew, hqu⟩
        · push Not at hnew hold
          obtain ⟨p, hp, hid⟩ := hnew
          have harr : Arrives a (p, q) := ⟨hold p hp, hqu⟩
          refine .inl (.inl ⟨(p, q), harrive hp hq hid harr, harr, ?_⟩)
          intro n hn hl
          exact absurd hl (((kept_iff current desired).mp hkept).2 n hn)

/-- The forwarding entries become those of the desired peers exactly when no address is handed
on to a node that moves before the address's last user leaves it. -/
theorem vxlan_reaches_desired_iff (routes : RouteTable) :
    (reconcilePeers .vxlan ⟨underlays current.peers, routes⟩ current.peers
        desired.peers).1.fdb = underlays desired.peers ↔
      ∀ q ∈ desired.peers, Settles current.peers desired.peers q.underlayAddress := by
  constructor
  · intro h q hq
    have hmem : q.underlayAddress ∈ underlays desired.peers := mem_underlays.mpr ⟨q, hq, rfl⟩
    exact ((mem_fdb_reconcilePeers current desired).mp (h ▸ hmem)).2
  · intro h
    ext a
    rw [mem_fdb_reconcilePeers, and_iff_left_iff_imp]
    intro ha
    obtain ⟨q, hq, rfl⟩ := mem_underlays.mp ha
    exact h q hq

/-- Two nodes exchange their addresses: the second move deletes the entry that the first one had
just appended. -/
theorem exchange_loses_entry :
    (reconcilePeers .vxlan ⟨underlays apart.peers, fun _ ↦ none⟩ apart.peers
      exchanged.peers).1.fdb = {.v4 10} ∧ {.v4 10} ≠ underlays exchanged.peers := by
  decide

end Temps.Network
