import Temps.Lib.Machine
import Temps.Network.Allocator

namespace Temps.Network

open Lib.Fallible Lib.Machine List Bool

/-- The network with the reservations handed out, the newest first, and the one for which the
control plane was last set ready. -/
structure Setups where
  net : NetworkState
  issued : List ControlPlaneReservation
  published : Option ControlPlaneReservation

inductive SetupAct
  | ensure (underlay : IpAddr)
  | setReady (r : ControlPlaneReservation) (ready : Bool)
  | releaseUnready (r : ControlPlaneReservation)
  | changeNodes (nodes : NodeTable)

namespace Setups

def next (s : Setups) : SetupAct → Setups
  | .ensure underlay =>
    match s.net.ensureControlPlaneReservation underlay with
    | .ok (net, r) => { s with net := net, issued := r :: s.issued }
    | .error _ => s
  | .setReady r ready =>
    match s.net.setControlPlaneReadyFor r ready with
    | .ok net => { s with net := net, published := if ready then some r else s.published }
    | .error _ => s
  | .releaseUnready r =>
    match s.net.releaseUnreadyControlPlaneReservation r with
    | .ok net => { s with net := net }
    | .error _ => s
  | .changeNodes nodes => { s with net := { s.net with nodes := nodes } }

def generation (s : Setups) : ℕ := s.net.config.controlPlaneSetupGeneration

structure Fenced (s : Setups) : Prop where
  ordered : s.issued.Pairwise fun newer older ↦ older.setupGeneration < newer.setupGeneration
  bound : ∀ r ∈ s.issued, r.setupGeneration ≤ s.generation
  current : ∀ r ∈ s.issued, r.setupGeneration = s.generation → s.net.matchesReservation r = true
  ready : s.net.config.controlPlaneOverlayReady = true → ∃ r, s.published = some r ∧
    s.net.config.controlPlaneComputeCidr = some r.computeCidr ∧
    s.net.config.controlPlaneUnderlayAddress = some r.underlayAddress

variable {s : Setups} {net net' : NetworkState} {r : ControlPlaneReservation} {underlay : IpAddr}
  {ready : Bool}

theorem generation_of_matches (h : net.matchesReservation r) :
    net.config.controlPlaneSetupGeneration = r.setupGeneration := by
  simp only [NetworkState.matchesReservation, and_eq_true, beq_iff_eq] at h
  exact h.2

theorem nextGeneration_eq {g g' : ℕ} (h : nextGeneration g = .ok g') : g' = g + 1 := by
  unfold nextGeneration at h
  split at h
  · exact (Except.ok.inj h).symm
  · exact (nomatch h)

theorem ensure_spec (hok : net.ensureControlPlaneReservation underlay = .ok (net', r)) :
    r.setupGeneration = net.config.controlPlaneSetupGeneration + 1 ∧ net'.matchesReservation r ∧
      (net'.config.controlPlaneOverlayReady → net.config.controlPlaneOverlayReady ∧
        net'.config.controlPlaneComputeCidr = net.config.controlPlaneComputeCidr ∧
        net'.config.controlPlaneUnderlayAddress = net.config.controlPlaneUnderlayAddress) := by
  obtain ⟨_, -, hok⟩ := bind_eq_ok.mp hok
  obtain ⟨_, -, hok⟩ := bind_eq_ok.mp hok
  obtain ⟨cidr, -, hok⟩ := bind_eq_ok.mp hok
  obtain ⟨g, hg, hok⟩ := bind_eq_ok.mp hok
  obtain ⟨rfl, rfl⟩ := Prod.mk.inj (Except.ok.inj hok)
  refine ⟨nextGeneration_eq hg, by simp [NetworkState.matchesReservation], fun hready ↦ ?_⟩
  simp only [and_eq_true, beq_iff_eq] at hready
  exact ⟨hready.1, hready.2.1.symm, hready.2.2.symm⟩

theorem Fenced.ensure (h : Fenced s)
    (hok : s.net.ensureControlPlaneReservation underlay = .ok (net, r)) :
    Fenced { s with net := net, issued := r :: s.issued } := by
  obtain ⟨hgen, hm, hkept⟩ := ensure_spec hok
  have hnew := generation_of_matches hm
  have hlt : ∀ old ∈ s.issued, old.setupGeneration < r.setupGeneration := by
    intro old hold
    rw [hgen]
    exact Nat.lt_succ_of_le (h.bound old hold)
  refine ⟨pairwise_cons.mpr ⟨hlt, h.ordered⟩, ?_, ?_, fun hready ↦ ?_⟩
  · exact forall_mem_cons.mpr ⟨hnew.ge, fun old hold ↦ (hlt old hold).le.trans hnew.ge⟩
  · refine forall_mem_cons.mpr ⟨fun _ ↦ hm, fun old hold he ↦ ?_⟩
    exact absurd (he.trans hnew) (hlt old hold).ne
  · obtain ⟨hready, hcidr, hunderlay⟩ := hkept hready
    obtain ⟨r, hr, hcidr', hunderlay'⟩ := h.ready hready
    exact ⟨r, hr, hcidr.trans hcidr', hunderlay.trans hunderlay'⟩

theorem setReady_eq (hok : net.setControlPlaneReadyFor r ready = .ok net') :
    net.matchesReservation r ∧
      net' = { net with config := { net.config with controlPlaneOverlayReady := ready } } := by
  unfold NetworkState.setControlPlaneReadyFor at hok
  split at hok
  case isTrue hm => exact ⟨hm, (Except.ok.inj hok).symm⟩
  case isFalse => exact (nomatch hok)

theorem Fenced.setReady (h : Fenced s) (hok : s.net.setControlPlaneReadyFor r ready = .ok net) :
    Fenced { s with net := net, published := if ready then some r else s.published } := by
  obtain ⟨hm, rfl⟩ := setReady_eq hok
  refine ⟨h.ordered, h.bound, h.current, fun hready ↦ ?_⟩
  obtain rfl : ready := hready
  simp only [NetworkState.matchesReservation, and_eq_true, beq_iff_eq] at hm
  exact ⟨r, rfl, hm.1.1.1.1, hm.1.1.1.2⟩

theorem releaseUnready_eq (hok : net.releaseUnreadyControlPlaneReservation r = .ok net') :
    net.matchesReservation r ∧ net.config.controlPlaneOverlayReady = false ∧
      net'.config.controlPlaneSetupGeneration = net.config.controlPlaneSetupGeneration + 1 ∧
      net'.config.controlPlaneOverlayReady = false := by
  obtain ⟨hm, hok⟩ := guard_eq_ok.mp hok
  obtain ⟨hready, hok⟩ := guard_eq_ok.mp hok
  obtain ⟨g, hg, hok⟩ := bind_eq_ok.mp hok
  obtain rfl := Except.ok.inj hok
  exact ⟨by simpa using hm, by simpa using hready, nextGeneration_eq hg, rfl⟩

theorem Fenced.releaseUnready (h : Fenced s)
    (hok : s.net.releaseUnreadyControlPlaneReservation r = .ok net) :
    Fenced { s with net := net } := by
  obtain ⟨-, -, hgen, hready⟩ := releaseUnready_eq hok
  have hlt : ∀ old ∈ s.issued, old.setupGeneration < net.config.controlPlaneSetupGeneration := by
    intro old hold
    rw [hgen]
    exact Nat.lt_succ_of_le (h.bound old hold)
  exact ⟨h.ordered, fun old hold ↦ (hlt old hold).le,
    fun old hold he ↦ absurd he (hlt old hold).ne, fun hr ↦ absurd hr (by simp [hready])⟩

theorem Fenced.next (s : Setups) (a : SetupAct) (h : Fenced s) : Fenced (s.next a) := by
  fun_cases Setups.next s a
  case case1 hok => exact h.ensure hok
  case case3 hok => exact h.setReady hok
  case case5 hok => exact h.releaseUnready hok
  case case7 => exact { h with }
  all_goals exact h

theorem Fenced.head_of_matches (h : Fenced s) (hr : r ∈ s.issued)
    (hm : s.net.matchesReservation r) : s.issued.head? = some r := by
  have hgen : s.generation = r.setupGeneration := generation_of_matches hm
  obtain ⟨hord, hbound, -, -⟩ := h
  cases hi : s.issued with
  | nil => simp [hi] at hr
  | cons newest older =>
    rw [hi] at hr hord hbound
    rcases mem_cons.mp hr with rfl | hold
    · rfl
    · have hlt := (pairwise_cons.mp hord).1 r hold
      have hle := hbound newest mem_cons_self
      omega

def Stale (r : ControlPlaneReservation) (s : Setups) : Prop := r.setupGeneration < s.generation

theorem Stale.next (s : Setups) (a : SetupAct) (h : Stale r s) : Stale r (s.next a) := by
  fun_cases Setups.next s a
  case case1 hok =>
    obtain ⟨hgen, hm, -⟩ := ensure_spec hok
    exact (Nat.lt_succ_of_lt h).trans_eq (hgen.symm.trans (generation_of_matches hm).symm)
  case case3 hok =>
    obtain ⟨-, rfl⟩ := setReady_eq hok
    exact h
  case case5 hok => exact (Nat.lt_succ_of_lt h).trans_eq (releaseUnready_eq hok).2.2.1.symm
  all_goals exact h

end Setups

/-- Workers set the control plane up concurrently: of the reservations handed out only the newest
can be published or given up, generations increase, a reservation that has stopped to match never
matches again, the ready flag belongs to the topology it was set for, and a ready control plane is
not given up. -/
theorem reservations_fenced (net : NetworkState)
    (hnet : net.config.controlPlaneOverlayReady = false) (acts : List SetupAct) :
    let s := acts.foldl Setups.next ⟨net, [], none⟩
    (∀ r ∈ s.issued, ∀ t, (∃ ready, s.net.setControlPlaneReadyFor r ready = .ok t) ∨
      s.net.releaseUnreadyControlPlaneReservation r = .ok t → s.issued.head? = some r) ∧
    (s.issued.Pairwise fun newer older ↦ older.setupGeneration < newer.setupGeneration) ∧
    (∀ r ∈ s.issued, s.net.matchesReservation r = false → ∀ more : List SetupAct,
      (more.foldl Setups.next s).net.matchesReservation r = false) ∧
    (s.net.config.controlPlaneOverlayReady → ∃ r, s.published = some r ∧
      s.net.config.controlPlaneComputeCidr = some r.computeCidr ∧
      s.net.config.controlPlaneUnderlayAddress = some r.underlayAddress) ∧
    ∀ r t, s.net.releaseUnreadyControlPlaneReservation r = .ok t →
      s.net.config.controlPlaneOverlayReady = false := by
  intro s
  have hs : Setups.Fenced s := by
    refine foldl_invariant Setups.Fenced.next ⟨.nil, ?_, ?_, fun h ↦ ?_⟩ acts
    · exact nofun
    · exact nofun
    · exact absurd h (by simp [hnet])
  refine ⟨fun r hr t hok ↦ hs.head_of_matches hr ?_, hs.ordered, fun r hr hm more ↦ ?_, hs.ready,
    fun r t hok ↦ (Setups.releaseUnready_eq hok).2.1⟩
  · rcases hok with ⟨ready, hok⟩ | hok
    · exact (Setups.setReady_eq hok).1
    · exact (Setups.releaseUnready_eq hok).1
  · have hstale : Setups.Stale r s := by
      refine (hs.bound r hr).lt_of_ne fun he ↦ ?_
      exact absurd (hs.current r hr he) (by simp [hm])
    have hlater := foldl_invariant Setups.Stale.next hstale more
    by_contra hmatch
    rw [not_eq_false] at hmatch
    exact absurd (Setups.generation_of_matches hmatch) (Nat.ne_of_gt hlater)

def unreservedNet (pool : Ipv4Net) : NetworkState where
  config := ⟨pool, 28, none, none, false, 0⟩
  nodes := ⟨[], .nil⟩

theorem reserved_twice_fenced :
    let s := [SetupAct.ensure (.v4 1), .ensure (.v4 2)].foldl Setups.next
      ⟨unreservedNet (slash24 0), [], none⟩
    s.issued.map (·.setupGeneration) = [2, 1] ∧
      ∀ r ∈ s.issued, ∀ t, (∃ ready, s.net.setControlPlaneReadyFor r ready = .ok t) ∨
        s.net.releaseUnreadyControlPlaneReservation r = .ok t → s.issued.head? = some r :=
  ⟨by decide +kernel, (reservations_fenced (unreservedNet _) rfl _).1⟩

end Temps.Network
