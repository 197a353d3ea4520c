import Temps.Deployments.EligibleNodes
import Temps.Deployments.Spreading
import Temps.Lib.Fallible

namespace Temps.Deployments

open Lib.Fallible Lib.Rounds List

variable {L : Type}

/-- Where a replica may go: the control plane or a worker node. -/
inductive Slot (L : Type) where
  | controlPlane
  | worker (node : Node L)

namespace Slot

def assignment : Slot L → NodeAssignment
  | controlPlane => .localDaemon
  | worker node => node.assignment

def loadScore : Slot L → Option L
  | controlPlane => none
  | worker node => node.loadScore

def entry (slot : Slot L) : PoolEntry L := ⟨slot.assignment, slot.loadScore⟩

def calm (c : NodeScheduler L) (slot : Slot L) : Bool :=
  slot.loadScore.all fun score ↦ c.scores.lt score c.maxLoadThreshold

def hosting (request : ReplicaPlacementRequest) : Slot L → Bool
  | controlPlane => false
  | worker node => request.excludeNodeIds.contains node.id

end Slot

section Specification

variable (c : NodeScheduler L) (reads : Reads L) (request : ReplicaPlacementRequest)

def Candidate : Slot L → Prop
  | .controlPlane => LocalEligible c request
  | .worker node => Eligible c reads request node

/-- The candidates that are left when loaded nodes are passed over as long as another one is there. -/
def Preferred (slot : Slot L) : Prop :=
  Candidate c reads request slot ∧
    (slot.calm c = true ∨ ∀ other, Candidate c reads request other → other.calm c = false)

/-- Those left when, among these, the nodes that host the environment are passed over likewise. -/
def Contender (slot : Slot L) : Prop :=
  Preferred c reads request slot ∧ (slot.hosting request = false ∨
    ∀ other, Preferred c reads request other → other.hosting request = true)

structure Respects (assignments : List NodeAssignment) : Prop where
  length : assignments.length = request.replicaCount
  placed : ∀ a ∈ assignments, ∃ slot, Candidate c reads request slot ∧ slot.assignment = a
  calm : ∀ slot, Candidate c reads request slot → slot.calm c = false →
    slot.assignment ∈ assignments →
      ∀ other, Candidate c reads request other → other.calm c = false
  balanced : request.antiAffinity = true → ∀ x y, Contender c reads request x →
    Contender c reads request y →
      assignments.count x.assignment ≤ assignments.count y.assignment + 1

/-- Anti-affinity finds every node below the load threshold hosting the environment, while another
eligible node is at or above it and the control plane is no candidate. -/
structure Readmits : Prop where
  selector : ∀ v, request.labels = some v → v.asObject.isSome = true
  hosted : request.targetsControlPlane = true → c.localWorkloadsEnabled = true
  antiAffinity : request.antiAffinity = true
  remote : ¬ Candidate c reads request .controlPlane
  calm : ∃ slot, Candidate c reads request slot ∧ slot.calm c = true
  hosting : ∀ slot, Candidate c reads request slot → slot.calm c = true →
    slot.hosting request = true
  loaded : ∃ slot, Candidate c reads request slot ∧ slot.calm c = false

end Specification

variable {c : NodeScheduler L} {reads : Reads L} {request : ReplicaPlacementRequest} {slot : Slot L}
  {o : SchedulingOutcome}

def slots (c : NodeScheduler L) (reads : Reads L) (request : ReplicaPlacementRequest) :
    List (Slot L) :=
  (if includeLocal c reads request then [.controlPlane] else []) ++
    (eligibleNodes c reads request).map .worker

theorem mem_slots : slot ∈ slots c reads request ↔ Candidate c reads request slot := by
  rw [slots]
  cases slot with
  | controlPlane =>
    have hlocal : includeLocal c reads request ↔ LocalEligible c request := includeLocal_iff
    rw [Candidate, ← hlocal]
    cases includeLocal c reads request <;> simp
  | worker node =>
    rw [Candidate, ← mem_eligibleNodes]
    cases includeLocal c reads request <;> simp

theorem fullPool_eq : fullPool (includeLocal c reads request) (eligibleNodes c reads request) =
    (slots c reads request).map Slot.entry := by
  rw [slots, map_append, map_map]
  cases includeLocal c reads request <;> rfl

def loadSlots (c : NodeScheduler L) (reads : Reads L) (request : ReplicaPlacementRequest) :
    List (Slot L) :=
  preferring (Slot.calm c) (slots c reads request) (slots c reads request)

def poolSlots (c : NodeScheduler L) (reads : Reads L) (request : ReplicaPlacementRequest) :
    List (Slot L) :=
  if request.antiAffinity && !request.excludeNodeIds.isEmpty then
    preferring (!Slot.hosting request ·) (loadSlots c reads request) (slots c reads request)
  else loadSlots c reads request

theorem schedulingPool_eq :
    schedulingPool c reads request = (poolSlots c reads request).map Slot.entry := by
  have hload : loadPool c ((slots c reads request).map Slot.entry) =
      (loadSlots c reads request).map Slot.entry := preferring_map ..
  have hhosting : (fun e : PoolEntry L ↦ e.assignment.nodeId.all
      (!request.excludeNodeIds.contains ·)) ∘ Slot.entry = (!Slot.hosting request ·) := by
    funext slot
    cases slot <;> rfl
  rw [schedulingPool, fullPool_eq, hload, poolSlots, spreadPool]
  split
  · rw [← hhosting, ← preferring_map]
    rfl
  · rfl

theorem slots_nodup : ((slots c reads request).map Slot.assignment).Nodup := by
  have hids : ((eligibleNodes c reads request).map fun node ↦ some node.id).Nodup := by
    have h : (((eligibleNodes c reads request).map Node.id).map some).Nodup :=
      eligibleNodes_ids.map (Option.some_injective ℤ)
    rwa [map_map] at h
  refine List.Nodup.of_map NodeAssignment.nodeId ?_
  rw [slots, map_append, map_append, map_map, map_map, map_map]
  cases includeLocal c reads request with
  | false => exact hids
  | true =>
    refine nodup_cons.mpr ⟨fun hlocal ↦ ?_, hids⟩
    obtain ⟨node, -, hnode⟩ := mem_map.mp hlocal
    cases hnode

theorem loadSlots_sublist : (loadSlots c reads request).Sublist (slots c reads request) :=
  preferring_sublist (List.Sublist.refl _) (List.Sublist.refl _)

theorem poolSlots_sublist : (poolSlots c reads request).Sublist (slots c reads request) := by
  rw [poolSlots]
  split
  · exact preferring_sublist loadSlots_sublist (List.Sublist.refl _)
  · exact loadSlots_sublist

theorem mem_loadSlots : slot ∈ loadSlots c reads request ↔ Preferred c reads request slot := by
  rw [loadSlots, mem_preferring, Preferred, ← and_or_left]
  simp only [mem_slots]

section

variable (h : ¬ Readmits c reads request)
  (hselector : ∀ v, request.labels = some v → v.asObject.isSome)
  (hhosted : request.targetsControlPlane → c.localWorkloadsEnabled)
include h hselector hhosted

theorem preferred_of_hosting (hanti : request.antiAffinity)
    (hall : ∀ other, Preferred c reads request other → other.hosting request)
    (hslot : Candidate c reads request slot) : Preferred c reads request slot := by
  refine ⟨hslot, ?_⟩
  by_contra hloaded
  simp only [not_or, not_forall, Bool.not_eq_true, Bool.not_eq_false] at hloaded
  obtain ⟨hloaded, other, hother, hcalm⟩ := hloaded
  refine h ⟨hselector, hhosted, hanti, fun hlocal ↦ ?_, ⟨other, hother, hcalm⟩,
    fun x hx hcalm ↦ hall x ⟨hx, .inl hcalm⟩, ⟨slot, hslot, hloaded⟩⟩
  -- the control plane is calm and hosts nothing
  have := hall .controlPlane ⟨hlocal, .inl rfl⟩
  cases this

theorem mem_poolSlots (hanti : request.antiAffinity) :
    slot ∈ poolSlots c reads request ↔ Contender c reads request slot := by
  rw [poolSlots]
  by_cases hexclude : request.excludeNodeIds = []
  · -- nothing is excluded
    have hfree : slot.hosting request = false := by
      cases slot with
      | controlPlane => rfl
      | worker node => simp [Slot.hosting, hexclude]
    rw [if_neg (by simp [hexclude]), mem_loadSlots]
    exact ⟨fun hslot ↦ ⟨hslot, .inl hfree⟩, And.left⟩
  · rw [if_pos (by simp [hanti, hexclude]), mem_preferring]
    simp only [mem_loadSlots, mem_slots, Bool.not_eq_true', Bool.not_eq_false']
    constructor
    · rintro (⟨hslot, hfree⟩ | ⟨hslot, hall⟩)
      · exact ⟨hslot, .inl hfree⟩
      · exact ⟨preferred_of_hosting h hselector hhosted hanti hall hslot, .inr hall⟩
    · rintro ⟨hslot, hfree | hall⟩
      · exact .inl ⟨hslot, hfree⟩
      · exact .inr ⟨hslot.1, hall⟩

theorem poolSlots_preferred
    (hslot : slot ∈ poolSlots c reads request) : Preferred c reads request slot := by
  by_cases hanti : request.antiAffinity
  · exact ((mem_poolSlots h hselector hhosted hanti).mp hslot).1
  · rw [poolSlots, if_neg (by simp [hanti])] at hslot
    exact mem_loadSlots.mp hslot

end

inductive Placed (c : NodeScheduler L) (reads : Reads L) (request : ReplicaPlacementRequest) :
    List NodeAssignment → Prop
  | onControlPlane (hnone : eligibleNodes c reads request = [])
      (hlocal : includeLocal c reads request = true) :
      Placed c reads request (List.replicate request.replicaCount .localDaemon)
  | onPool (hsome : eligibleNodes c reads request ≠ []) :
      Placed c reads request (distribute c reads request)

theorem distribute_eq : distribute c reads request =
    pickFrom ((poolSlots c reads request).map Slot.assignment)
      (schedulePlaces c reads request ((poolSlots c reads request).map Slot.entry)) := by
  rw [distribute, schedulingPool_eq, map_map]
  rfl

theorem labels_isNone_iff : ¬ request.labels.any (·.asObject.isNone) ↔
    ∀ v, request.labels = some v → v.asObject.isSome := by
  simp [Option.any_eq_true, Option.isSome_iff_ne_none]

theorem schedulePlacement_ok (h : schedulePlacement c reads request = .ok o) :
    (∀ v, request.labels = some v → v.asObject.isSome) ∧
      (request.targetsControlPlane → c.localWorkloadsEnabled) ∧
      Placed c reads request o.assignments := by
  obtain ⟨hselector, h⟩ := guard_eq_ok.mp h
  cases hrefusal : socketRefusal c reads request with
  | some refusal =>
    rw [hrefusal] at h
    cases h
  | none =>
    rw [hrefusal] at h
    obtain ⟨hhosted, h⟩ := guard_eq_ok.mp h
    obtain ⟨-, h⟩ := guard_eq_ok.mp h
    obtain ⟨-, h⟩ := guard_eq_ok.mp h
    obtain ⟨-, h⟩ := guard_eq_ok.mp h
    refine ⟨labels_isNone_iff.mp hselector, by simpa using hhosted, ?_⟩
    by_cases hnone : eligibleNodes c reads request = []
    · rw [if_pos (List.isEmpty_iff.mpr hnone)] at h
      obtain ⟨-, h⟩ := guard_eq_ok.mp h
      obtain ⟨hlocal, h⟩ := guard_eq_ok.mp h
      cases h
      exact .onControlPlane hnone (by simpa using hlocal)
    · rw [if_neg (mt List.isEmpty_iff.mp hnone)] at h
      cases h
      exact .onPool hnone

theorem schedulePlacement_eq_ok (hselector : ∀ v, request.labels = some v → v.asObject.isSome)
    (hhosted : request.targetsControlPlane → c.localWorkloadsEnabled)
    (hsome : eligibleNodes c reads request ≠ [])
    (hcount : request.replicaCount ≤ (eligibleNodes c reads request).length) :
    schedulePlacement c reads request = .ok (.of c reads request (distribute c reads request)) := by
  obtain ⟨node, hnode⟩ := exists_mem_of_ne_nil _ hsome
  have hsocket : (socketScreening c reads request).nodes ≠ [] :=
    ne_nil_of_mem (mem_screening.mp hnode).1
  have hrefusal : socketRefusal c reads request = none := by
    rw [socketRefusal, Option.bind_eq_none_iff]
    exact fun gate _ ↦ if_neg (by simp [hsocket])
  refine guard_eq_ok.mpr ⟨labels_isNone_iff.mpr hselector, ?_⟩
  rw [hrefusal]
  refine guard_eq_ok.mpr ⟨by simpa using hhosted, ?_⟩
  refine guard_eq_ok.mpr ⟨by simp [hsome], ?_⟩
  refine guard_eq_ok.mpr ⟨by simp [hsome], ?_⟩
  refine guard_eq_ok.mpr ⟨fun h ↦ ?_, if_neg (mt List.isEmpty_iff.mp hsome)⟩
  have hshort := of_decide_eq_true (Bool.and_eq_true_iff.mp h).2
  omega

theorem candidate_recount (n : ℕ) : Candidate c reads { request with replicaCount := n } slot ↔
    Candidate c reads request slot := by
  rw [← mem_slots, ← mem_slots]
  rfl

theorem Readmits.recount (h : Readmits c reads request) (n : ℕ) :
    Readmits c reads { request with replicaCount := n } where
  __ := h
  remote := mt (candidate_recount n).mp h.remote
  calm := h.calm.imp fun _ hslot ↦ ⟨(candidate_recount n).mpr hslot.1, hslot.2⟩
  hosting := fun slot hslot ↦ h.hosting slot ((candidate_recount n).mp hslot)
  loaded := h.loaded.imp fun _ hslot ↦ ⟨(candidate_recount n).mpr hslot.1, hslot.2⟩

theorem mem_pool_of_assigned (hslot : Candidate c reads request slot)
    (h : slot.assignment ∈ distribute c reads request) : slot ∈ poolSlots c reads request := by
  rw [distribute_eq] at h
  obtain ⟨i, -, hi⟩ := mem_pickFrom.mp h
  obtain ⟨other, hother, hsame⟩ := mem_map.mp (mem_of_getElem? hi)
  have hall := poolSlots_sublist.subset hother
  rwa [← inj_on_of_nodup_map slots_nodup hall (mem_slots.mpr hslot) hsame]

theorem poolSlots_ne_nil (hsome : eligibleNodes c reads request ≠ []) :
    poolSlots c reads request ≠ [] := by
  have hslots : slots c reads request ≠ [] := by simp [slots, hsome]
  rw [poolSlots]
  split <;> exact preferring_ne_nil hslots

theorem distribute_length (hsome : eligibleNodes c reads request ≠ []) :
    (distribute c reads request).length = request.replicaCount := by
  have hpos : 0 < ((poolSlots c reads request).map Slot.entry).length := by
    rw [length_map]
    exact length_pos_iff.mpr (poolSlots_ne_nil hsome)
  rw [distribute_eq, pickFrom_length, schedulePlaces_length]
  intro i hi
  have := schedulePlaces_lt hpos i hi
  rwa [length_map] at this ⊢

theorem distribute_spread (hanti : request.antiAffinity)
    (hsize : 1 < (poolSlots c reads request).length) :
    Spread (poolSlots c reads request).length ∅
      (schedulePlaces c reads request ((poolSlots c reads request).map Slot.entry)) := by
  have hspread : Spread ((poolSlots c reads request).map Slot.entry).length ∅
      (schedulePlaces c reads request ((poolSlots c reads request).map Slot.entry)) :=
    schedulePlaces_spread hanti (by rwa [length_map])
  rwa [length_map] at hspread

theorem place_of_mem {l : List (Slot L)} (h : slot ∈ l) :
    ∃ i < l.length, (l.map Slot.assignment)[i]? = some slot.assignment := by
  obtain ⟨i, hi⟩ := mem_iff_getElem?.mp h
  refine ⟨i, (List.getElem?_eq_some_iff.mp hi).1, ?_⟩
  rw [List.getElem?_map, hi, Option.map_some]

theorem distribute_balanced (hanti : request.antiAffinity) {x y : Slot L}
    (hx : x ∈ poolSlots c reads request) (hy : y ∈ poolSlots c reads request) :
    (distribute c reads request).count x.assignment ≤
      (distribute c reads request).count y.assignment + 1 := by
  have hnodup : ((poolSlots c reads request).map Slot.assignment).Nodup :=
    slots_nodup.sublist (poolSlots_sublist.map Slot.assignment)
  obtain ⟨i, hlt, hi⟩ := place_of_mem hx
  obtain ⟨j, hlt', hj⟩ := place_of_mem hy
  rw [distribute_eq, count_pickFrom hnodup hi, count_pickFrom hnodup hj]
  by_cases hsize : 1 < (poolSlots c reads request).length
  · exact (distribute_spread hanti hsize).balanced hlt hlt'
  · -- a pool of one place
    obtain rfl : i = j := by omega
    omega

theorem respects_of_ok (h : ¬ Readmits c reads request)
    (ho : schedulePlacement c reads request = .ok o) : Respects c reads request o.assignments := by
  obtain ⟨hselector, hhosted, hplaced⟩ := schedulePlacement_ok ho
  generalize o.assignments = assignments at hplaced
  cases hplaced with
  | onControlPlane hnone hlocal =>
    have honly : ∀ slot, Candidate c reads request slot → slot = .controlPlane := by
      intro slot hslot
      cases slot with
      | controlPlane => rfl
      | worker node =>
        rw [Candidate, ← mem_eligibleNodes, hnone] at hslot
        cases hslot
    refine ⟨length_replicate, ?_, ?_, ?_⟩
    · intro a ha
      exact ⟨.controlPlane, includeLocal_iff.mp hlocal, (eq_of_mem_replicate ha).symm⟩
    · intro slot hslot hload
      rw [honly slot hslot] at hload
      cases hload
    · intro _ x y hx hy
      rw [honly x hx.1.1, honly y hy.1.1]
      exact Nat.le_succ _
  | onPool hsome =>
    refine ⟨distribute_length hsome, ?_, ?_, ?_⟩
    · intro a ha
      rw [distribute_eq] at ha
      obtain ⟨i, -, hi⟩ := mem_pickFrom.mp ha
      obtain ⟨slot, hslot, rfl⟩ := mem_map.mp (mem_of_getElem? hi)
      exact ⟨slot, mem_slots.mp (poolSlots_sublist.subset hslot), rfl⟩
    · intro slot hslot hload hused
      have hpreferred := poolSlots_preferred h hselector hhosted (mem_pool_of_assigned hslot hused)
      refine hpreferred.2.resolve_left fun hcalm ↦ ?_
      rw [hload] at hcalm
      cases hcalm
    · intro hanti x y hx hy
      exact distribute_balanced hanti ((mem_poolSlots h hselector hhosted hanti).mpr hx)
        ((mem_poolSlots h hselector hhosted hanti).mpr hy)

theorem Readmits.pool (h : Readmits c reads request) :
    poolSlots c reads request = slots c reads request := by
  obtain ⟨calm, hcalm, hbelow⟩ := h.calm
  have hhosting := h.hosting calm hcalm hbelow
  have hexclude : request.excludeNodeIds ≠ [] := by
    cases calm with
    | controlPlane => cases hhosting
    | worker node => exact ne_nil_of_mem (contains_iff_mem.mp hhosting)
  have hall : (loadSlots c reads request).filter (!Slot.hosting request ·) = [] := by
    rw [filter_eq_nil_iff]
    intro slot hslot
    obtain ⟨hslot, hcalm' | hnone⟩ := mem_loadSlots.mp hslot
    · simp [h.hosting slot hslot hcalm']
    · rw [hnone calm hcalm] at hbelow
      cases hbelow
  rw [poolSlots, if_pos (by simp [h.antiAffinity, hexclude]), preferring, hall]
  rfl

theorem loaded_placed (h : Readmits c reads request)
    (hcount : request.replicaCount = (eligibleNodes c reads request).length) :
    ∃ o, schedulePlacement c reads request = .ok o ∧ ¬ Respects c reads request o.assignments := by
  obtain ⟨calm, hcalm, hbelow⟩ := h.calm
  obtain ⟨loaded, hloaded, habove⟩ := h.loaded
  have hlocal : includeLocal c reads request = false :=
    Bool.eq_false_iff.mpr (mt includeLocal_iff.mp h.remote)
  have hlength : (slots c reads request).length = (eligibleNodes c reads request).length := by
    simp [slots, hlocal]
  obtain ⟨i, hi, hplace⟩ := place_of_mem (mem_slots.mpr hloaded)
  obtain ⟨j, hj, hplace'⟩ := place_of_mem (mem_slots.mpr hcalm)
  have hsize : 1 < (slots c reads request).length := by
    have hne : i ≠ j := by
      rintro rfl
      rw [hplace, Option.some.injEq] at hplace'
      obtain rfl : loaded = calm := inj_on_of_nodup_map slots_nodup (mem_slots.mpr hloaded)
        (mem_slots.mpr hcalm) hplace'
      rw [hbelow] at habove
      cases habove
    omega
  have hsome : eligibleNodes c reads request ≠ [] := length_pos_iff.mp (by omega)
  refine ⟨_, schedulePlacement_eq_ok h.selector h.hosted hsome (Nat.le_of_eq hcount), ?_⟩
  intro hrespects
  have hpicked : i ∈ schedulePlaces c reads request ((poolSlots c reads request).map Slot.entry) := by
    have hspread := distribute_spread h.antiAffinity (by rwa [h.pool])
    refine hspread.all_picked ?_ (by rwa [h.pool])
    rw [schedulePlaces_length, h.pool, hlength, hcount]
  have hused : loaded.assignment ∈ distribute c reads request := by
    rw [distribute_eq]
    exact mem_pickFrom.mpr ⟨i, hpicked, by rwa [h.pool]⟩
  have hnone := hrespects.calm loaded hloaded habove hused calm hcalm
  rw [hbelow] at hnone
  cases hnone

/-- Loaded nodes are left alone, and every other promise holds, exactly when the exclusion of the
nodes that host the environment never brings them back. -/
theorem placement_respects_constraints (c : NodeScheduler L) (reads : Reads L)
    (request : ReplicaPlacementRequest) :
    (∀ n o, schedulePlacement c reads { request with replicaCount := n } = .ok o →
      Respects c reads { request with replicaCount := n } o.assignments) ↔
    ¬ Readmits c reads request := by
  constructor
  · intro hall hreadmits
    have hbad := hreadmits.recount (eligibleNodes c reads request).length
    obtain ⟨o, ho, hbad⟩ := loaded_placed hbad rfl
    exact hbad (hall _ o ho)
  · intro h n o ho
    exact respects_of_ok (fun hreadmits ↦ h (hreadmits.recount request.replicaCount)) ho

def sampleWorker (id : ℤ) (load : ℕ) : Node ℕ where
  id := id
  name := "worker-" ++ toString id
  address := "https://203.0.113.50:3100"
  dataAddress := "10.100.0.2"
  status := .active
  lastHeartbeat := some 100
  labels := .object []
  architecture := none
  loadScore := some load
  dockerSocketProjects := []

def sampleScheduler : NodeScheduler ℕ where
  strategy := .leastLoaded
  heartbeatThresholdSecs := 90
  maxLoadThreshold := 90
  scores := ⟨fun a b ↦ a < b, fun a b ↦ some (compare a b), 50, fun size load ↦ load + 100 / size⟩
  platformsMatch := fun a b ↦ a == b
  localWorkloadsEnabled := false
  localPlatform := none
  dockerSocketGrant := []

def sampleReads : Reads ℕ where
  now := 120
  nodes := ⟨[sampleWorker 1 95, sampleWorker 2 10], by decide⟩
  known := none
  granting := ⟨[], by decide⟩
  counter := id

def sampleRequest : ReplicaPlacementRequest where
  replicaCount := 2
  labels := none
  targetNodeIds := none
  antiAffinity := true
  excludeNodeIds := [2]
  imagePlatforms := []
  projectSlug := none
  excludeControlPlane := false

theorem loaded_worker_used :
    ∃ o, schedulePlacement sampleScheduler sampleReads sampleRequest = .ok o ∧
      o.assignments = [(sampleWorker 2 10).assignment, (sampleWorker 1 95).assignment] ∧
      ¬ Respects sampleScheduler sampleReads sampleRequest o.assignments := by
  refine ⟨_, rfl, rfl, fun h ↦ ?_⟩
  have heligible : ∀ node ∈ [sampleWorker 1 95, sampleWorker 2 10],
      Candidate sampleScheduler sampleReads sampleRequest (.worker node) := by
    intro node hnode
    exact mem_eligibleNodes.mp hnode
  have hnone := h.calm (.worker (sampleWorker 1 95)) (heligible _ (by simp)) (by decide)
    (by decide) (.worker (sampleWorker 2 10)) (heligible _ (by simp))
  cases hnone

end Temps.Deployments
