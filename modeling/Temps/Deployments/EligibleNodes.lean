import Temps.Deployments.NodeScheduler

namespace Temps.Deployments

open List

variable {L : Type} {c : NodeScheduler L} {reads : Reads L} {request : ReplicaPlacementRequest}
  {node : Node L}

structure Eligible (c : NodeScheduler L) (reads : Reads L) (request : ReplicaPlacementRequest)
    (node : Node L) : Prop where
  listed : node ∈ reads.nodes.rows
  active : node.status = .active
  beating : ∃ beat, node.lastHeartbeat = some beat ∧
    reads.now - c.heartbeatThresholdSecs ≤ beat
  pinned : ∀ ids, request.targetNodeIds = some ids → ids ≠ [] → node.id ∈ ids
  labelled : ∀ fields, request.labels = some (.object fields) →
    ∀ field ∈ fields, SatisfiesKey node.labels field.1 field.2
  notBuildOnly : nodeRole node ≠ some builderNodeRole
  dedicated : nodeRole node = some dedicatedNodeRole →
    ∃ ids, request.targetNodeIds = some ids ∧ node.id ∈ ids
  granted : ∀ slug, request.projectSlug = some slug → slug ∈ c.dockerSocketGrant →
    ∃ row ∈ reads.granting.rows, row.id = node.id ∧ slug ∈ row.dockerSocketProjects
  runs : request.imagePlatforms ≠ [] → ∀ platform, node.architecture = some platform →
    ∃ image ∈ request.imagePlatforms, c.platformsMatch image platform = true

structure LocalEligible (c : NodeScheduler L) (request : ReplicaPlacementRequest) : Prop where
  wanted : request.excludeControlPlane = false
  enabled : c.localWorkloadsEnabled = true
  runs : request.imagePlatforms ≠ [] → ∀ platform, c.localPlatform = some platform →
    ∃ image ∈ request.imagePlatforms, c.platformsMatch image platform = true
  unlabelled : ∀ fields, request.labels = some (.object fields) → fields = []
  pinned : ∀ ids, request.targetNodeIds = some ids → ids ≠ [] → controlPlaneNodeId ∈ ids

theorem targets_eq_some {ids : List ℤ} :
    request.targets = some ids ↔ request.targetNodeIds = some ids ∧ ids ≠ [] := by
  rw [ReplicaPlacementRequest.targets, placementNodeIds]
  simp

theorem selectorMap_eq_some {fields : List (String × Value)} :
    request.selectorMap = some fields ↔ request.labels = some (.object fields) := by
  rw [ReplicaPlacementRequest.selectorMap, Option.bind_eq_some_iff]
  constructor
  · rintro ⟨v, hv, hfields⟩
    cases v <;> cases hfields
    exact hv
  · exact fun h ↦ ⟨_, h, rfl⟩

theorem mem_listActive : node ∈ listActive c reads ↔
    node ∈ reads.nodes.rows ∧ node.status = .active ∧
      ∃ beat, node.lastHeartbeat = some beat ∧ reads.now - c.heartbeatThresholdSecs ≤ beat := by
  rw [listActive, mem_filter, Bool.and_eq_true, beq_iff_eq, Option.any_eq_true]
  simp only [decide_eq_true_eq]

theorem mem_pinnedNodes : node ∈ pinnedNodes c reads request ↔ node ∈ listActive c reads ∧
    ∀ ids, request.targetNodeIds = some ids → ids ≠ [] → node.id ∈ ids := by
  have hpinned : (∀ ids, request.targetNodeIds = some ids → ids ≠ [] → node.id ∈ ids) ↔
      ∀ ids, request.targets = some ids → node.id ∈ ids :=
    forall_congr' fun ids ↦ by rw [targets_eq_some, and_imp]
  rw [hpinned, pinnedNodes]
  cases request.targets with
  | none => simp
  | some ids => simp

theorem hasLabelConstraints_eq_true : request.hasLabelConstraints ↔
    ∃ fields, request.labels = some (.object fields) ∧ fields ≠ [] := by
  rw [ReplicaPlacementRequest.hasLabelConstraints, Option.any_eq_true]
  simp only [selectorMap_eq_some, Bool.not_eq_true', isEmpty_eq_false_iff]

theorem mem_labelledNodes : node ∈ labelledNodes c reads request ↔
    node ∈ pinnedNodes c reads request ∧ ∀ fields, request.labels = some (.object fields) →
      ∀ field ∈ fields, SatisfiesKey node.labels field.1 field.2 := by
  by_cases hlabels : request.hasLabelConstraints
  · obtain ⟨fields, hfields, -⟩ := hasLabelConstraints_eq_true.mp hlabels
    simp only [labelledNodes, hfields, hlabels, if_true, mem_filter, nodeMatchesLabels_iff,
      Option.some.injEq, Value.object.injEq, forall_eq']
  · -- an empty selector asks for nothing
    have hfree : ∀ fields, request.labels = some (.object fields) → fields = [] := by
      intro fields hfields
      by_contra hne
      exact hlabels (hasLabelConstraints_eq_true.mpr ⟨fields, hfields, hne⟩)
    have hsame : labelledNodes c reads request = pinnedNodes c reads request := by
      rw [labelledNodes]
      split
      · rw [if_neg hlabels]
      · rfl
    rw [hsame]
    refine ⟨fun h ↦ ⟨h, fun fields hfields field hfield ↦ ?_⟩, And.left⟩
    rw [hfree fields hfields] at hfield
    cases hfield

theorem mem_roleScreening : node ∈ (roleScreening c reads request).nodes ↔
    node ∈ labelledNodes c reads request ∧ nodeRole node ≠ some builderNodeRole ∧
      (nodeRole node = some dedicatedNodeRole →
        ∃ ids, request.targetNodeIds = some ids ∧ node.id ∈ ids) := by
  have hadmits : dedicatedNodeAdmits request.targets node ↔
      (nodeRole node = some dedicatedNodeRole →
        ∃ ids, request.targetNodeIds = some ids ∧ node.id ∈ ids) := by
    rw [dedicatedNodeAdmits, Bool.or_eq_true, Bool.not_eq_true', isDedicatedNode,
      beq_eq_false_iff_ne, Option.any_eq_true, ← imp_iff_not_or]
    refine imp_congr_right fun _ ↦ exists_congr fun ids ↦ ?_
    rw [targets_eq_some, contains_iff_mem, and_assoc]
    exact and_congr_right fun _ ↦ ⟨And.right, fun h ↦ ⟨ne_nil_of_mem h, h⟩⟩
  simp only [roleScreening, Screening.retain, mem_filter, hadmits, isBuildOnlyNode,
    Bool.not_eq_true', beq_eq_false_iff_ne, and_assoc]

theorem resolveDockerSocketGate_eq_some {gate : DockerSocketGate} :
    resolveDockerSocketGate c reads request = some gate ↔
      ∃ slug, request.projectSlug = some slug ∧ slug ∈ c.dockerSocketGrant ∧
        dockerSocketGate slug (grantingNodeIdsAndNames reads slug) = gate := by
  rw [resolveDockerSocketGate, Option.map_eq_some_iff]
  simp only [Option.filter_eq_some_iff, contains_iff_mem, and_assoc]

theorem granting_contains {slug : String} {id : ℤ} :
    (dockerSocketGate slug (grantingNodeIdsAndNames reads slug)).grantingNodeIds.contains id ↔
      ∃ row ∈ reads.granting.rows, row.id = id ∧ slug ∈ row.dockerSocketProjects := by
  rw [contains_iff_mem, dockerSocketGate, grantingNodeIdsAndNames, map_map, mem_map]
  simp only [mem_filter, contains_iff_mem, Function.comp_apply]
  exact exists_congr fun row ↦ by rw [and_assoc, and_comm (a := row.id = id)]

theorem localGrantsSocket_eq : localGrantsSocket c reads request := by
  rw [localGrantsSocket, Option.all_eq_true]
  intro gate hgate
  obtain ⟨slug, -, hslug, rfl⟩ := resolveDockerSocketGate_eq_some.mp hgate
  exact contains_iff_mem.mpr hslug

theorem mem_socketScreening : node ∈ (socketScreening c reads request).nodes ↔
    node ∈ (roleScreening c reads request).nodes ∧
      ∀ slug, request.projectSlug = some slug → slug ∈ c.dockerSocketGrant →
        ∃ row ∈ reads.granting.rows, row.id = node.id ∧ slug ∈ row.dockerSocketProjects := by
  rw [socketScreening]
  cases hgate : resolveDockerSocketGate c reads request with
  | none =>
    refine ⟨fun h ↦ ⟨h, fun slug hslug hdeclared ↦ ?_⟩, And.left⟩
    rw [resolveDockerSocketGate_eq_some.mpr ⟨slug, hslug, hdeclared, rfl⟩] at hgate
    cases hgate
  | some gate =>
    obtain ⟨slug, hslug, hdeclared, rfl⟩ := resolveDockerSocketGate_eq_some.mp hgate
    simp only [Screening.retain, mem_filter, granting_contains]
    refine and_congr_right fun _ ↦ ⟨fun h slug' hslug' _ ↦ ?_, fun h ↦ h slug hslug hdeclared⟩
    rw [hslug, Option.some.injEq] at hslug'
    exact hslug' ▸ h

theorem platformCompatible_eq_true {platform : String} : platformCompatible c request platform ↔
    ∃ image ∈ request.imagePlatforms, c.platformsMatch image platform := any_eq_true

theorem mem_screening : node ∈ eligibleNodes c reads request ↔
    node ∈ (socketScreening c reads request).nodes ∧
      (request.imagePlatforms ≠ [] → ∀ platform, node.architecture = some platform →
        ∃ image ∈ request.imagePlatforms, c.platformsMatch image platform) := by
  rw [eligibleNodes, screening]
  by_cases himages : request.imagePlatforms = []
  · rw [if_pos (List.isEmpty_iff.mpr himages)]
    exact ⟨fun h ↦ ⟨h, absurd himages⟩, And.left⟩
  · rw [if_neg (mt List.isEmpty_iff.mp himages), mem_filter, architectureAdmits, Option.all_eq_true]
    simp only [platformCompatible_eq_true, himages, ne_eq, not_false_eq_true, true_imp_iff]

theorem mem_eligibleNodes :
    node ∈ eligibleNodes c reads request ↔ Eligible c reads request node := by
  rw [mem_screening, mem_socketScreening, mem_roleScreening, mem_labelledNodes, mem_pinnedNodes,
    mem_listActive]
  constructor
  · rintro ⟨⟨⟨⟨⟨⟨hlisted, hactive, hbeat⟩, hpinned⟩, hlabels⟩, hbuild, hdedicated⟩, hgranted⟩, hruns⟩
    exact ⟨hlisted, hactive, hbeat, hpinned, hlabels, hbuild, hdedicated, hgranted, hruns⟩
  · intro h
    exact ⟨⟨⟨⟨⟨⟨h.listed, h.active, h.beating⟩, h.pinned⟩, h.labelled⟩, h.notBuildOnly, h.dedicated⟩,
      h.granted⟩, h.runs⟩

theorem Screening.retain_sublist {keep : Node L → Bool} {reason : ExclusionReason}
    {s : Screening L} : (s.retain keep reason).nodes.Sublist s.nodes := filter_sublist

theorem pinnedNodes_sublist : (pinnedNodes c reads request).Sublist reads.nodes.rows := by
  have hactive : (listActive c reads).Sublist reads.nodes.rows := filter_sublist
  rw [pinnedNodes]
  split
  · exact filter_sublist.trans hactive
  · exact hactive

theorem labelledNodes_sublist : (labelledNodes c reads request).Sublist reads.nodes.rows := by
  fun_cases labelledNodes c reads request
  case case1 => exact filter_sublist.trans pinnedNodes_sublist
  all_goals exact pinnedNodes_sublist

theorem socketScreening_sublist :
    (socketScreening c reads request).nodes.Sublist reads.nodes.rows := by
  have hroles : (roleScreening c reads request).nodes.Sublist reads.nodes.rows :=
    (Screening.retain_sublist.trans Screening.retain_sublist).trans labelledNodes_sublist
  rw [socketScreening]
  split
  · exact Screening.retain_sublist.trans hroles
  · exact hroles

theorem eligibleNodes_sublist : (eligibleNodes c reads request).Sublist reads.nodes.rows := by
  rw [eligibleNodes, screening]
  split
  · exact socketScreening_sublist
  · exact filter_sublist.trans socketScreening_sublist

theorem eligibleNodes_ids : ((eligibleNodes c reads request).map Node.id).Nodup :=
  reads.nodes.ids.sublist (eligibleNodes_sublist.map Node.id)

theorem localSupports_eq_true : localSupports c request ↔
    (request.imagePlatforms ≠ [] → ∀ platform, c.localPlatform = some platform →
      ∃ image ∈ request.imagePlatforms, c.platformsMatch image platform) := by
  rw [localSupports, Bool.or_eq_true, List.isEmpty_iff, Option.all_eq_true, or_iff_not_imp_left]
  simp only [platformCompatible_eq_true]

theorem localMatchesConstraints_eq_true : localMatchesConstraints request ↔
    (∀ fields, request.labels = some (.object fields) → fields = []) ∧
      ∀ ids, request.targetNodeIds = some ids → ids ≠ [] → controlPlaneNodeId ∈ ids := by
  rw [localMatchesConstraints, Bool.and_eq_true, Bool.not_eq_true', ← Bool.not_eq_true,
    hasLabelConstraints_eq_true]
  refine and_congr (by simp) ?_
  rw [Bool.or_eq_true, ReplicaPlacementRequest.targetsControlPlane]
  constructor
  · rintro (hfree | htarget) ids hids hne
    · rw [targets_eq_some.mpr ⟨hids, hne⟩] at hfree
      cases hfree
    · rw [targets_eq_some.mpr ⟨hids, hne⟩] at htarget
      exact contains_iff_mem.mp htarget
  · intro h
    cases htargets : request.targets with
    | none => exact .inl rfl
    | some ids =>
      obtain ⟨hids, hne⟩ := targets_eq_some.mp htargets
      exact .inr (contains_iff_mem.mpr (h ids hids hne))

theorem includeLocal_iff : includeLocal c reads request ↔ LocalEligible c request := by
  simp only [includeLocal, Bool.and_eq_true, Bool.not_eq_true', localSupports_eq_true,
    localMatchesConstraints_eq_true, localGrantsSocket_eq, and_true]
  constructor
  · rintro ⟨⟨⟨hwanted, henabled⟩, hruns⟩, hlabels, hpinned⟩
    exact ⟨hwanted, henabled, hruns, hlabels, hpinned⟩
  · exact fun h ↦ ⟨⟨⟨h.wanted, h.enabled⟩, h.runs⟩, h.unlabelled, h.pinned⟩

end Temps.Deployments
