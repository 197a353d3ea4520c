import Mathlib.Data.List.DropRight
import Mathlib.Data.List.Sort
import Temps.Lib.Rounds

namespace Temps.Deployments

/-- A JSON value; a number is kept as its text, the keys of an object in their order. -/
inductive Value where
  | null
  | bool (b : Bool)
  | number (text : String)
  | string (text : String)
  | array (items : List Value)
  | object (fields : List (String × Value))

namespace Value

def asObject : Value → Option (List (String × Value))
  | object fields => some fields
  | _ => none

def asArray : Value → Option (List Value)
  | array items => some items
  | _ => none

def asStr : Value → Option String
  | string text => some text
  | _ => none

def get (v : Value) (key : String) : Option Value :=
  v.asObject.bind fun fields ↦ (fields.find? fun field ↦ field.1 == key).map Prod.snd

def hexDigit (n : ℕ) : Char := Char.ofNat (if n < 10 then 48 + n else 87 + n)

def escape (c : Char) : List Char :=
  match c with
  | '"' => ['\\', '"']
  | '\\' => ['\\', '\\']
  | '\n' => ['\\', 'n']
  | '\r' => ['\\', 'r']
  | '\t' => ['\\', 't']
  | c =>
    if c.toNat = 8 then ['\\', 'b']
    else if c.toNat = 12 then ['\\', 'f']
    else if c.toNat < 32 then
      ['\\', 'u', '0', '0', hexDigit (c.toNat / 16), hexDigit (c.toNat % 16)]
    else [c]

def quoted (text : String) : List Char := '"' :: text.toList.flatMap escape ++ ['"']

mutual

def render : Value → List Char
  | null => "null".toList
  | bool b => (if b then "true" else "false").toList
  | number text => text.toList
  | string text => quoted text
  | array items => '[' :: renderItems items ++ [']']
  | object fields => '\x7b' :: renderFields fields ++ ['\x7d']

def renderItems : List Value → List Char
  | [] => []
  | [v] => render v
  | v :: w :: rest => render v ++ ',' :: renderItems (w :: rest)

def renderFields : List (String × Value) → List Char
  | [] => []
  | [(key, v)] => quoted key ++ ':' :: render v
  | (key, v) :: field :: rest => quoted key ++ ':' :: render v ++ ',' :: renderFields (field :: rest)

end

end Value

/-- `trim_matches('"')`. -/
def trimQuotes (text : List Char) : List Char := (text.dropWhile (· = '"')).rdropWhile (· = '"')

def valuesMatch : Value → Value → Bool
  | .string a, .string b => a == b
  | nodeValue, requiredValue => trimQuotes nodeValue.render == trimQuotes requiredValue.render

def keyMatches (nodeValue requiredValue : Value) : Bool :=
  match requiredValue.asArray with
  | some requiredValues => requiredValues.any (valuesMatch nodeValue)
  | none => valuesMatch nodeValue requiredValue

def nodeMatchesLabels (nodeLabels selector : Value) : Bool :=
  match selector.asObject with
  | none => false
  | some selectorMap =>
    match nodeLabels.asObject with
    | none => selectorMap.isEmpty
    | some _ =>
      selectorMap.all fun (key, requiredValue) ↦
        match nodeLabels.get key with
        | none => false
        | some nodeValue => keyMatches nodeValue requiredValue

/-- The labels of a node have the key, with a value that the selector asks for. -/
def SatisfiesKey (nodeLabels : Value) (key : String) (requiredValue : Value) : Prop :=
  ∃ nodeValue, nodeLabels.get key = some nodeValue ∧ keyMatches nodeValue requiredValue = true

theorem nodeMatchesLabels_iff {nodeLabels : Value} {fields : List (String × Value)} :
    nodeMatchesLabels nodeLabels (.object fields) ↔
      ∀ field ∈ fields, SatisfiesKey nodeLabels field.1 field.2 := by
  rw [nodeMatchesLabels, Value.asObject]
  cases hlabels : nodeLabels.asObject with
  | none =>
    -- without labels no key is found
    have hunmet : ∀ field : String × Value, ¬ SatisfiesKey nodeLabels field.1 field.2 := by
      rintro field ⟨_, hget, -⟩
      rw [Value.get, hlabels, Option.bind_none] at hget
      cases hget
    cases fields with
    | nil => simp
    | cons field rest => simpa using fun h ↦ absurd h (hunmet field)
  | some _ =>
    rw [List.all_eq_true]
    refine forall₂_congr fun field _ ↦ ?_
    unfold SatisfiesKey
    cases hget : nodeLabels.get field.1 <;> simp [hget]

open Lib.Rounds

inductive NodeStatus where
  | pending
  | active
  | offline
  | draining
  deriving DecidableEq

def NodeStatus.asStr : NodeStatus → String
  | pending => "pending"
  | active => "active"
  | offline => "offline"
  | draining => "draining"

/-- A row of `nodes`. The load score and the projects with host Docker access are what
`compute_load_score` and `capacity_grants` read from its capacity report. -/
structure Node (L : Type) where
  id : ℤ
  name : String
  address : String
  dataAddress : String
  status : NodeStatus
  lastHeartbeat : Option ℤ
  labels : Value
  architecture : Option String
  loadScore : Option L
  dockerSocketProjects : List String

structure NodeTable (L : Type) where
  rows : List (Node L)
  ids : (rows.map Node.id).Nodup

def nodeRoleLabel : String := "temps.sh/role"

def builderNodeRole : String := "builder"

def dedicatedNodeRole : String := "dedicated"

def controlPlaneNodeId : ℤ := 0

inductive NodeAssignment where
  | localDaemon
  | remote (nodeId : ℤ) (nodeName address privateAddress : String) (platform : Option String)
  deriving DecidableEq

def NodeAssignment.nodeId : NodeAssignment → Option ℤ
  | localDaemon => none
  | remote nodeId .. => some nodeId

inductive ExclusionReason where
  | incompatibleArchitecture (nodePlatform : String) (imagePlatforms : List String)
  | unverifiedArchitecture
  | dockerSocketNotGranted (projectSlug : String)
  | buildOnlyNode
  | dedicatedNode
  | targetNodeMissing
  | targetNodeUnavailable (state : String)
  deriving DecidableEq

def ExclusionReason.text : ExclusionReason → String
  | incompatibleArchitecture nodePlatform imagePlatforms =>
    "runs " ++ nodePlatform ++ ", and this deployment only has images for [" ++
      ", ".intercalate imagePlatforms ++ "]"
  | unverifiedArchitecture =>
    "has not reported its architecture, so image compatibility could not be verified — " ++
      "upgrade the node agent"
  | dockerSocketNotGranted projectSlug =>
    "does not grant project '" ++ projectSlug ++ "' host Docker access — set " ++
      "TEMPS_DOCKER_SOCKET_PROJECTS=" ++ projectSlug ++ " on that host and restart its agent, " ++
      "or remove the grant everywhere to deploy without the socket"
  | buildOnlyNode =>
    "is a build-only node (" ++ nodeRoleLabel ++ "=" ++ builderNodeRole ++
      ") and never hosts application replicas"
  | dedicatedNode =>
    "is dedicated (" ++ nodeRoleLabel ++ "=" ++ dedicatedNodeRole ++
      ") and only runs environments that pin it in target_nodes"
  | targetNodeMissing =>
    "is listed in target_nodes but does not exist (it was removed; a machine that rejoins gets " ++
      "a new node ID) — update the environment's target nodes"
  | targetNodeUnavailable state =>
    "is listed in target_nodes but is " ++ state ++ ", so it cannot take replicas right now"

/-- A node that was dropped, or kept without being verified. -/
structure NodeExclusion where
  nodeId : ℤ
  nodeName : String
  reason : ExclusionReason
  excluded : Bool
  deriving DecidableEq

def NodeExclusion.text (e : NodeExclusion) : String := "'" ++ e.nodeName ++ "' " ++ e.reason.text

inductive NodeError where
  | validation (message : String)
  | dockerSocketNotSchedulable (projectSlug reason : String)
  | localWorkloadsDisabled (requestedReplicas : ℕ)
  | dedicatedNodesNotPinned (excluded : String)
  | placementConstraintsUnsatisfied (excluded : String)
  | insufficientCompatibleNodes (replicas available : ℕ) (cause excluded : String)
  | noCompatibleNode (imagePlatforms localPlatform : String)
  deriving DecidableEq

structure DockerSocketGate where
  projectSlug : String
  grantingNodeIds : List ℤ
  grantingNodeNames : List String

structure ReplicaPlacementRequest where
  replicaCount : ℕ
  labels : Option Value
  targetNodeIds : Option (List ℤ)
  antiAffinity : Bool
  excludeNodeIds : List ℤ
  imagePlatforms : List String
  projectSlug : Option String
  excludeControlPlane : Bool

structure SchedulingOutcome where
  assignments : List NodeAssignment
  exclusions : List NodeExclusion
  dockerSocketRequired : Bool
  warnings : List String

inductive SchedulingStrategy where
  | roundRobin
  | leastLoaded
  deriving DecidableEq

/-- What the scheduler does with load scores: `<`, `partial_cmp`, the neutral `0.5`, and the
addition of one replica's share of a pool of the given size. -/
structure Scores (L : Type) where
  lt : L → L → Bool
  partialCmp : L → L → Option Ordering
  neutral : L
  bump : ℕ → L → L

/-- The settings of a scheduler; `localPlatform` is the platform the control plane has confirmed. -/
structure NodeScheduler (L : Type) where
  strategy : SchedulingStrategy
  heartbeatThresholdSecs : ℤ
  maxLoadThreshold : L
  scores : Scores L
  platformsMatch : String → String → Bool
  localWorkloadsEnabled : Bool
  localPlatform : Option String
  dockerSocketGrant : List String

/-- What one placement reads: the rows of `list_active`, those of `list_all` unless that read fails,
and those of `granting_node_ids_and_names`, each at its own moment and in the order they come; and
the values of the shared counter that its replicas draw. -/
structure Reads (L : Type) where
  now : ℤ
  nodes : NodeTable L
  known : Option (NodeTable L)
  granting : NodeTable L
  counter : ℕ → ℕ

variable {L : Type}

def nodeRole (node : Node L) : Option String := (node.labels.get nodeRoleLabel).bind Value.asStr

def isBuildOnlyNode (node : Node L) : Bool := nodeRole node == some builderNodeRole

def isDedicatedNode (node : Node L) : Bool := nodeRole node == some dedicatedNodeRole

def dedicatedNodeAdmits (targetNodeIds : Option (List ℤ)) (node : Node L) : Bool :=
  !isDedicatedNode node || targetNodeIds.any (·.contains node.id)

def placementNodeIds (targetNodeIds : Option (List ℤ)) : Option (List ℤ) :=
  targetNodeIds.filter (!·.isEmpty)

def Node.exclusion (reason : ExclusionReason) (node : Node L) : NodeExclusion where
  nodeId := node.id
  nodeName := node.name
  reason := reason
  excluded := true

structure Screening (L : Type) where
  nodes : List (Node L)
  exclusions : List NodeExclusion

def Screening.retain (keep : Node L → Bool) (reason : ExclusionReason) (s : Screening L) :
    Screening L where
  nodes := s.nodes.filter keep
  exclusions := s.exclusions ++ (s.nodes.filter (!keep ·)).map (Node.exclusion reason)

section Filters

variable (c : NodeScheduler L) (reads : Reads L) (request : ReplicaPlacementRequest)

def ReplicaPlacementRequest.targets : Option (List ℤ) := placementNodeIds request.targetNodeIds

def ReplicaPlacementRequest.targetsControlPlane : Bool :=
  request.targets.any (·.contains controlPlaneNodeId)

def ReplicaPlacementRequest.selectorMap : Option (List (String × Value)) :=
  request.labels.bind Value.asObject

def ReplicaPlacementRequest.hasLabelConstraints : Bool := request.selectorMap.any (!·.isEmpty)

def listActive : List (Node L) :=
  reads.nodes.rows.filter fun node ↦
    node.status == .active &&
      node.lastHeartbeat.any fun beat ↦ reads.now - c.heartbeatThresholdSecs ≤ beat

def pinnedNodes : List (Node L) :=
  match request.targets with
  | some ids => (listActive c reads).filter fun node ↦ ids.contains node.id
  | none => listActive c reads

def inactiveTargetIds : List ℤ :=
  (((request.targets.getD []).filter fun id ↦
    id ≠ controlPlaneNodeId && !(pinnedNodes c reads request).any (·.id == id)).dedup).insertionSort
      (· ≤ ·)

def inactiveTarget (id : ℤ) : NodeExclusion :=
  match reads.known with
  | none => ⟨id, "node " ++ toString id, .targetNodeUnavailable "not an active node", true⟩
  | some table =>
    match table.rows.find? (·.id == id) with
    | some node =>
      node.exclusion (.targetNodeUnavailable
        (if node.status = .active then
          "not sending heartbeats (none in the last " ++ toString c.heartbeatThresholdSecs ++ "s)"
        else node.status.asStr))
    | none => ⟨id, "node " ++ toString id, .targetNodeMissing, true⟩

def labelledNodes : List (Node L) :=
  match request.labels with
  | some selector =>
    if request.hasLabelConstraints then
      (pinnedNodes c reads request).filter fun node ↦ nodeMatchesLabels node.labels selector
    else pinnedNodes c reads request
  | none => pinnedNodes c reads request

def roleScreening : Screening L :=
  (((⟨labelledNodes c reads request,
      (inactiveTargetIds c reads request).map (inactiveTarget c reads)⟩ : Screening L).retain
    (!isBuildOnlyNode ·) .buildOnlyNode).retain
      (dedicatedNodeAdmits request.targets) .dedicatedNode)

def grantingNodeIdsAndNames (projectSlug : String) : List (ℤ × String) :=
  (reads.granting.rows.filter fun node ↦ node.dockerSocketProjects.contains projectSlug).map
    fun node ↦ (node.id, node.name)

def dockerSocketGate (projectSlug : String) (grantingNodes : List (ℤ × String)) :
    DockerSocketGate :=
  ⟨projectSlug, grantingNodes.map Prod.fst, grantingNodes.map Prod.snd⟩

def resolveDockerSocketGate : Option DockerSocketGate :=
  (request.projectSlug.filter c.dockerSocketGrant.contains).map fun slug ↦
    dockerSocketGate slug (grantingNodeIdsAndNames reads slug)

def localGrantsSocket : Bool :=
  (resolveDockerSocketGate c reads request).all fun gate ↦
    c.dockerSocketGrant.contains gate.projectSlug

def socketScreening : Screening L :=
  match resolveDockerSocketGate c reads request with
  | some gate =>
    (roleScreening c reads request).retain (fun node ↦ gate.grantingNodeIds.contains node.id)
      (.dockerSocketNotGranted gate.projectSlug)
  | none => roleScreening c reads request

def platformCompatible (platform : String) : Bool :=
  request.imagePlatforms.any fun image ↦ c.platformsMatch image platform

def architectureAdmits (node : Node L) : Bool :=
  node.architecture.all (platformCompatible c request)

def architectureExclusion (node : Node L) : Option NodeExclusion :=
  match node.architecture with
  | some platform =>
    if platformCompatible c request platform then none
    else some (node.exclusion (.incompatibleArchitecture platform request.imagePlatforms))
  | none => some { node.exclusion .unverifiedArchitecture with excluded := false }

def screening : Screening L :=
  let s := socketScreening c reads request
  if request.imagePlatforms.isEmpty then s
  else
    { nodes := s.nodes.filter (architectureAdmits c request)
      exclusions := s.exclusions ++ s.nodes.filterMap (architectureExclusion c request) }

def eligibleNodes : List (Node L) := (screening c reads request).nodes

def localSupports : Bool :=
  request.imagePlatforms.isEmpty || c.localPlatform.all (platformCompatible c request)

def localMatchesConstraints : Bool :=
  !request.hasLabelConstraints && (request.targets.isNone || request.targetsControlPlane)

def includeLocal : Bool :=
  !request.excludeControlPlane && c.localWorkloadsEnabled && localSupports c request &&
    localMatchesConstraints request && localGrantsSocket c reads request

def hardExclusions : List NodeExclusion :=
  (screening c reads request).exclusions.filter (·.excluded)

def shortfallExclusions : List NodeExclusion :=
  (hardExclusions c reads request).filter fun e ↦
    match e.reason with
    | .dedicatedNode | .targetNodeUnavailable _ => false
    | _ => true

end Filters

def exclusionCause (exclusions : List NodeExclusion) : String :=
  let architecture := exclusions.any (·.reason matches .incompatibleArchitecture ..)
  let dockerSocket := exclusions.any (·.reason matches .dockerSocketNotGranted _)
  let buildOnly := exclusions.any (·.reason matches .buildOnlyNode)
  let missingTarget := exclusions.any (·.reason matches .targetNodeMissing)
  if missingTarget then
    if architecture || dockerSocket || buildOnly then
      "some are listed in target_nodes but no longer exist, and others cannot run it"
    else "they are listed in target_nodes but no longer exist"
  else if buildOnly && !architecture && !dockerSocket then
    "they are build-only nodes (temps.sh/role=builder), which never host replicas"
  else
    match architecture, dockerSocket with
    | true, true =>
      "some nodes have no image for their architecture and others do not grant this project " ++
        "host Docker access (ADR 045)"
    | true, false => "there is no image for their architecture"
    | false, true => "they do not grant this project host Docker access (ADR 045)"
    | false, false => "they were dropped from the scheduling pool"

def antiAffinityWarnings (antiAffinity : Bool) (assignments : List NodeAssignment) : List String :=
  let distinct := (assignments.map NodeAssignment.nodeId).dedup
  if !antiAffinity || assignments.length < 2 || assignments.length ≤ distinct.length then []
  else
    ["anti-affinity is on, but " ++ toString assignments.length ++ " replicas share " ++
      toString distinct.length ++ " node(s): not enough eligible nodes for one replica each. " ++
      "Add an eligible node, lower the replica count, or check the skipped nodes above"]

/-- `load_score` is absent when no capacity data is available. -/
structure PoolEntry (L : Type) where
  assignment : NodeAssignment
  loadScore : Option L

def Node.assignment (node : Node L) : NodeAssignment :=
  .remote node.id node.name node.address node.dataAddress node.architecture

def fullPool (includeLocal : Bool) (eligible : List (Node L)) : List (PoolEntry L) :=
  (if includeLocal then [⟨.localDaemon, none⟩] else []) ++
    eligible.map fun node ↦ ⟨node.assignment, node.loadScore⟩

def loadPool (c : NodeScheduler L) (pool : List (PoolEntry L)) : List (PoolEntry L) :=
  let underThreshold := pool.filter fun e ↦ e.loadScore.all fun score ↦
    c.scores.lt score c.maxLoadThreshold
  if underThreshold.isEmpty then pool else underThreshold

/-- The entries that do not already host the environment; if there is none, the pool is built anew
from every eligible node. -/
def spreadPool (request : ReplicaPlacementRequest) (rebuilt pool : List (PoolEntry L)) :
    List (PoolEntry L) :=
  if request.antiAffinity && !request.excludeNodeIds.isEmpty then
    let filtered := pool.filter fun e ↦ e.assignment.nodeId.all (!request.excludeNodeIds.contains ·)
    if filtered.isEmpty then rebuilt else filtered
  else pool

section Strategies

variable (sc : Scores L)

/-- The order in which `min_by` compares scores that may not be comparable. -/
def Scores.order (a b : L × ℕ) : Ordering := (sc.partialCmp a.1 b.1).getD .eq

def scheduleRoundRobin (counter : ℕ → ℕ) (size replicaCount : ℕ) : List ℕ :=
  (List.range replicaCount).map fun i ↦ counter i % size

def scheduleLeastLoadedFrom (size : ℕ) : ℕ → List L → List ℕ
  | 0, _ => []
  | n + 1, scores =>
    let best := ((minBy sc.order scores.zipIdx).map Prod.snd).getD 0
    best :: scheduleLeastLoadedFrom size n (scores.modify best (sc.bump size))

def poolScores (pool : List (PoolEntry L)) : List L := pool.map (·.loadScore.getD sc.neutral)

def scheduleLeastLoaded (pool : List (PoolEntry L)) (replicaCount : ℕ) : List ℕ :=
  scheduleLeastLoadedFrom sc pool.length replicaCount (poolScores sc pool)

def scheduleAntiAffinityRoundRobin (size replicaCount : ℕ) : List ℕ :=
  (List.range replicaCount).map (· % size)

def scheduleAntiAffinityLeastLoadedFrom (size : ℕ) : ℕ → List L → Finset ℕ → ℕ → List ℕ
  | 0, _, _, _ => []
  | n + 1, scores, usedInRound, usedCount =>
    let used := if size ≤ usedCount then ∅ else usedInRound
    let count := if size ≤ usedCount then 0 else usedCount
    let best := ((minBy sc.order (scores.zipIdx.filter (·.2 ∉ used))).map Prod.snd).getD 0
    best :: scheduleAntiAffinityLeastLoadedFrom size n (scores.modify best (sc.bump size))
      (insert best used) (count + 1)

def scheduleAntiAffinityLeastLoaded (pool : List (PoolEntry L)) (replicaCount : ℕ) : List ℕ :=
  scheduleAntiAffinityLeastLoadedFrom sc pool.length replicaCount (poolScores sc pool) ∅ 0

end Strategies

variable (c : NodeScheduler L) (reads : Reads L) (request : ReplicaPlacementRequest)

def schedulePlaces (pool : List (PoolEntry L)) : List ℕ :=
  let hasCapacity := pool.any (·.loadScore.isSome)
  if request.antiAffinity && 1 < pool.length then
    match c.strategy with
    | .roundRobin => scheduleAntiAffinityRoundRobin pool.length request.replicaCount
    | .leastLoaded =>
      if hasCapacity then scheduleAntiAffinityLeastLoaded c.scores pool request.replicaCount
      else scheduleAntiAffinityRoundRobin pool.length request.replicaCount
  else
    match c.strategy with
    | .roundRobin => scheduleRoundRobin reads.counter pool.length request.replicaCount
    | .leastLoaded =>
      if hasCapacity then scheduleLeastLoaded c.scores pool request.replicaCount
      else scheduleRoundRobin reads.counter pool.length request.replicaCount

def schedulingPool : List (PoolEntry L) :=
  let full := fullPool (includeLocal c reads request) (eligibleNodes c reads request)
  spreadPool request full (loadPool c full)

def distribute : List NodeAssignment :=
  pickFrom ((schedulingPool c reads request).map PoolEntry.assignment)
    (schedulePlaces c reads request (schedulingPool c reads request))

def socketRefusal : Option NodeError :=
  (resolveDockerSocketGate c reads request).bind fun gate ↦
    if (socketScreening c reads request).nodes.isEmpty &&
        !(c.localWorkloadsEnabled && localGrantsSocket c reads request) then
      some (.dockerSocketNotSchedulable gate.projectSlug
        (if gate.grantingNodeNames.isEmpty then
          "only this control plane grants it, and this control plane cannot host the workload " ++
            "(local workloads are disabled, or the requested placement excludes it)"
        else
          "the only host(s) that grant it (" ++ ", ".intercalate gate.grantingNodeNames ++
            ") are not schedulable right now — inactive, draining, dedicated to environments " ++
            "that pin them, or excluded by the requested node/label placement"))
    else none

def SchedulingOutcome.of (assignments : List NodeAssignment) : SchedulingOutcome where
  assignments := assignments
  exclusions := (screening c reads request).exclusions
  dockerSocketRequired := (resolveDockerSocketGate c reads request).isSome
  warnings := antiAffinityWarnings request.antiAffinity assignments

def schedulePlacement : Except NodeError SchedulingOutcome :=
  let eligible := eligibleNodes c reads request
  let hosted := includeLocal c reads request
  let hard := hardExclusions c reads request
  let shortfall := shortfallExclusions c reads request
  let compatibleSlots := hosted.toNat + eligible.length
  if request.labels.any (·.asObject.isNone) then
    .error (.validation "target_labels must be a JSON object")
  else
    match socketRefusal c reads request with
    | some refusal => .error refusal
    | none =>
      if request.targetsControlPlane && !c.localWorkloadsEnabled then
        .error (.localWorkloadsDisabled request.replicaCount)
      else if eligible.isEmpty && !hosted && hard.any (·.reason = .dedicatedNode) then
        .error (.dedicatedNodesNotPinned ("; ".intercalate (hard.map fun e ↦
          "node " ++ toString e.nodeId ++ " (" ++ e.nodeName ++ ") " ++ e.reason.text)))
      else if (request.targets.isSome || request.hasLabelConstraints) && eligible.isEmpty &&
          !hosted then
        .error (.placementConstraintsUnsatisfied
          (if hard.isEmpty then "no active node matched the requested node IDs or labels"
          else "; ".intercalate (hard.map NodeExclusion.text)))
      else if request.antiAffinity && !shortfall.isEmpty && compatibleSlots < request.replicaCount
          then
        .error (.insufficientCompatibleNodes request.replicaCount compatibleSlots
          (exclusionCause shortfall) ("; ".intercalate (shortfall.map NodeExclusion.text)))
      else if eligible.isEmpty then
        if !c.localWorkloadsEnabled then .error (.localWorkloadsDisabled request.replicaCount)
        else if !hosted then
          .error (.noCompatibleNode (", ".intercalate request.imagePlatforms)
            (c.localPlatform.getD "unknown"))
        else .ok (.of c reads request (List.replicate request.replicaCount .localDaemon))
      else
        .ok (.of c reads request (distribute c reads request))

end Temps.Deployments
