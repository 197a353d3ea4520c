import Mathlib.Data.List.Nodup
import Temps.Lib.Timeline

namespace Temps.Otel

abbrev ProjectId := ℕ

/-- Instants of the database clock. -/
abbrev DBDateTime := ℕ

inductive CloudTelemetryFidelity
  | metered
  | queryable
deriving DecidableEq

inductive CloudTelemetryWriteMode
  | localStore
  | cloud
deriving DecidableEq

/-- The ledger maps the analytics modes one to one onto the span modes. -/
abbrev CloudAnalyticsWriteMode := CloudTelemetryWriteMode

inductive TelemetrySignalGroup
  | spans
  | analytics
deriving DecidableEq

inductive TelemetryWriteIntervalReason
  | operator
  | cloudDisconnected
  | quotaExhausted
  | credentialRejected
  | cloudRecovered
deriving DecidableEq

/-- The columns of `projects` that the write modes read and write. -/
structure Project where
  id : ProjectId
  slug : String
  fidelity : CloudTelemetryFidelity
  writeMode : CloudTelemetryWriteMode
  analyticsWriteMode : CloudAnalyticsWriteMode
  attributeAllowlist : List String
  deleted : Bool
deriving DecidableEq

structure WriteInterval where
  projectId : ProjectId
  signalGroup : TelemetrySignalGroup
  mode : CloudTelemetryWriteMode
  effectiveFrom : DBDateTime
  effectiveTo : Option DBDateTime
  reason : TelemetryWriteIntervalReason
deriving DecidableEq

inductive EntityType
  | span
  | metric
deriving DecidableEq

inductive RowState
  | pending
  | spilledToLocal
deriving DecidableEq

/-- A row of `cloud_telemetry_outbox`. -/
structure OutboxRow where
  id : ℕ
  projectId : ProjectId
  entityType : EntityType
  state : RowState
deriving DecidableEq

structure Database where
  projects : List Project
  intervals : List WriteInterval
  outbox : List OutboxRow
deriving DecidableEq

inductive CloudWriteSuspension
  | none
  | quotaExhausted
  | credentialRejected
deriving DecidableEq

structure CloudLink where
  linked : Bool
  telemetryEnabled : Bool
deriving DecidableEq

structure CloudLinkSnapshot where
  linked : Bool
  telemetryEnabled : Bool
  credentialRejected : Bool
deriving DecidableEq

structure System where
  db : Database
  now : DBDateTime
  link : CloudLink
  suspension : CloudWriteSuspension
  spiller : Bool
deriving DecidableEq

inductive TelemetryWriteModeError
  | projectNotFound (projectId : ProjectId)
  | fidelityTooLow (projectId : ProjectId) (projectSlug : String)
      (fidelity : CloudTelemetryFidelity)
  | notLinked (projectId : ProjectId) (setupPath : String)
  | telemetryExportDisabled (projectId : ProjectId) (setupPath : String)
  | credentialRejected (projectId : ProjectId) (setupPath : String)
  | fidelityDowngradeBlockedByWriteMode (projectId : ProjectId) (projectSlug : String)
      (requested : CloudTelemetryFidelity)
  | fidelityDowngradeBlockedByQueuedSpans (projectId : ProjectId)
      (requested : CloudTelemetryFidelity) (queuedSpans : ℕ) (spillBlockedReason : String)
  | read (projectId : ProjectId)
  | write (projectId : ProjectId)
  | ledger
deriving DecidableEq

def cloudSetupPath : String := "/settings/cloud"

structure ProjectTelemetryWriteSettings where
  projectId : ProjectId
  projectSlug : String
  fidelity : CloudTelemetryFidelity
  writeMode : CloudTelemetryWriteMode
  attributeAllowlist : List String
  effectiveMode : CloudTelemetryWriteMode
  effectiveReason : Option TelemetryWriteIntervalReason
  analyticsWriteMode : CloudAnalyticsWriteMode
deriving DecidableEq

/-- Which database calls of an operation succeed: the read of the project row, the count of queued
spans, the transaction, and the read of the settings at the end. The query for an open interval has
no order; `found` is the place of the row that it finds. -/
structure DbCalls where
  read : Bool
  count : Bool
  write : Bool
  settings : Bool
  found : ℕ
deriving DecidableEq

namespace CloudWriteSuspension

def isSuspended : CloudWriteSuspension → Bool
  | .none => false
  | _ => true

def intervalReason : CloudWriteSuspension → TelemetryWriteIntervalReason
  | .none => .operator
  | .quotaExhausted => .quotaExhausted
  | .credentialRejected => .credentialRejected

end CloudWriteSuspension

namespace Project

def mode (project : Project) : TelemetrySignalGroup → CloudTelemetryWriteMode
  | .spans => project.writeMode
  | .analytics => project.analyticsWriteMode

def setMode (project : Project) (mode : CloudTelemetryWriteMode) : TelemetrySignalGroup → Project
  | .spans => { project with writeMode := mode }
  | .analytics => { project with analyticsWriteMode := mode }

def setFidelity (project : Project) (fidelity : CloudTelemetryFidelity)
    (allowlist : Option (List String)) : Project :=
  { project with
    fidelity := fidelity
    attributeAllowlist := allowlist.getD project.attributeAllowlist }

/-- The constraints `projects_cloud_primary_requires_queryable` and
`projects_cloud_analytics_primary_requires_queryable`. -/
def PassesChecks (project : Project) : Prop :=
  (project.writeMode ≠ .cloud ∨ project.fidelity = .queryable) ∧
    (project.analyticsWriteMode ≠ .cloud ∨ project.fidelity = .queryable)

instance (project : Project) : Decidable project.PassesChecks :=
  inferInstanceAs (Decidable (_ ∧ _))

end Project

namespace Database

/-- `UPDATE projects SET … WHERE …`, which fails when a row it writes violates a constraint. -/
def updateProjects (db : Database) (selects : Project → Bool) (f : Project → Project) :
    Option Database :=
  if ∀ project ∈ db.projects, selects project → (f project).PassesChecks then
    some { db with projects := db.projects.map fun p ↦ if selects p then f p else p }
  else none

end Database

/-- Close the open intervals of the projects and the group that disagree with the mode, then open
one for each of the projects that has none open. -/
def closeAndOpenIntervalsForGroup (now : DBDateTime) (projectIds : List ProjectId)
    (mode : CloudTelemetryWriteMode) (reason : TelemetryWriteIntervalReason)
    (group : TelemetrySignalGroup) (intervals : List WriteInterval) : List WriteInterval :=
  if projectIds = [] then intervals
  else
    let closed := intervals.map fun i ↦
      if i.projectId ∈ projectIds ∧ i.signalGroup = group ∧ i.effectiveTo = none ∧ i.mode ≠ mode
      then { i with effectiveTo := some now } else i
    let missing := projectIds.filter fun id ↦
      !closed.any fun i ↦ i.projectId = id ∧ i.signalGroup = group ∧ i.effectiveTo = none
    closed ++ missing.map fun id ↦ ⟨id, group, mode, now, none, reason⟩

def closeAndOpenIntervals (now : DBDateTime) (projectIds : List ProjectId)
    (mode : CloudTelemetryWriteMode) (reason : TelemetryWriteIntervalReason) :
    List WriteInterval → List WriteInterval :=
  closeAndOpenIntervalsForGroup now projectIds mode reason .spans

section Reads

variable (s : System) (calls : DbCalls) (projectId : ProjectId)

def projectRow : Except TelemetryWriteModeError Project :=
  if calls.read then
    match s.db.projects.find? fun p ↦ p.id = projectId ∧ p.deleted = false with
    | none => .error (.projectNotFound projectId)
    | some row => .ok row
  else .error (.read projectId)

def openIntervals : List WriteInterval :=
  s.db.intervals.filter fun i ↦ i.projectId = projectId ∧ i.effectiveTo = none

def openInterval : Option WriteInterval :=
  (openIntervals s projectId)[calls.found % (openIntervals s projectId).length]?

def settings : Except TelemetryWriteModeError ProjectTelemetryWriteSettings :=
  if calls.settings then
    match s.db.projects.find? fun p ↦ p.id = projectId ∧ p.deleted = false with
    | none => .error (.projectNotFound projectId)
    | some row =>
      let effective := match openInterval s calls projectId with
        | some interval =>
          if interval.mode ≠ row.writeMode then (interval.mode, some interval.reason)
          else (interval.mode, none)
        | none => (row.writeMode, none)
      .ok ⟨projectId, row.slug, row.fidelity, row.writeMode, row.attributeAllowlist, effective.1,
        effective.2, row.analyticsWriteMode⟩
  else .error (.read projectId)

def queuedSpanCount : ℕ :=
  s.db.outbox.countP fun row ↦
    row.entityType = .span ∧ row.projectId = projectId ∧ row.state = .pending

end Reads

section Setters

variable (s : System) (projectId : ProjectId)

/-- Write queued spans of the project back to the local store, those of them that the storage, the
outbox and the time allow: `reached`. -/
def spillProject (reached : List ℕ) : System :=
  if s.spiller then
    { s with db.outbox := s.db.outbox.map fun row ↦
      if row.entityType = .span ∧ row.state = .pending ∧ row.projectId = projectId ∧
        row.id ∈ reached then { row with state := .spilledToLocal } else row }
  else s

def gate (row : Project) (requested : CloudTelemetryWriteMode) (link : CloudLinkSnapshot) :
    Except TelemetryWriteModeError Unit :=
  if requested = .cloud then
    if row.fidelity ≠ .queryable then .error (.fidelityTooLow projectId row.slug row.fidelity)
    else if !link.linked then .error (.notLinked projectId cloudSetupPath)
    else if link.credentialRejected then .error (.credentialRejected projectId cloudSetupPath)
    else if !link.telemetryEnabled then
      .error (.telemetryExportDisabled projectId cloudSetupPath)
    else .ok ()
  else .ok ()

def persistModeAndIntervalForGroup (group : TelemetrySignalGroup)
    (mode : CloudTelemetryWriteMode) (reason : TelemetryWriteIntervalReason) : Option Database :=
  (s.db.updateProjects (·.id = projectId) (·.setMode mode group)).map fun db ↦
    { db with intervals :=
      closeAndOpenIntervalsForGroup s.now [projectId] mode reason group db.intervals }

def changeMode (group : TelemetrySignalGroup) (requested : CloudTelemetryWriteMode)
    (link : CloudLinkSnapshot) (calls : DbCalls) :
    System × Except TelemetryWriteModeError Bool :=
  match projectRow s calls projectId with
  | .error e => (s, .error e)
  | .ok row =>
    match gate projectId row requested link with
    | .error e => (s, .error e)
    | .ok () =>
      if row.mode group ≠ requested then
        if calls.write then
          match persistModeAndIntervalForGroup s projectId group requested .operator with
          | none => (s, .error (.write projectId))
          | some db => ({ s with db := db }, .ok true)
        else (s, .error (.write projectId))
      else (s, .ok false)

def setWriteMode (requested : CloudTelemetryWriteMode) (link : CloudLinkSnapshot)
    (calls : DbCalls) (reached : List ℕ) :
    System × Except TelemetryWriteModeError ProjectTelemetryWriteSettings :=
  match changeMode s projectId .spans requested link calls with
  | (s', .error e) => (s', .error e)
  | (s', .ok changed) =>
    let s'' := if changed ∧ requested ≠ .cloud then spillProject s' projectId reached else s'
    (s'', settings s'' calls projectId)

def setAnalyticsWriteMode (requested : CloudAnalyticsWriteMode) (link : CloudLinkSnapshot)
    (calls : DbCalls) : System × Except TelemetryWriteModeError CloudAnalyticsWriteMode :=
  match changeMode s projectId .analytics requested link calls with
  | (s', .error e) => (s', .error e)
  | (s', .ok _) => (s', .ok requested)

def spillBlockedReason : String :=
  if s.spiller then "the local span store did not accept them"
  else "it has no local span store wired for Temps Cloud fallback"

/-- The last statement of `setFidelity`: the row, then the settings read back. -/
def persistFidelity (requested : CloudTelemetryFidelity) (allowlist : Option (List String))
    (calls : DbCalls) : System × Except TelemetryWriteModeError ProjectTelemetryWriteSettings :=
  if calls.write then
    match s.db.updateProjects (·.id = projectId) (·.setFidelity requested allowlist) with
    | none => (s, .error (.write projectId))
    | some db =>
      let s' := { s with db := db }
      (s', settings s' calls projectId)
  else (s, .error (.write projectId))

def setFidelity (requested : CloudTelemetryFidelity) (allowlist : Option (List String))
    (calls : DbCalls) (reached : List ℕ) :
    System × Except TelemetryWriteModeError ProjectTelemetryWriteSettings :=
  match projectRow s calls projectId with
  | .error e => (s, .error e)
  | .ok row =>
    if requested ≠ .queryable ∧ row.writeMode = .cloud then
      (s, .error (.fidelityDowngradeBlockedByWriteMode projectId row.slug requested))
    else if requested ≠ .queryable ∧ row.fidelity = .queryable then
      let s' := spillProject s projectId reached
      if calls.count then
        if queuedSpanCount s' projectId > 0 then
          (s', .error (.fidelityDowngradeBlockedByQueuedSpans projectId requested
            (queuedSpanCount s' projectId) (spillBlockedReason s')))
        else persistFidelity s' projectId requested allowlist calls
      else (s', .error (.read projectId))
    else persistFidelity s projectId requested allowlist calls

end Setters

section Fallback

variable (s : System)

def declaredCloudProjects : List ProjectId :=
  (s.db.projects.filter fun p ↦ p.writeMode = .cloud).map (·.id)

/-- Move the span ledger of the declared projects. `ProjectModeRow` has a field `slug` that the
statement does not select, so a driver that insists on it makes the transaction fail. -/
def moveDeclaredCloudProjectsTo (mode : CloudTelemetryWriteMode)
    (reason : TelemetryWriteIntervalReason) (committed : Bool) :
    System × Except TelemetryWriteModeError (List ProjectId) :=
  if committed then
    let ids := declaredCloudProjects s
    let intervals := closeAndOpenIntervals s.now ids mode reason s.db.intervals
    ({ s with db.intervals := intervals }, .ok ids)
  else (s, .error .ledger)

def suspendCloudWrites (suspension : CloudWriteSuspension) (committed : Bool) :
    System × Except TelemetryWriteModeError (List ProjectId) :=
  let s' := { s with suspension := suspension }
  if s.suspension = suspension then (s', .ok [])
  else moveDeclaredCloudProjectsTo s' .localStore suspension.intervalReason committed

def resumeCloudWrites (committed : Bool) :
    System × Except TelemetryWriteModeError (List ProjectId) :=
  if s.suspension.isSuspended then
    moveDeclaredCloudProjectsTo { s with suspension := .none } .cloud .cloudRecovered committed
  else (s, .ok [])

/-- Change the declared mode and the span ledger of the declared projects, in one transaction with
the same read as `moveDeclaredCloudProjectsTo`. -/
def revertAllToLocal (reason : TelemetryWriteIntervalReason) (committed : Bool) :
    System × Except TelemetryWriteModeError (List ProjectId) :=
  let ids := declaredCloudProjects s
  if committed then
    match s.db.updateProjects (·.id ∈ ids) (·.setMode .localStore .spans) with
    | none => (s, .error .ledger)
    | some db =>
      let intervals := closeAndOpenIntervals s.now ids .localStore reason db.intervals
      ({ s with db := { db with intervals := intervals } }, .ok ids)
  else (s, .error .ledger)

end Fallback

section Ingest

variable (s : System) (projectId : ProjectId)

def isCloudPrimary (group : TelemetrySignalGroup) : Bool :=
  match s.db.projects.find? (·.id = projectId) with
  | none => false
  | some row => row.mode group = .cloud ∧ row.fidelity = .queryable

def cloudWritesAvailable : Bool :=
  s.link.linked && s.link.telemetryEnabled && !s.suspension.isSuspended

def destination (group : TelemetrySignalGroup) : CloudTelemetryWriteMode :=
  if cloudWritesAvailable s && isCloudPrimary s projectId group then .cloud else .localStore

def enqueue (entityType : EntityType) (accepted : Bool) : System :=
  if accepted then
    { s with db.outbox := s.db.outbox ++ [⟨s.db.outbox.length, projectId, entityType, .pending⟩] }
  else s

def ingestSpans (accepted : Bool) : System :=
  match destination s projectId .spans with
  | .cloud => enqueue s projectId .span accepted
  | .localStore => s

def ingestMetrics (scalar accepted : Bool) : System :=
  match destination s projectId .analytics with
  | .cloud => if scalar then enqueue s projectId .metric accepted else s
  | .localStore => s

end Ingest

inductive CloudFallbackReason
  | disconnected
  | telemetryDisabled
deriving DecidableEq

inductive Act
  | setWriteMode (projectId : ProjectId) (requested : CloudTelemetryWriteMode)
      (link : CloudLinkSnapshot) (calls : DbCalls) (reached : List ℕ)
  | setAnalyticsWriteMode (projectId : ProjectId) (requested : CloudAnalyticsWriteMode)
      (link : CloudLinkSnapshot) (calls : DbCalls)
  | setFidelity (projectId : ProjectId) (requested : CloudTelemetryFidelity)
      (allowlist : Option (List String)) (calls : DbCalls) (reached : List ℕ)
  | suspendCloudWrites (suspension : CloudWriteSuspension) (committed : Bool)
  | resumeCloudWrites (committed : Bool)
  | loseLink (reason : CloudFallbackReason) (committed : Bool)
  | restoreLink
  | restart
  | ingestSpans (projectId : ProjectId) (accepted : Bool)
  | ingestMetrics (projectId : ProjectId) (scalar accepted : Bool)
  | tick (elapsed : ℕ)
deriving DecidableEq

def CloudLink.lose (link : CloudLink) : CloudFallbackReason → CloudLink
  | .disconnected => { link with linked := false }
  | .telemetryDisabled => { link with telemetryEnabled := false }

def step (s : System) : Act → System
  | .setWriteMode projectId requested link calls reached =>
    (setWriteMode s projectId requested link calls reached).1
  | .setAnalyticsWriteMode projectId requested link calls =>
    (setAnalyticsWriteMode s projectId requested link calls).1
  | .setFidelity projectId requested allowlist calls reached =>
    (setFidelity s projectId requested allowlist calls reached).1
  | .suspendCloudWrites suspension committed => (suspendCloudWrites s suspension committed).1
  | .resumeCloudWrites committed => (resumeCloudWrites s committed).1
  | .loseLink reason committed =>
    (revertAllToLocal { s with link := s.link.lose reason } .cloudDisconnected committed).1
  | .restoreLink => { s with link := ⟨true, true⟩ }
  | .restart => { s with suspension := .none }
  | .ingestSpans projectId accepted => ingestSpans s projectId accepted
  | .ingestMetrics projectId scalar accepted => ingestMetrics s projectId scalar accepted
  | .tick elapsed => { s with now := s.now + elapsed }

def run (s : System) (acts : List Act) : System := acts.foldl step s

/-- Projects with distinct ids that all store locally, no interval yet, nothing suspended. -/
structure Fresh (s : System) : Prop where
  distinct : (s.db.projects.map (·.id)).Nodup
  modes : ∀ p ∈ s.db.projects, ∀ group, p.mode group = .localStore
  intervals : s.db.intervals = []
  suspension : s.suspension = .none

def linkedInstance : System :=
  { db := ⟨[⟨1, "shop", .queryable, .localStore, .localStore, [], false⟩], [], []⟩
    now := 0
    link := ⟨true, true⟩
    suspension := .none
    spiller := true }

def linkedSnapshot : CloudLinkSnapshot := ⟨true, true, false⟩

def allSucceed : DbCalls := ⟨true, true, true, true, 0⟩

theorem linkedInstance_fresh : Fresh linkedInstance := by
  refine ⟨by decide, ?_, rfl, rfl⟩
  rintro p hp (_ | _)
  · obtain rfl := List.mem_singleton.mp hp
    rfl
  · obtain rfl := List.mem_singleton.mp hp
    rfl

open Lib Lib.Timeline List Function

def ledger (intervals : List WriteInterval) (projectId : ProjectId)
    (group : TelemetrySignalGroup) : List WriteInterval :=
  intervals.filter fun i ↦ i.projectId = projectId ∧ i.signalGroup = group

def WriteInterval.stretch (i : WriteInterval) : Stretch DBDateTime CloudTelemetryWriteMode :=
  ⟨i.effectiveFrom, i.effectiveTo, i.mode⟩

def timeline (intervals : List WriteInterval) (projectId : ProjectId)
    (group : TelemetrySignalGroup) : List (Stretch DBDateTime CloudTelemetryWriteMode) :=
  (ledger intervals projectId group).map WriteInterval.stretch

variable {now : DBDateTime} {ids : List ProjectId} {mode : CloudTelemetryWriteMode}
  {reason : TelemetryWriteIntervalReason} {group group' : TelemetrySignalGroup}
  {intervals : List WriteInterval} {p : ProjectId}

def closedRow (now : DBDateTime) (ids : List ProjectId) (mode : CloudTelemetryWriteMode)
    (group : TelemetrySignalGroup) (i : WriteInterval) : WriteInterval :=
  if i.projectId ∈ ids ∧ i.signalGroup = group ∧ i.effectiveTo = none ∧ i.mode ≠ mode
  then { i with effectiveTo := some now } else i

@[simp] theorem closedRow_projectId (i : WriteInterval) :
    (closedRow now ids mode group i).projectId = i.projectId := by
  unfold closedRow
  split <;> rfl

@[simp] theorem closedRow_signalGroup (i : WriteInterval) :
    (closedRow now ids mode group i).signalGroup = i.signalGroup := by
  unfold closedRow
  split
  · rfl
  · rfl

theorem ledger_closed :
    ledger (intervals.map (closedRow now ids mode group)) p group' =
      (ledger intervals p group').map (closedRow now ids mode group) := by
  simp [ledger, filter_map, comp_def]

theorem timeline_closed_other (h : p ∉ ids ∨ group' ≠ group) :
    timeline (intervals.map (closedRow now ids mode group)) p group' =
      timeline intervals p group' := by
  rw [timeline, ledger_closed, map_map]
  refine map_congr_left fun i hi ↦ ?_
  obtain ⟨rfl, rfl⟩ : i.projectId = p ∧ i.signalGroup = group' := by
    simpa using (mem_filter.mp hi).2
  have hsame : ¬ (i.projectId ∈ ids ∧ i.signalGroup = group ∧ i.effectiveTo = none ∧
      i.mode ≠ mode) := fun hc ↦ h.elim (· hc.1) (· hc.2.1)
  rw [comp_apply, closedRow, if_neg hsame]

theorem timeline_closed (h : p ∈ ids) :
    timeline (intervals.map (closedRow now ids mode group)) p group =
      close now mode (timeline intervals p group) := by
  rw [timeline, ledger_closed, timeline, close, map_map, map_map]
  refine map_congr_left fun i hi ↦ ?_
  obtain ⟨rfl, rfl⟩ : i.projectId = p ∧ i.signalGroup = group := by
    simpa using (mem_filter.mp hi).2
  by_cases hc : i.effectiveTo = none ∧ i.mode ≠ mode
  · rw [comp_apply, closedRow, if_pos ⟨h, rfl, hc⟩]
    exact (if_pos hc).symm
  · rw [comp_apply, closedRow, if_neg fun hall ↦ hc hall.2.2]
    exact (if_neg hc).symm

theorem timeline_append (front back : List WriteInterval) :
    timeline (front ++ back) p group = timeline front p group ++ timeline back p group := by
  simp [timeline, ledger]

theorem timeline_opened_other (h : p ∉ ids ∨ group' ≠ group) :
    timeline (ids.map fun id ↦ ⟨id, group, mode, now, none, reason⟩) p group' = [] := by
  have hnone : ledger (ids.map fun id ↦ ⟨id, group, mode, now, none, reason⟩) p group' = [] := by
    rw [ledger, filter_eq_nil_iff]
    intro i hi
    obtain ⟨id, hid, rfl⟩ := mem_map.mp hi
    rintro hc
    obtain ⟨rfl, rfl⟩ : id = p ∧ group = group' := by simpa using hc
    exact h.elim (· hid) (· rfl)
  rw [timeline, hnone, map_nil]

theorem timeline_opened (hnodup : ids.Nodup) (h : p ∈ ids) :
    timeline (ids.map fun id ↦ ⟨id, group, mode, now, none, reason⟩) p group =
      [⟨now, none, mode⟩] := by
  obtain ⟨front, back, rfl⟩ := append_of_mem h
  have hfront : p ∉ front := fun hp ↦ (nodup_append.mp hnodup).2.2 p hp p (by simp) rfl
  have hback : p ∉ back := (nodup_cons.mp (nodup_append.mp hnodup).2.1).1
  rw [map_append, map_cons, timeline_append, timeline_opened_other (.inl hfront),
    ← singleton_append, timeline_append, timeline_opened_other (.inl hback)]
  simp [timeline, ledger, WriteInterval.stretch]

def missing (ids : List ProjectId) (group : TelemetrySignalGroup)
    (closed : List WriteInterval) : List ProjectId :=
  ids.filter fun id ↦
    !closed.any fun i ↦ i.projectId = id ∧ i.signalGroup = group ∧ i.effectiveTo = none

theorem closeAndOpen_eq (hne : ids ≠ []) :
    closeAndOpenIntervalsForGroup now ids mode reason group intervals =
      let closed := intervals.map (closedRow now ids mode group)
      closed ++ (missing ids group closed).map fun id ↦ ⟨id, group, mode, now, none, reason⟩ :=
  if_neg hne

theorem mem_missing {closed : List WriteInterval} (h : p ∈ ids) :
    p ∈ missing ids group closed ↔ (timeline closed p group).any (·.stop.isNone) = false := by
  simp [missing, h, timeline, ledger, WriteInterval.stretch]

theorem timeline_closeAndOpen_other (h : p ∉ ids ∨ group' ≠ group) :
    timeline (closeAndOpenIntervalsForGroup now ids mode reason group intervals) p group' =
      timeline intervals p group' := by
  by_cases hne : ids = []
  · rw [closeAndOpenIntervalsForGroup, if_pos hne]
  · have hmissing : p ∉ missing ids group (intervals.map (closedRow now ids mode group)) ∨
        group' ≠ group := h.imp_left fun hp hm ↦ hp (mem_of_mem_filter hm)
    rw [closeAndOpen_eq hne, timeline_append, timeline_closed_other h,
      timeline_opened_other hmissing, append_nil]

theorem timeline_closeAndOpen (hnodup : ids.Nodup) (h : p ∈ ids) :
    timeline (closeAndOpenIntervalsForGroup now ids mode reason group intervals) p group =
      switch now mode (timeline intervals p group) := by
  rw [closeAndOpen_eq (ne_nil_of_mem h), timeline_append, timeline_closed h, switch]
  by_cases hany : (close now mode (timeline intervals p group)).any (·.stop.isNone)
  · have hout : p ∉ missing ids group (intervals.map (closedRow now ids mode group)) := by
      rw [mem_missing h, timeline_closed h, hany]
      simp
    rw [if_pos hany, timeline_opened_other (.inl hout), append_nil]
  · have hin : p ∈ missing ids group (intervals.map (closedRow now ids mode group)) := by
      rw [mem_missing h, timeline_closed h]
      simpa using hany
    have hnd : (missing ids group (intervals.map (closedRow now ids mode group))).Nodup :=
      hnodup.filter _
    rw [if_neg hany, timeline_opened hnd hin]

theorem timeline_switched (hnodup : ids.Nodup) :
    timeline (closeAndOpenIntervalsForGroup now ids mode reason group intervals) p group' =
      (if group' = group ∧ p ∈ ids then some mode else none).elim (timeline intervals p group')
        (switch now · (timeline intervals p group')) := by
  by_cases hp : group' = group ∧ p ∈ ids
  · obtain ⟨rfl, hmem⟩ := hp
    rw [if_pos ⟨rfl, hmem⟩]
    exact timeline_closeAndOpen hnodup hmem
  · have hother : p ∉ ids ∨ group' ≠ group := by tauto
    rw [if_neg hp]
    exact timeline_closeAndOpen_other hother

end Temps.Otel
