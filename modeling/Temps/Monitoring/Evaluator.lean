import Mathlib.Data.List.Sort
import Mathlib.Algebra.Order.Ring.Rat

namespace Temps.Monitoring

abbrev RuleId := ℤ

abbrev AlarmId := ℕ

/-- Microseconds since the epoch. -/
abbrev UtcDateTime := ℤ

def seconds (n : ℤ) : ℤ := n * 1000000

def numSeconds (duration : ℤ) : ℤ := duration.tdiv 1000000

def maxRestoredBreachAgeMultiplier : ℤ := 3

def minRestoredBreachAgeSecs : ℤ := 15 * 60

def cooldown : ℤ := seconds (5 * 60)

/-- The columns of `monitoring_alert_rules` that an evaluation reads, other than the start of the
breach. -/
structure Rule where
  id : RuleId
  serviceId : Option ℤ := none
  deploymentId : Option ℤ := none
  nodeId : Option ℤ := none
  name : String
  metricName : String
  threshold : ℚ
  comparator : String
  forDurationSecs : ℤ
  enabled : Bool := true
  silencedUntil : Option UtcDateTime := none
deriving DecidableEq

inductive SourceKind
  | database
  | deployment
  | node
deriving DecidableEq

abbrev Source := SourceKind × ℤ

def Rule.source (rule : Rule) : Option Source :=
  match rule.serviceId, rule.deploymentId, rule.nodeId with
  | some id, none, none => some (.database, id)
  | none, some id, none => some (.deployment, id)
  | none, none, some id => some (.node, id)
  | _, _, _ => none

inductive AlarmType
  | databaseMetricThreshold
  | deploymentMetricThreshold
  | containerMetricThreshold
  | nodeMetricThreshold
  | otelRateLimited
deriving DecidableEq

def alarmTypeForRule (rule : Rule) : AlarmType :=
  if rule.metricName ∈ ["otel.rate_limited_requests", "otel.quota_exceeded_requests"] then
    .otelRateLimited
  else match rule.serviceId, rule.deploymentId, rule.nodeId with
    | some _, none, none => .databaseMetricThreshold
    | none, some _, none => .deploymentMetricThreshold
    | none, none, some _ => .nodeMetricThreshold
    | _, _, _ => .databaseMetricThreshold

inductive AlarmStatus
  | firing
  | acknowledged
  | resolved
deriving DecidableEq

structure AlarmContext where
  projectId : Option ℤ := none
  environmentId : Option ℤ := none
  deploymentId : Option ℤ := none
  serviceId : Option ℤ := none
deriving DecidableEq

/-- A row of `alarms` that the evaluator wrote; the rule stands in its metadata. -/
structure Alarm where
  id : AlarmId
  context : AlarmContext
  alarmType : AlarmType
  status : AlarmStatus
  ruleId : RuleId
  firedAt : UtcDateTime
  silencedUntil : Option UtcDateTime
deriving DecidableEq

def Alarm.isOpen (alarm : Alarm) : Bool := alarm.status ≠ .resolved

section Assessment

/-- The latest value of each metric of a source. -/
abbrev Latest := String → Option ℚ

structure RuleSeed where
  name : String
  metricName : String
  threshold : ℚ
  comparator : String

def postgresDefaultSeeds : List RuleSeed :=
  [⟨"High active connections (warning)", "pg.connections_active", 80, ">"⟩,
   ⟨"High active connections (critical)", "pg.connections_active", 95, ">"⟩,
   ⟨"Low cache hit ratio", "pg.cache_hit_ratio", 9 / 10, "<"⟩,
   ⟨"Replication replay lag (warning)", "pg.replication_replay_lag_seconds", 30, ">"⟩,
   ⟨"Replication replay lag (critical)", "pg.replication_replay_lag_seconds", 120, ">"⟩,
   ⟨"Deadlocks detected", "pg.deadlocks_total", 0, ">"⟩]

def redisDefaultSeeds : List RuleSeed :=
  [⟨"High memory fragmentation ratio", "redis.memory_fragmentation_ratio", 3 / 2, ">"⟩,
   ⟨"Keys being evicted", "redis.evicted_keys_total", 0, ">"⟩,
   ⟨"High connected clients", "redis.connected_clients", 1000, ">"⟩,
   ⟨"Low keyspace hit ratio", "redis.keyspace_hit_ratio", 9 / 10, "<"⟩]

def proxyDefaultSeeds : List RuleSeed :=
  [⟨"High proxy error rate", "proxy.error_rate_percent", 20, ">"⟩,
   ⟨"Slow proxy responses (p99)", "proxy.request_duration_p99_ms", 5000, ">"⟩]

structure VolumeGate where
  metricName : String
  minValue : ℚ

def volumeGate (metricName : String) : Option VolumeGate :=
  match metricName with
  | "redis.memory_fragmentation_ratio" => some ⟨"redis.memory_used_bytes", 100 * 1024 * 1024⟩
  | "redis.keyspace_hit_ratio" => some ⟨"redis.keyspace_lookups", 10000⟩
  | "pg.cache_hit_ratio" => some ⟨"pg.cache_blocks_accessed", 100000⟩
  | "proxy.error_rate_percent" => some ⟨"proxy.requests", 20⟩
  | "proxy.request_duration_p99_ms" => some ⟨"proxy.requests", 20⟩
  | _ => none

def RuleSeed.defines (seed : RuleSeed) (rule : Rule) : Bool :=
  seed.name = rule.name ∧ seed.metricName = rule.metricName ∧ seed.threshold = rule.threshold ∧
    seed.comparator = rule.comparator

def defaultVolumeGate (rule : Rule) : Option VolumeGate :=
  if (postgresDefaultSeeds ++ redisDefaultSeeds ++ proxyDefaultSeeds).any (·.defines rule) then
    volumeGate rule.metricName
  else none

def meetsVolumeGate (metricName : String) (latest : Latest) : Bool :=
  match volumeGate metricName with
  | none => true
  | some gate => (latest gate.metricName).any (gate.minValue ≤ ·)

def compare (lhs rhs : ℚ) (comparator : String) : Bool :=
  match comparator with
  | ">" => rhs < lhs
  | "<" => lhs < rhs
  | ">=" => rhs ≤ lhs
  | "<=" => lhs ≤ rhs
  | _ => false

inductive Verdict
  | noData
  | healthy
  | breaching
deriving DecidableEq

/-- Which way `evaluate_rule` goes. A ratio over too little volume counts as healthy, one whose
volume is not known as missing. -/
def assess (rule : Rule) (latest : Latest) : Verdict :=
  match latest rule.metricName with
  | none => .noData
  | some value =>
    if (defaultVolumeGate rule).any fun gate ↦ (latest gate.metricName).isNone then .noData
    else if (defaultVolumeGate rule).isSome ∧ ¬ meetsVolumeGate rule.metricName latest then .healthy
    else if compare value rule.threshold rule.comparator then .breaching
    else .healthy

end Assessment

structure Deployment where
  id : ℤ
  projectId : ℤ
  environmentId : ℤ
deriving DecidableEq

structure ProjectService where
  serviceId : ℤ
  projectId : ℤ
deriving DecidableEq

/-- What happened, for the statements about runs; the code keeps no such list. -/
inductive Event
  /-- A cycle found the rule healthy, without data, disabled or silenced. -/
  | lapse (rule : RuleId) (time : UtcDateTime)
  /-- `fire_alarm` was called. -/
  | fire (rule : RuleId) (time : UtcDateTime) (forDurationSecs : ℤ)
deriving DecidableEq

structure System where
  rules : List Rule
  /-- The column `breach_started_at` of the rules. -/
  breachStartedAt : RuleId → Option UtcDateTime
  deployments : List Deployment
  projectServices : List ProjectService
  alarms : List Alarm
  nextAlarmId : AlarmId
  /-- The cache of the column, in the process. -/
  breachStart : RuleId → Option UtcDateTime
  /-- The alarm that the process tracks for a rule. -/
  firingAlarms : RuleId → Option AlarmId
  now : UtcDateTime
  /-- The latest event first. -/
  log : List Event

def System.watching (rules : List Rule) : System where
  rules
  breachStartedAt _ := none
  deployments := []
  projectServices := []
  alarms := []
  nextAlarmId := 1
  breachStart _ := none
  firingAlarms _ := none
  now := 0
  log := []

/-- What becomes of a write: it may take effect and still be reported as failed. -/
inductive Write
  | done
  | refused
  | lost
deriving DecidableEq

/-- The calls that one rule can make in a cycle: how long they take and which of them succeed. -/
structure Calls where
  delay : ℤ := 0
  context : Bool := true
  claim : Write := .done
  readBack : Bool := true
  overwrite : Write := .done
  clear : Write := .done
  cooldown : Bool := true
  insert : Write := .done
  find : Bool := true
  resolve : Write := .done
  confirm : Bool := true

/-- What a cycle meets. The sources are visited in the order of their ranks; a source without
metrics is one whose query fails. -/
structure Cycle where
  delay : ℤ := 0
  loaded : Bool := true
  metrics : Source → Option Latest
  rank : Source → ℕ := fun _ ↦ 0
  calls : RuleId → Calls := fun _ ↦ {}

/-- What a start of the process meets: how many of the alarm queries succeed before one fails. -/
structure Startup where
  delay : ℤ := 0
  alarmLoads : ℕ := 4
  breachLoad : Bool := true
  clear : RuleId → Write := fun _ ↦ .done

namespace System

variable (calls : Calls) (s : System)

def wait (delay : ℤ) : System := { s with now := s.now + delay }

def note (event : Event) : System := { s with log := event :: s.log }

def active (rule : Rule) : Bool := rule.enabled ∧ ∀ until_ ∈ rule.silencedUntil, until_ < s.now

def clearPersistedBreachStart (write : Write) (rule : RuleId) : System :=
  if write = .refused then s
  else { s with breachStartedAt := Function.update s.breachStartedAt rule none }

def clearBreach (rule : RuleId) : System :=
  { s with breachStart := Function.update s.breachStart rule none }.clearPersistedBreachStart
    calls.clear rule

def breachWindowIsRestorable (rule : Rule) (startedAt now : UtcDateTime) : Bool :=
  let age := numSeconds (now - startedAt)
  let required := max rule.forDurationSecs 0
  rule.enabled ∧ (∀ until_ ∈ rule.silencedUntil, until_ ≤ now) ∧ 0 ≤ age ∧
    age ≤ max (required * maxRestoredBreachAgeMultiplier) minRestoredBreachAgeSecs

def claimBreachStart (rule : Rule) : Option UtcDateTime × System :=
  let startedAt := (s.breachStartedAt rule.id).getD s.now
  let claimed := { s with breachStartedAt := Function.update s.breachStartedAt rule.id startedAt }
  let renewed := { s with breachStartedAt := Function.update s.breachStartedAt rule.id s.now }
  if calls.claim = .refused then (none, s)
  else if calls.claim = .lost ∨ ¬ calls.readBack then (none, claimed)
  else if breachWindowIsRestorable rule startedAt s.now then (some startedAt, claimed)
  else match calls.overwrite with
    | .done => (some s.now, renewed)
    | .refused => (none, claimed)
    | .lost => (none, renewed)

def resolveAlarmContext (rule : Rule) : AlarmContext :=
  let deployment := rule.deploymentId.bind fun id ↦ s.deployments.find? (·.id = id)
  let service := rule.serviceId.bind fun id ↦ s.projectServices.find? (·.serviceId = id)
  if ¬ calls.context then {}
  else match deployment, service with
    | some deployment, _ =>
      ⟨some deployment.projectId, some deployment.environmentId, some deployment.id, none⟩
    | none, some service => ⟨some service.projectId, none, none, some service.serviceId⟩
    | none, none => {}

def isInCooldown (context : AlarmContext) (alarmType : AlarmType) : Bool :=
  s.alarms.any fun a ↦ a.context.projectId = context.projectId ∧ a.alarmType = alarmType ∧
    (s.now - cooldown ≤ a.firedAt ∨ ∃ until_ ∈ a.silencedUntil, s.now < until_) ∧
    a.context.deploymentId = context.deploymentId ∧ a.context.serviceId = context.serviceId

def fireAlarm (rule : Rule) : Option AlarmId × System :=
  let context := s.resolveAlarmContext calls rule
  let alarm : Alarm :=
    ⟨s.nextAlarmId, context, alarmTypeForRule rule, .firing, rule.id, s.now, none⟩
  let fired := { s with alarms := s.alarms ++ [alarm], nextAlarmId := s.nextAlarmId + 1 }
  if ¬ calls.cooldown ∨ s.isInCooldown context (alarmTypeForRule rule) then (none, s)
  else match calls.insert with
    | .done => (some alarm.id, fired)
    | .refused => (none, s)
    | .lost => (none, fired)

def track (rule : RuleId) (alarm : Option AlarmId) : System :=
  { s with firingAlarms := Function.update s.firingAlarms rule alarm }

def fireTracked (rule : Rule) : System :=
  if (s.firingAlarms rule.id).isSome then s
  else match (s.note (.fire rule.id s.now rule.forDurationSecs)).fireAlarm calls rule with
    | (some id, s) => s.track rule.id id
    | (none, s) => s

def establishBreach (rule : Rule) : Option UtcDateTime × System :=
  match s.breachStart rule.id with
  | some startedAt => (some startedAt, s)
  | none =>
    match s.claimBreachStart calls rule with
    | (some startedAt, s) =>
      (some startedAt, { s with breachStart := Function.update s.breachStart rule.id startedAt })
    | (none, s) => (none, s)

def handleBreach (rule : Rule) : System :=
  match s.establishBreach calls rule with
  | (none, s) => s
  | (some startedAt, s) =>
    if max (numSeconds (s.now - startedAt)) 0 < max rule.forDurationSecs 0 then s
    else s.fireTracked calls rule

inductive Resolution
  | ok
  | notFound
  | failed
deriving DecidableEq

def setStatus (id : AlarmId) (status : AlarmStatus) : System :=
  { s with alarms := s.alarms.map fun a ↦ if a.id = id then { a with status } else a }

def findAlarm (id : AlarmId) (projectId : Option ℤ) : Option Alarm :=
  s.alarms.find? fun a ↦ a.id = id ∧ a.context.projectId = projectId

def resolveAlarm (find : Bool) (write : Write) (id : AlarmId) (projectId : Option ℤ) :
    Resolution × System :=
  if ¬ find then (.failed, s)
  else match s.findAlarm id projectId with
    | none => (.notFound, s)
    | some alarm =>
      if alarm.status = .resolved then (.ok, s)
      else match write with
        | .done => (.ok, s.setStatus id .resolved)
        | .refused => (.failed, s)
        | .lost => (.failed, s.setStatus id .resolved)

def resolveTracked (rule : Rule) : System :=
  match s.firingAlarms rule.id with
  | none => s
  | some id =>
    match (s.track rule.id none).resolveAlarm calls.find calls.resolve id
        (s.resolveAlarmContext calls rule).projectId with
    | (.ok, s) => s
    | (.notFound, s) =>
      if calls.confirm ∧ s.alarms.all (·.id ≠ id) then s else s.track rule.id id
    | (.failed, s) => s.track rule.id id

def handleRecovery (rule : Rule) : System := (s.clearBreach calls rule.id).resolveTracked calls rule

end System

section Cycles

variable (cycle : Cycle)

def evaluateRule (s : System) (rule : Rule) : System :=
  match rule.source.bind cycle.metrics with
  | none => s
  | some latest =>
    let calls := cycle.calls rule.id
    let s := s.wait calls.delay
    match assess rule latest with
    | .noData => (s.clearBreach calls rule.id).note (.lapse rule.id s.now)
    | .healthy => (s.handleRecovery calls rule).note (.lapse rule.id s.now)
    | .breaching => s.handleBreach calls rule

/-- Forgets the windows and the alarms of the rules that are not loaded. Only windows that are in
the cache are cleared in the database. -/
def prune (s : System) (ids : List RuleId) : System :=
  let dropped (r : RuleId) : Bool := r ∉ ids ∧ (s.breachStart r).isSome
  { s with
    breachStart := fun r ↦ if r ∈ ids then s.breachStart r else none
    breachStartedAt := fun r ↦
      if dropped r ∧ (cycle.calls r).clear ≠ .refused then none else s.breachStartedAt r
    firingAlarms := fun r ↦ if r ∈ ids then s.firingAlarms r else none }

def noteAbsent (s : System) (rules : List Rule) : System :=
  { s with log := (rules.filter (!s.active ·)).map (.lapse ·.id s.now) ++ s.log }

def evaluationOrder (rules : List Rule) : List Rule :=
  rules.insertionSort fun a b ↦
    (a.source.map cycle.rank).getD 0 ≤ (b.source.map cycle.rank).getD 0

def runCycle (s : System) : System :=
  let s := s.wait cycle.delay
  if cycle.loaded then
    let rules := s.rules.filter s.active
    if rules = [] then noteAbsent s s.rules
    else
      (evaluationOrder cycle rules).foldl (evaluateRule cycle)
        (noteAbsent (prune cycle s (rules.map Rule.id)) s.rules)
  else s

end Cycles

section Restart

variable (startup : Startup) (s : System)

def metricTypes : List AlarmType :=
  [.databaseMetricThreshold, .deploymentMetricThreshold, .containerMetricThreshold,
    .nodeMetricThreshold]

def loadFiringAlarms : RuleId → Option AlarmId :=
  ((metricTypes.take startup.alarmLoads).flatMap fun alarmType ↦
    s.alarms.filter fun a ↦ a.alarmType = alarmType ∧ a.isOpen).foldl
      (fun map a ↦ Function.update map a.ruleId a.id) fun _ ↦ none

def restoredWindow (r : RuleId) : Option UtcDateTime :=
  (s.breachStartedAt r).filter fun startedAt ↦
    s.rules.any fun rule ↦ rule.id = r ∧ System.breachWindowIsRestorable rule startedAt s.now

def loadBreachState : System :=
  if startup.breachLoad then
    { s with
      breachStart := restoredWindow s
      breachStartedAt := fun r ↦
        if restoredWindow s r = none ∧ startup.clear r ≠ .refused then none
        else s.breachStartedAt r }
  else s

def restart : System :=
  loadBreachState startup { s with
    breachStart := fun _ ↦ none
    firingAlarms := loadFiringAlarms startup s
    now := s.now + startup.delay }

end Restart

/-- A cycle, a start of the process, what users do to rules and alarms, and the passing of time. -/
inductive Act
  | cycle (cycle : Cycle)
  | restart (startup : Startup)
  | setEnabled (rule : RuleId) (enabled : Bool)
  | silenceRule (rule : RuleId) (until_ : Option UtcDateTime)
  | acknowledge (alarm : AlarmId) (projectId : Option ℤ)
  | resolve (alarm : AlarmId) (projectId : Option ℤ)
  | silence (alarm : AlarmId) (projectId : Option ℤ) (duration : ℤ)
  | delete (alarm : AlarmId)
  | wait (delay : ℤ)

namespace System

variable (s : System)

def editRule (id : RuleId) (edit : Rule → Rule) : System :=
  { s with rules := s.rules.map fun rule ↦ if rule.id = id then edit rule else rule }

def acknowledgeAlarm (id : AlarmId) (projectId : Option ℤ) : System :=
  match s.findAlarm id projectId with
  | none => s
  | some alarm => if alarm.status = .firing then s.setStatus id .acknowledged else s

def silenceAlarm (id : AlarmId) (projectId : Option ℤ) (duration : ℤ) : System :=
  match s.findAlarm id projectId with
  | none => s
  | some alarm =>
    if alarm.status = .resolved then s
    else { s with alarms := s.alarms.map fun a ↦
      if a.id = id then { a with silencedUntil := some (s.now + duration) } else a }

def deleteAlarm (id : AlarmId) : System := { s with alarms := s.alarms.filter (·.id ≠ id) }

end System

def step (s : System) : Act → System
  | .cycle cycle => runCycle cycle s
  | .restart startup => restart startup s
  | .setEnabled id enabled => s.editRule id fun rule ↦ { rule with enabled }
  | .silenceRule id silencedUntil => s.editRule id fun rule ↦ { rule with silencedUntil }
  | .acknowledge id projectId => s.acknowledgeAlarm id projectId
  | .resolve id projectId => (s.resolveAlarm true .done id projectId).2
  | .silence id projectId duration => s.silenceAlarm id projectId duration
  | .delete id => s.deleteAlarm id
  | .wait delay => s.wait delay

def run (s : System) (acts : List Act) : System := acts.foldl step s

theorem evaluationOrder_perm (cycle : Cycle) (rules : List Rule) :
    (evaluationOrder cycle rules).Perm rules := List.perm_insertionSort _ _

theorem editRule_ids {s : System} {id : RuleId} {edit : Rule → Rule}
    (h : ∀ rule, (edit rule).id = rule.id) :
    (s.editRule id edit).rules.map Rule.id = s.rules.map Rule.id := by
  rw [System.editRule, List.map_map]
  refine List.map_congr_left fun rule _ ↦ ?_
  show (if rule.id = id then edit rule else rule).id = rule.id
  split
  case isTrue => exact h rule
  case isFalse => rfl

end Temps.Monitoring
