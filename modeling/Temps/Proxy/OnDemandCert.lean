import Temps.Core.PublicHostname

namespace Temps.Proxy.OnDemandCert

open Temps.Core.PublicHostname (Text toAsciiLowercase)
open Temps.Lib.Runs (trimEnd)
open Lib.Unicode

inductive OnDemandCertState where
  | pending
  | issuing
  | failed (backoffUntilEpoch : ℕ)
  deriving DecidableEq

def OnDemandCertState.inFlight : OnDemandCertState → Bool
  | .pending | .issuing => true
  | .failed _ => false

inductive EnqueueOutcome where
  | enqueued
  | skippedGate
  | skippedNoRoute
  | skippedDuplicate
  | skippedBackoff
  | skippedRateLimit
  | skippedDisabled
  deriving DecidableEq

/-- The tunables of the manager. The wiring raises both limits to at least one. -/
structure OnDemandCertConfig where
  zone : Text
  maxConcurrent : ℕ
  hourlyCap : ℕ
  consoleHost : Option Text
  maxConcurrent_pos : 0 < maxConcurrent
  hourlyCap_pos : 0 < hourlyCap

def OnDemandCertConfig.ofSettings (zone : Text) (maxConcurrent hourlyCap : ℕ)
    (consoleHost : Option Text) : OnDemandCertConfig where
  zone := zone
  maxConcurrent := max maxConcurrent 1
  hourlyCap := max hourlyCap 1
  consoleHost := consoleHost
  maxConcurrent_pos := Nat.lt_of_lt_of_le Nat.zero_lt_one (Nat.le_max_right ..)
  hourlyCap_pos := Nat.lt_of_lt_of_le Nat.zero_lt_one (Nat.le_max_right ..)

def maxNovelHostnamesPerIpPerMinute : ℕ := 5
def perIpWindowSecs : ℕ := 60
def hourlyWindowSecs : ℕ := 3600
def jobChannelCapacity : ℕ := 256
def firstRungSecs : ℕ := 300
def stateSeedLookbackSecs : ℕ := 24 * 3600

namespace OnDemandCertConfig

variable (u : Tables) (cfg : OnDemandCertConfig)

def isDirectSubdomainOfZone (hostname : Text) : Bool :=
  let zone := trimEnd '.' (u.trim cfg.zone)
  if zone.isEmpty then false
  else
    let suffix := '.' :: toAsciiLowercase zone
    suffix.isSuffixOf hostname &&
      (let label := hostname.take (hostname.length - suffix.length)
      !label.isEmpty && !label.contains '.')

def isConsoleHost (hostname : Text) : Bool :=
  match cfg.consoleHost with
  | none => false
  | some c =>
    let console := toAsciiLowercase (trimEnd '.' (u.trim c))
    !console.isEmpty && console == hostname

end OnDemandCertConfig

/-- The status of a `domains` row, as far as on-demand issuance tells one from another. -/
inductive DomainStatus where
  | onDemandPending
  | onDemandIssuing
  | onDemandFailed
  | challengeRequested
  | active
  | other
  deriving DecidableEq

structure DomainRow where
  domain : Text
  status : DomainStatus
  onDemandBackoffUntil : Option ℤ
  updatedAt : ℕ
  deriving DecidableEq

def writeRow (rows : List DomainRow) (row : DomainRow) : List DomainRow :=
  if rows.any (·.domain == row.domain) then
    rows.map fun old ↦ if old.domain = row.domain then row else old
  else rows ++ [row]

def DomainRow.recent (now : ℕ) (row : DomainRow) : Bool :=
  now ≤ row.updatedAt + stateSeedLookbackSecs

def DomainRow.seed (row : DomainRow) : Option OnDemandCertState :=
  match row.status with
  | .onDemandPending => some .pending
  | .onDemandIssuing => some .issuing
  | .onDemandFailed => some (.failed ((row.onDemandBackoffUntil.map Int.toNat).getD 0))
  | _ => none

def seedStateFromDb (now : ℕ) (rows : List DomainRow) : List (Text × OnDemandCertState) :=
  (rows.filter (·.recent now)).filterMap fun row ↦ row.seed.map (row.domain, ·)

def seedState (entries : List (Text × OnDemandCertState)) : Text → Option OnDemandCertState :=
  entries.foldl (fun state entry ↦ Function.update state (toAsciiLowercase entry.1) (some entry.2))
    fun _ ↦ none

/-- How far a call of `try_enqueue` has come: it passed the zone and the route, the cached state,
the limit of its address; then it is in `allow_hourly_issuance`, which reads the clock and the start
of the window, rolls the window over or counts, and backs out when the count was full; then it
reads the clock, claims the entry and sends the job. -/
inductive Phase where
  | gated
  | checked
  | admitted
  | timed (now : ℕ)
  | rolling (now : ℕ)
  | resetting
  | counting
  | backing
  | granted
  | claiming (now : ℕ)
  | sending
  deriving DecidableEq

structure Caller where
  host : Text
  peerIp : Option ℕ
  phase : Phase
  deriving DecidableEq

/-- How far a call of the provisioner has come: `begin_on_demand_issuing` and then the order of the
challenge each write the row. -/
inductive Stage where
  | entered
  | issuing
  | ordered
  deriving DecidableEq

inductive Outcome where
  | ok
  | failed (backoffUntilEpoch : Option ℕ)
  | panicked
  deriving DecidableEq

inductive ProvisionStep where
  | begin
  | order
  | finish (outcome : Outcome) (persisted : Bool)

def provision (now : ℕ) (host : Text) (rows : List DomainRow) :
    Stage → ProvisionStep → Option ((Stage ⊕ Outcome) × List DomainRow)
  | .entered, .begin => some (.inl .issuing, writeRow rows ⟨host, .onDemandIssuing, none, now⟩)
  | .issuing, .order => some (.inl .ordered, writeRow rows ⟨host, .challengeRequested, none, now⟩)
  | .entered, .finish outcome _ => some (.inr outcome, rows)
  | _, .finish .ok _ => some (.inr .ok, writeRow rows ⟨host, .active, none, now⟩)
  | _, .finish (.failed backoff) true =>
    some (.inr (.failed backoff), writeRow rows ⟨host, .onDemandFailed, backoff.map (↑), now⟩)
  | _, .finish outcome _ => some (.inr outcome, rows)
  | _, _ => none

/-- How far a task of `run_issuance` has come. It awaits the provisioner in its own task, so it can
go on by the timeout while that task still runs. -/
inductive AttemptPhase where
  | begun
  | marked
  | running (stage : Stage)
  | ended (outcome : Outcome)
  | expired
  | done
  deriving DecidableEq

structure Attempt where
  host : Text
  phase : AttemptPhase
  deriving DecidableEq

structure Orphan where
  host : Text
  stage : Stage
  deriving DecidableEq

/-- The manager of one process, its tasks and the `domains` rows. `holding` is the job for which the
consumer awaits a permit; an attempt holds one. `lastBackoff` and `answers` only record: the backoff
of the last attempt that failed or timed out, and the answers since the hourly window began. -/
structure Process where
  clock : ℕ
  rows : List DomainRow
  routes : Text → Option Bool
  state : Text → Option OnDemandCertState
  ipNovelty : ℕ → Option (ℕ × ℕ)
  hourlyWindowStart : ℕ
  hourlyCount : ℕ
  callers : List Caller
  queue : List Text
  holding : Option Text
  attempts : List Attempt
  orphans : List Orphan
  lastBackoff : Text → ℕ
  answers : List EnqueueOutcome

def Process.new (clock : ℕ) (rows : List DomainRow) (routes : Text → Option Bool)
    (state : Text → Option OnDemandCertState) : Process where
  clock := clock
  rows := rows
  routes := routes
  state := state
  ipNovelty := fun _ ↦ none
  hourlyWindowStart := clock
  hourlyCount := 0
  callers := []
  queue := []
  holding := none
  attempts := []
  orphans := []
  lastBackoff := fun host ↦
    match state host with
    | some (.failed backoffUntil) => backoffUntil
    | _ => 0
  answers := []

def Process.start (clock : ℕ) (rows : List DomainRow) (routes : Text → Option Bool)
    (seeded : Bool) : Process :=
  .new clock rows routes <|
    if seeded then seedState (seedStateFromDb clock rows) else fun _ ↦ none

inductive Act where
  | tick (secs : ℕ)
  | routes (table : Text → Option Bool)
  | row (row : DomainRow)
  | tryEnqueue (sni : Text) (peerIp : Option ℕ)
  | caller (call : Caller)
  | receive
  | permit
  | issuance (attempt : Attempt)
  | provision (attempt : Attempt) (event : ProvisionStep)
  | timeout (attempt : Attempt)
  | orphan (orphan : Orphan) (event : ProvisionStep)
  | restart (downtime : ℕ) (seeded : Bool)

namespace Process

variable (u : Tables) (cfg : OnDemandCertConfig) (s : Process)

/-- The first two checks of `try_enqueue`: what they answer, if they reject. -/
def gate (hostname : Text) : Option EnqueueOutcome :=
  if !cfg.isDirectSubdomainOfZone u hostname then some .skippedGate
  else if cfg.isConsoleHost u hostname then none
  else if s.routes hostname = some true then none
  else some .skippedNoRoute

def allowIpNovelty (ip : ℕ) : Bool × Process :=
  match s.ipNovelty ip with
  | none => (true, { s with ipNovelty := Function.update s.ipNovelty ip (some (s.clock, 1)) })
  | some (windowStart, count) =>
    if perIpWindowSecs ≤ s.clock - windowStart then
      (true, { s with ipNovelty := Function.update s.ipNovelty ip (some (s.clock, 1)) })
    else
      (count < maxNovelHostnamesPerIpPerMinute,
        { s with ipNovelty := Function.update s.ipNovelty ip (some (windowStart, count + 1)) })

def goOn (call : Caller) (phase : Phase) : Process :=
  { s with callers := ⟨call.host, call.peerIp, phase⟩ :: s.callers.erase call }

def answer (call : Caller) (outcome : EnqueueOutcome) : Process :=
  { s with callers := s.callers.erase call, answers := outcome :: s.answers }

def setState (host : Text) (state : Option OnDemandCertState) : Process :=
  { s with state := Function.update s.state host state }

def verdict (now : ℕ) (host : Text) : Option EnqueueOutcome :=
  match s.state host with
  | some (.failed backoffUntil) => if now < backoffUntil then some .skippedBackoff else none
  | some _ => some .skippedDuplicate
  | none => none

def callStep (call : Caller) : Process :=
  match call.phase with
  | .gated =>
    match s.verdict s.clock call.host with
    | some outcome => s.answer call outcome
    | none => s.goOn call .checked
  | .checked =>
    match call.peerIp with
    | none => s.goOn call .admitted
    | some ip =>
      if (s.allowIpNovelty ip).1 then (s.allowIpNovelty ip).2.goOn call .admitted
      else (s.allowIpNovelty ip).2.answer call .skippedRateLimit
  | .admitted => s.goOn call (.timed s.clock)
  | .timed now =>
    if hourlyWindowSecs ≤ now - s.hourlyWindowStart then s.goOn call (.rolling now)
    else s.goOn call .counting
  -- The two stores of a roll over; the answers of the new window are counted from here on.
  | .rolling now =>
    { s.goOn call .resetting with hourlyWindowStart := now, answers := [] }
  | .resetting => { s.goOn call .granted with hourlyCount := 1 }
  | .counting =>
    { s.goOn call (if cfg.hourlyCap ≤ s.hourlyCount then .backing else .granted) with
      hourlyCount := s.hourlyCount + 1 }
  | .backing =>
    { s.answer call .skippedRateLimit with hourlyCount := s.hourlyCount - 1 }
  | .granted => s.goOn call (.claiming s.clock)
  -- The entry is locked from the look at it to the claim.
  | .claiming now =>
    match s.verdict now call.host with
    | some outcome => s.answer call outcome
    | none => (s.setState call.host (some .pending)).goOn call .sending
  | .sending =>
    if s.queue.length < jobChannelCapacity then
      { s.answer call .enqueued with queue := s.queue ++ [call.host] }
    else (s.setState call.host none).answer call .skippedDisabled

def nextBackoffEpoch : ℕ := s.clock + firstRungSecs

def advance (attempt : Attempt) (phase : AttemptPhase) : Process :=
  { s with attempts := ⟨attempt.host, phase⟩ :: s.attempts.erase attempt }

def recordFailure (attempt : Attempt) (backoffUntil : ℕ) : Process :=
  { (s.setState attempt.host (some (.failed backoffUntil))).advance attempt .done with
    lastBackoff := Function.update s.lastBackoff attempt.host backoffUntil }

/-- The next step of `run_issuance` itself; the last one drops the permit. -/
def issuanceStep (attempt : Attempt) : Option Process :=
  match attempt.phase with
  | .begun => some ((s.setState attempt.host (some .issuing)).advance attempt .marked)
  | .marked => some (s.advance attempt (.running .entered))
  | .running _ => none
  | .ended .ok => some ((s.setState attempt.host none).advance attempt .done)
  | .ended (.failed backoff) =>
    some (s.recordFailure attempt (backoff.getD s.nextBackoffEpoch))
  | .ended .panicked => some (s.recordFailure attempt s.nextBackoffEpoch)
  | .expired => some (s.recordFailure attempt s.nextBackoffEpoch)
  | .done => some { s with attempts := s.attempts.erase attempt }

def provisionStep (attempt : Attempt) (event : ProvisionStep) : Option Process :=
  match attempt.phase with
  | .running stage =>
    (OnDemandCert.provision s.clock attempt.host s.rows stage event).map fun (next, rows) ↦
      match next with
      | .inl stage => { s.advance attempt (.running stage) with rows := rows }
      | .inr outcome => { s.advance attempt (.ended outcome) with rows := rows }
  | _ => none

def timeoutStep (attempt : Attempt) : Option Process :=
  match attempt.phase with
  | .running stage =>
    some { s.advance attempt .expired with orphans := ⟨attempt.host, stage⟩ :: s.orphans }
  | _ => none

def orphanStep (orphan : Orphan) (event : ProvisionStep) : Option Process :=
  (OnDemandCert.provision s.clock orphan.host s.rows orphan.stage event).map fun (next, rows) ↦
    match next with
    | .inl stage =>
      { s with rows := rows, orphans := ⟨orphan.host, stage⟩ :: s.orphans.erase orphan }
    | .inr _ => { s with rows := rows, orphans := s.orphans.erase orphan }

/-- One step of the process, of a clock, of the route table, of another writer of the rows, or a
crash and the next start. -/
def step : Act → Option Process
  | .tick secs => some { s with clock := s.clock + secs }
  | .routes table => some { s with routes := table }
  | .row row => some { s with rows := writeRow s.rows row }
  | .tryEnqueue sni peerIp =>
    match s.gate u cfg (toAsciiLowercase (u.trim sni)) with
    | some outcome => some { s with answers := outcome :: s.answers }
    | none =>
      some { s with callers := ⟨toAsciiLowercase (u.trim sni), peerIp, .gated⟩ :: s.callers }
  | .caller call => if call ∈ s.callers then some (s.callStep cfg call) else none
  | .receive =>
    match s.holding, s.queue with
    | none, job :: rest => some { s with holding := some job, queue := rest }
    | _, _ => none
  | .permit =>
    match s.holding with
    | some job =>
      if s.attempts.length < cfg.maxConcurrent then
        some { s with holding := none, attempts := ⟨job, .begun⟩ :: s.attempts }
      else none
    | none => none
  | .issuance attempt => if attempt ∈ s.attempts then s.issuanceStep attempt else none
  | .provision attempt event =>
    if attempt ∈ s.attempts then s.provisionStep attempt event else none
  | .timeout attempt => if attempt ∈ s.attempts then s.timeoutStep attempt else none
  | .orphan orphan event => if orphan ∈ s.orphans then s.orphanStep orphan event else none
  | .restart downtime seeded => some (.start (s.clock + downtime) s.rows s.routes seeded)

end Process

def sampleConfig (hourlyCap : ℕ) : OnDemandCertConfig := .ofSettings ['z'] 1 hourlyCap none

def sampleHost : Text := ['a', '.', 'z']

def sampleStart : Process := .new 1000000 [] (fun _ ↦ some true) fun _ ↦ none

/-- A call of `try_enqueue` that finds the hour not elapsed, all at one time. -/
def enqueueActs (now : ℕ) : List Act :=
  .tryEnqueue sampleHost none ::
    ([.gated, .checked, .admitted, .timed now, .counting, .granted, .claiming now,
      .sending].map fun phase ↦ .caller ⟨sampleHost, none, phase⟩)

def spawnActs : List Act :=
  [.receive, .permit, .issuance ⟨sampleHost, .begun⟩, .issuance ⟨sampleHost, .marked⟩]

end Temps.Proxy.OnDemandCert
