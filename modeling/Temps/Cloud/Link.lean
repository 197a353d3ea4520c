import Temps.Cloud.Spool

namespace Temps.Cloud

def incomingBatchCapacity : ℕ := 8

/-- The link a span is recorded under: the origin, the tenant, and the number of the stretch of time
without a disconnect, a switch-off or a change of origin or tenant. -/
structure Bound (O T : Type*) where
  origin : O
  tenant : T
  epoch : ℕ
  deriving DecidableEq

structure Span (O T σ : Type*) where
  payload : σ
  bound : Bound O T
  deriving DecidableEq

/-- The persisted link state. The credential stands for the tenant it was issued to. -/
structure EnrollmentState (O T ι S : Type*) where
  instanceId : ι
  baseUrl : O
  token : Option T
  pendingSubmission : Option (List S)

namespace EnrollmentState

variable {O T ι S : Type*} (state : EnrollmentState O T ι S)

def isLinked : Bool := state.token.isSome

def unlink : EnrollmentState O T ι S := { state with token := none, pendingSubmission := none }

end EnrollmentState

structure IncomingBatch (S : Type*) where
  generation : ℕ
  spans : List S

/-- A submission that left the instance, with the link it was sent over. -/
structure Delivery (O T σ : Type*) where
  bound : Bound O T
  spans : List (Span O T σ)
  deriving DecidableEq

structure EnrollResponse (T ι : Type*) where
  tenantId : T
  instanceId : Option ι

/-- How the shipping of a pending submission ends: before the request, or with a reply. -/
inductive ShipResult where
  | unsent
  | acknowledged
  | failed
  deriving DecidableEq

/-- The link with its buffers. Every save succeeds, so the state on disk is the one in memory. The
number of the current stretch and the deliveries made so far are recorded on the side. -/
structure CloudLink (O T ι σ : Type*) where
  state : Option (EnrollmentState O T ι (Span O T σ))
  telemetryEnabled : Bool
  generation : ℕ
  incoming : List (IncomingBatch (Span O T σ))
  spool : Spool (Span O T σ)
  pending : Option (List (Span O T σ))
  epoch : ℕ
  sent : List (Delivery O T σ)

inductive Act (O T ι σ : Type*) where
  | configure (backend : O) (freshId : ι)
  | enroll (firstLinkOnly : Bool) (response : Option (EnrollResponse T ι))
  | disconnect
  | setFeatureSwitches (telemetry : Bool)
  | record (payloads : List σ)
  | status
  | flush (result : ShipResult)
  | restart

namespace CloudLink

variable {O T ι σ : Type*} [DecidableEq O] [DecidableEq T] [DecidableEq ι] (bytes : σ → ℕ)

def fresh : CloudLink O T ι σ where
  state := none
  telemetryEnabled := false
  generation := 0
  incoming := []
  spool := .empty
  pending := none
  epoch := 0
  sent := []

variable (s : CloudLink O T ι σ)

def bound : Option (Bound O T) :=
  s.state.bind fun state ↦ state.token.map fun tenant ↦ ⟨state.baseUrl, tenant, s.epoch⟩

def linked : Bool := s.bound.isSome

def tenant : Option T := s.state.bind EnrollmentState.token

def persistPending (pending : Option (List (Span O T σ))) : CloudLink O T ι σ :=
  { s with state := s.state.map fun state ↦ { state with pendingSubmission := pending } }

def configure (backend : O) (freshId : ι) : CloudLink O T ι σ :=
  match s.state with
  | none =>
    { s with
      state := some ⟨freshId, backend, none, none⟩
      generation := s.generation + 1 }
  | some state =>
    if state.baseUrl = backend then { s with generation := s.generation + 1 }
    else if state.isLinked then s
    else
      { s with
        state := some { state.unlink with baseUrl := backend }
        spool := .empty
        pending := none
        generation := s.generation + 1
        epoch := s.epoch + 1 }

/-- Whether an enrollment is written: not over a link if it is for a first link only, and not with
another instance identity while the instance is linked. -/
def enrolls (firstLinkOnly : Bool) (response : EnrollResponse T ι)
    (state : EnrollmentState O T ι (Span O T σ)) : Bool :=
  !(firstLinkOnly && state.isLinked) &&
    !(state.isLinked && response.instanceId.any fun id ↦ id ≠ state.instanceId)

def enroll (firstLinkOnly : Bool) (response : Option (EnrollResponse T ι)) : CloudLink O T ι σ :=
  match s.state, response with
  | some state, some response =>
    if enrolls firstLinkOnly response state then
      { s with
        state := some
          { state with
            instanceId := response.instanceId.getD state.instanceId
            token := some response.tenantId }
        generation := s.generation + 1
        epoch := if state.token = some response.tenantId then s.epoch else s.epoch + 1 }
    else s
  | _, _ => s

def disconnect : CloudLink O T ι σ :=
  { s with
    state := s.state.map EnrollmentState.unlink
    spool := .empty
    pending := none
    generation := s.generation + 1
    epoch := s.epoch + 1 }

def setFeatureSwitches (telemetry : Bool) : CloudLink O T ι σ :=
  if telemetry then { s with telemetryEnabled := true }
  else
    { s.persistPending none with
      telemetryEnabled := false
      generation := if s.telemetryEnabled then s.generation + 1 else s.generation
      incoming := []
      spool := .empty
      pending := none
      epoch := s.epoch + 1 }

def record (payloads : List σ) : CloudLink O T ι σ :=
  match s.bound with
  | none => s
  | some bound =>
    if payloads = [] ∨ s.telemetryEnabled = false then s
    else if s.incoming.length < incomingBatchCapacity then
      { s with incoming := s.incoming ++ [⟨s.generation, payloads.map fun p ↦ ⟨p, bound⟩⟩] }
    else s

def drained : Spool (Span O T σ) :=
  s.incoming.foldl
    (fun spool batch ↦
      if batch.generation = s.generation ∧ s.linked = true then
        spool.push defaultCapacity (fun span ↦ bytes span.payload) batch.spans
      else spool)
    s.spool

def drainIncoming : CloudLink O T ι σ := { s with incoming := [], spool := s.drained bytes }

def prepare : CloudLink O T ι σ :=
  match s.pending with
  | some _ => s
  | none =>
    match s.spool.take batchSize with
    | ([], _) => s
    | (spans, rest) =>
      { s.persistPending (some spans) with
        spool := rest
        pending := some spans }

def ship (result : ShipResult) : CloudLink O T ι σ :=
  match s.bound, s.pending with
  | some bound, some spans =>
    match result with
    | .unsent => s
    | .failed => { s with sent := s.sent ++ [⟨bound, spans⟩] }
    | .acknowledged =>
      { s.persistPending none with
        sent := s.sent ++ [⟨bound, spans⟩]
        pending := none }
  | _, _ => s

def flush (result : ShipResult) : CloudLink O T ι σ :=
  let s := s.drainIncoming bytes
  if s.telemetryEnabled = false then s
  else if s.linked = false then s
  else s.prepare.ship result

def restart : CloudLink O T ι σ :=
  { s with
    telemetryEnabled := false
    generation := 0
    incoming := []
    spool := .empty
    pending := s.state.bind EnrollmentState.pendingSubmission }

def apply : Act O T ι σ → CloudLink O T ι σ
  | .configure backend freshId => s.configure backend freshId
  | .enroll firstLinkOnly response => s.enroll firstLinkOnly response
  | .disconnect => s.disconnect
  | .setFeatureSwitches telemetry => s.setFeatureSwitches telemetry
  | .record payloads => s.record payloads
  | .status => s.drainIncoming bytes
  | .flush result => s.flush bytes result
  | .restart => s.restart

def run (acts : List (Act O T ι σ)) : CloudLink O T ι σ := acts.foldl (apply bytes) s

end CloudLink

end Temps.Cloud
