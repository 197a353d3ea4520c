import Temps.Dns.Registry
import Temps.Lib.Machine

namespace Temps.Dns.Sync

open Lib.Machine List

/-- How far a `tick_once` has come. The control plane answers the request for changes in up to three
statements: the check of the counter, its second reading, and the reading of the rows. -/
inductive Tick where
  | idle
  | asked (since : ℤ)
  | sending (since : ℤ)
  | labelled (since generation : ℤ)
  | answered (since : ℤ) (body : ChangeSet)
  | waiting (generation : ℤ)
  | stored (generation : ℤ)
  deriving DecidableEq

/-- The registry with the contents its zone has had, what the control plane has stored for the node
and the acknowledgements still on their way, and the resolver of the node with its disk, the zones
it has held and its current tick. -/
structure State where
  registry : Registry
  log : List (ℤ × List Endpoint)
  applied : Option ℤ
  acks : List ℤ
  zone : Zone
  disk : Option Zone
  held : List (List ZoneRecord)
  tick : Tick

inductive Act where
  | replace (ownerKind : OwnerKind) (ownerId : ℤ) (drafts : List EndpointDraft)
  | delete (ownerKind : OwnerKind) (ownerId : ℤ)
  | gc
  | owners (serviceMembers externalServices : List ℤ)
  | ask
  | check
  | label
  | read
  | deliver (persisted : Bool)
  | ackHandle (generation : ℤ)
  | ackReply
  | giveUp
  | restart

variable (p : Platform) (nodeId : ℤ)

namespace State

variable (s : State)

def write (r : Registry) : State :=
  { s with
    registry := r
    log := if r.generation = s.registry.generation then s.log
      else (r.generation, r.endpoints) :: s.log }

def apply (z : Zone) (persisted : Bool) : State :=
  { s with
    zone := z
    disk := if persisted then some z else s.disk
    held := z.records :: s.held
    acks := z.generation :: s.acks
    tick := .waiting z.generation }

/-- `tick` moves on if it waits for the acknowledgement of this generation. -/
def answerAck (generation : ℤ) (next : Tick) : Tick :=
  if s.tick = .waiting generation then next else s.tick

def step : Act → Option State
  | .replace ownerKind ownerId drafts =>
    match s.registry.replaceEndpointsForOwner p ownerKind ownerId drafts with
    | .ok r => some (s.write r)
    | .error _ => some s
  | .delete ownerKind ownerId => some (s.write (s.registry.deleteByOwner ownerKind ownerId))
  | .gc => some (s.write s.registry.gcOrphanRecords)
  | .owners serviceMembers externalServices =>
    some { s with registry := { s.registry with
      serviceMembers := serviceMembers
      externalServices := externalServices } }
  | .ask =>
    match s.tick with
    | .idle => some { s with tick := .asked s.zone.generation }
    | _ => none
  | .check =>
    match s.tick with
    | .asked since =>
      if 0 < since ∧ s.registry.generation ≤ since then
        some { s with tick := .answered since ⟨s.registry.generation, false, [], []⟩ }
      else some { s with tick := .sending since }
    | _ => none
  | .label =>
    match s.tick with
    | .sending since => some { s with tick := .labelled since s.registry.generation }
    | _ => none
  | .read =>
    match s.tick with
    | .labelled since generation =>
      some { s with tick := .answered since ⟨generation, true,
        (Registry.fullZone p s.registry.endpoints).map Endpoint.toRecord, []⟩ }
    | _ => none
  | .deliver persisted =>
    match s.tick with
    | .answered since body =>
      match s.zone.receive since body with
      | none => some { s with tick := .idle }
      | some z => some (s.apply z persisted)
    | _ => none
  | .ackHandle generation =>
    if generation ∈ s.acks then
      match ackApplied nodeId s.registry.generation s.applied generation with
      | .ok v => some { s with
          applied := some v
          acks := s.acks.erase generation
          tick := s.answerAck generation (.stored generation) }
      | .error _ => some { s with
          acks := s.acks.erase generation
          tick := s.answerAck generation .idle }
    else none
  | .ackReply =>
    match s.tick with
    | .stored _ => some { s with tick := .idle }
    | _ => none
  | .giveUp => some { s with tick := .idle }
  | .restart =>
    let z := Zone.loadFromDisk s.disk
    some { s with zone := z, held := z.records :: s.held, tick := .idle }

/-- The step ends a tick all of whose requests succeeded: it brings the answer that the zone is up
to date, or the answer to the acknowledgement. -/
def Completes : Act → Prop
  | .deliver _ => ∃ since body, s.tick = .answered since body ∧ s.zone.receive since body = none
  | .ackReply => ∃ generation, s.tick = .stored generation
  | _ => False

/-- A request for changes that is going to be answered with "up to date" comes from a node whose
generation is already stored. -/
def Repaired : Act → Prop
  | .check => ∀ since, s.tick = .asked since →
      since ≤ 0 ∨ since < s.registry.generation ∨ s.applied = some since
  | _ => True

/-- The node has held the complete zone of a generation from `v` on. -/
def HasHeld (v : ℤ) : Prop :=
  ∃ generation endpoints, (generation, endpoints) ∈ s.log ∧ v ≤ generation ∧
    deduplicateRecords ((Registry.fullZone p endpoints).map Endpoint.toRecord) ∈ s.held

end State

def fresh (r : Registry) : State :=
  ⟨r, [(r.generation, r.endpoints)], none, [], Zone.empty, none, [], .idle⟩

/-- A write leaves the zone alone or gives it a new generation. -/
def Bumps (r r' : Registry) : Prop :=
  r'.generation = r.generation ∧ r'.endpoints = r.endpoints ∨ r'.generation = r.generation + 1

theorem upsert_generation (g : ℤ) (drafts : List EndpointDraft) (r : Registry) :
    (drafts.foldl (Registry.upsert g) r).generation = r.generation := by
  induction drafts generalizing r with
  | nil => rfl
  | cons d rest ih =>
    rw [foldl_cons, ih, Registry.upsert]
    split <;> rfl

theorem replace_bumps {r r' : Registry} {ownerKind : OwnerKind} {ownerId : ℤ}
    {drafts : List EndpointDraft}
    (h : r.replaceEndpointsForOwner p ownerKind ownerId drafts = .ok r') : Bumps r r' := by
  rw [Registry.replaceEndpointsForOwner] at h
  cases hcheck : Registry.checkDrafts p ownerKind ownerId drafts with
  | error e => simp [hcheck, bind, Except.bind] at h
  | ok _ =>
    simp only [hcheck, bind, Except.bind, pure, Except.pure, Except.ok.injEq] at h
    right
    rw [← h, upsert_generation]

theorem deleteWhere_bumps (r : Registry) (doomed : Endpoint → Bool) :
    Bumps r (r.deleteWhere doomed) := by
  rw [Registry.deleteWhere]
  split
  case isTrue => exact .inr rfl
  case isFalse hsame =>
    refine .inl ⟨rfl, ?_⟩
    exact filter_sublist.eq_of_length_le (Nat.le_of_not_lt hsame)

end Temps.Dns.Sync
