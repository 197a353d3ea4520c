import Mathlib.Data.List.DropRight
import Mathlib.Data.List.Sort

namespace Temps.Dns

inductive RecordType where
  | a
  | aaaa
  | srv
  | cname
  deriving DecidableEq

def RecordType.asStr : RecordType → String
  | .a => "A"
  | .aaaa => "AAAA"
  | .srv => "SRV"
  | .cname => "CNAME"

inductive OwnerKind where
  | serviceMember
  | serviceRole
  | node
  | static
  | deployment
  deriving DecidableEq

def OwnerKind.asStr : OwnerKind → String
  | .serviceMember => "service_member"
  | .serviceRole => "service_role"
  | .node => "node"
  | .static => "static"
  | .deployment => "deployment"

inductive DnsRegistryError where
  | validation (message : String)
  | invalidIp (fqdn value : String)
  | ackTooHigh (nodeId acked current : ℤ)
  deriving DecidableEq

inductive IpFamily where
  | v4
  | v6
  deriving DecidableEq

structure EndpointDraft where
  fqdn : String
  recordType : RecordType
  targetIp : Option String
  targetPort : Option ℤ
  ttl : ℤ
  ownerKind : OwnerKind
  ownerId : ℤ
  nodeId : Option ℤ
  deriving DecidableEq

/-- A row of `service_endpoints`. -/
structure Endpoint where
  id : ℤ
  fqdn : String
  recordType : RecordType
  targetIp : Option String
  targetPort : Option ℤ
  ttl : ℤ
  ownerKind : OwnerKind
  ownerId : ℤ
  nodeId : Option ℤ
  generation : ℤ
  deriving DecidableEq

/-- What the registry takes from its surroundings: the white space of the standard library, its
parser of addresses, the quoted form of the first 80 bytes of a text, and the order of the rows by
name, type and id under the collation of the database. -/
structure Platform where
  isWhitespace : Char → Bool
  parseIp : String → Option IpFamily
  debugTruncated : String → String
  order : Endpoint → Endpoint → Bool

namespace EndpointDraft

variable (p : Platform) (d : EndpointDraft)

def validateAddress (family : IpFamily) (record protocol : String) :
    Except DnsRegistryError Unit :=
  match d.targetIp with
  | none => .error (.validation (record ++ " record for " ++ d.fqdn ++ " requires target_ip"))
  | some ip =>
    match p.parseIp ip with
    | none => .error (.invalidIp d.fqdn ip)
    | some found =>
      if found = family then .ok ()
      else .error (.validation
        (record ++ " record for " ++ d.fqdn ++ " requires " ++ protocol ++ ", got " ++ ip))

def validate : Except DnsRegistryError Unit :=
  if d.fqdn.toList.all p.isWhitespace then .error (.validation "fqdn cannot be empty")
  else if 253 < d.fqdn.utf8ByteSize then
    .error (.validation
      ("fqdn " ++ p.debugTruncated d.fqdn ++ " exceeds 253 chars (RFC 1035)"))
  else if d.ttl ≤ 0 ∨ 86400 < d.ttl then
    .error (.validation
      ("ttl " ++ toString d.ttl ++ " out of range (1..=86400) for fqdn " ++ d.fqdn))
  else match d.recordType with
    | .a => d.validateAddress p .v4 "A" "IPv4"
    | .aaaa => d.validateAddress p .v6 "AAAA" "IPv6"
    | .srv | .cname =>
      if (d.targetIp.getD "").isEmpty then
        .error (.validation
          (d.recordType.asStr ++ " record for " ++ d.fqdn ++ " requires non-empty target"))
      else .ok ()

end EndpointDraft

/-- The endpoint rows with the sequence of their ids, the counter of `dns_generation`, and the
tables that own the rows. -/
structure Registry where
  generation : ℤ
  endpoints : List Endpoint
  nextId : ℤ
  serviceMembers : List ℤ
  externalServices : List ℤ

namespace Registry

variable (p : Platform) (r : Registry)

def upsert (generation : ℤ) (r : Registry) (d : EndpointDraft) : Registry :=
  let row (id : ℤ) : Endpoint := ⟨id, d.fqdn, d.recordType, d.targetIp, d.targetPort, d.ttl,
    d.ownerKind, d.ownerId, d.nodeId, generation⟩
  let clashes (e : Endpoint) : Bool :=
    e.fqdn = d.fqdn ∧ e.recordType = d.recordType ∧ e.targetIp = d.targetIp ∧ d.targetIp ≠ none
  if r.endpoints.any clashes then
    { r with endpoints := r.endpoints.map fun e ↦ if clashes e then row e.id else e }
  else { r with endpoints := r.endpoints ++ [row r.nextId], nextId := r.nextId + 1 }

def ownedBy (ownerKind : OwnerKind) (ownerId : ℤ) (e : Endpoint) : Bool :=
  e.ownerKind = ownerKind ∧ e.ownerId = ownerId

def checkDrafts (ownerKind : OwnerKind) (ownerId : ℤ) :
    List EndpointDraft → Except DnsRegistryError Unit
  | [] => .ok ()
  | d :: rest => do
    d.validate p
    if d.ownerKind ≠ ownerKind ∨ d.ownerId ≠ ownerId then
      .error (.validation
        ("draft owner (" ++ d.ownerKind.asStr ++ ", " ++ toString d.ownerId ++
          ") does not match call args (" ++ ownerKind.asStr ++ ", " ++ toString ownerId ++ ")"))
    checkDrafts ownerKind ownerId rest

def replaceEndpointsForOwner (ownerKind : OwnerKind) (ownerId : ℤ) (drafts : List EndpointDraft) :
    Except DnsRegistryError Registry := do
  checkDrafts p ownerKind ownerId drafts
  let generation := r.generation + 1
  let kept := r.endpoints.filter fun e ↦ !ownedBy ownerKind ownerId e
  pure (drafts.foldl (upsert generation) { r with generation := generation, endpoints := kept })

def deleteWhere (doomed : Endpoint → Bool) : Registry :=
  let kept := r.endpoints.filter fun e ↦ !doomed e
  if kept.length < r.endpoints.length then
    { r with endpoints := kept, generation := r.generation + 1 }
  else { r with endpoints := kept }

def deleteByOwner (ownerKind : OwnerKind) (ownerId : ℤ) : Registry :=
  r.deleteWhere (ownedBy ownerKind ownerId)

def orphaned (e : Endpoint) : Bool :=
  match e.ownerKind with
  | .serviceMember => !r.serviceMembers.contains e.ownerId
  | .serviceRole => !r.externalServices.contains e.ownerId
  | _ => false

def gcOrphanRecords : Registry := r.deleteWhere r.orphaned

def fullZone (endpoints : List Endpoint) : List Endpoint := endpoints.mergeSort p.order

end Registry

/-- `ack_applied`: the new value of `applied_generation`, which never goes down. -/
def ackApplied (nodeId current : ℤ) (stored : Option ℤ) (applied : ℤ) :
    Except DnsRegistryError ℤ :=
  if current < applied then .error (.ackTooHigh nodeId applied current)
  else match stored with
    | some old => .ok (max old applied)
    | none => .ok applied

structure ZoneRecord where
  id : ℤ
  fqdn : String
  recordType : String
  targetIp : Option String
  targetPort : Option ℤ
  ttl : ℤ
  ownerKind : String
  ownerId : ℤ
  nodeId : Option ℤ
  generation : ℤ
  deriving DecidableEq

def Endpoint.toRecord (e : Endpoint) : ZoneRecord :=
  ⟨e.id, e.fqdn, e.recordType.asStr, e.targetIp, e.targetPort, e.ttl, e.ownerKind.asStr, e.ownerId,
    e.nodeId, e.generation⟩

structure ChangeSet where
  generation : ℤ
  fullSnapshot : Bool
  records : List ZoneRecord
  removedIds : List ℤ
  deriving DecidableEq

def normalise (name : String) : List Char :=
  (name.toList.rdropWhile (· = '.')).map Char.toLower

def ZoneRecord.answer (r : ZoneRecord) :
    List Char × List Char × Option (List Char) × Option ℤ :=
  (normalise r.fqdn, r.recordType.toList.map Char.toUpper, r.targetIp.map normalise, r.targetPort)

def deduplicateRecords : List ZoneRecord → List ZoneRecord
  | [] => []
  | r :: rest =>
    if r.answer ∈ rest.map ZoneRecord.answer then deduplicateRecords rest
    else r :: deduplicateRecords rest

structure Zone where
  generation : ℤ
  records : List ZoneRecord
  deriving DecidableEq

namespace Zone

def empty : Zone := ⟨0, []⟩

def replace (generation : ℤ) (records : List ZoneRecord) : Zone :=
  ⟨generation, deduplicateRecords records⟩

def applyDiff (z : Zone) (newGeneration : ℤ) (upserts : List ZoneRecord) (removedIds : List ℤ) :
    Zone :=
  let upsertIds := upserts.map ZoneRecord.id
  let kept := z.records.filter fun r ↦ !removedIds.contains r.id && !upsertIds.contains r.id
  ⟨newGeneration, deduplicateRecords (kept ++ upserts)⟩

/-- `load_from_disk` into a new store; without a readable snapshot the zone is empty. -/
def loadFromDisk : Option Zone → Zone
  | some snap => ⟨snap.generation, deduplicateRecords snap.records⟩
  | none => empty

/-- What a resolver does with the answer to its request for the changes since its generation;
`none` is the answer that it is up to date. -/
def receive (z : Zone) (since : ℤ) (body : ChangeSet) : Option Zone :=
  if body.fullSnapshot then some (replace body.generation body.records)
  else if since < body.generation then
    some (z.applyDiff body.generation body.records body.removedIds)
  else none

end Zone

end Temps.Dns
