import Mathlib.Data.Prod.Lex
import Mathlib.Data.String.Basic
import Temps.LogAggregator.Chunk.Decoder
import Temps.LogAggregator.Store.Manifest
import Temps.LogAggregator.Store.TextFilter

namespace Temps.LogAggregator.Store

open Lib.Octets Lib.Unicode Lib.Utf8 LogAggregator.Types Chunk ManifestRepo TextFilter

structure LogLineKey where
  timestamp : ℤ
  containerId : String
  lineId : ℤ
  deriving DecidableEq

namespace LogLineKey

def lex (key : LogLineKey) : ℤ ×ₗ String ×ₗ ℤ :=
  toLex (key.timestamp, toLex (key.containerId, key.lineId))

theorem lex_injective : Function.Injective lex := by
  rintro ⟨timestamp, containerId, lineId⟩ ⟨timestamp', containerId', lineId'⟩ h
  simpa [lex] using h

instance : LinearOrder LogLineKey := LinearOrder.lift' lex lex_injective

variable {b a : LogLineKey}

theorem lt_iff : a < b ↔ a.timestamp < b.timestamp ∨
    a.timestamp = b.timestamp ∧ (a.containerId < b.containerId ∨
      a.containerId = b.containerId ∧ a.lineId < b.lineId) := by
  have h : a < b ↔ a.lex < b.lex := Iff.rfl
  rw [h, lex, lex, Prod.Lex.toLex_lt_toLex, Prod.Lex.toLex_lt_toLex]

theorem timestamp_le (h : a ≤ b) : a.timestamp ≤ b.timestamp := by
  rcases h.lt_or_eq with hlt | rfl
  · rcases lt_iff.mp hlt with hts | ⟨hts, -⟩ <;> exact hts.le
  · exact le_rfl

def lineIndexBits : ℕ := 20

def headLineIdBase : BitVec 64 := BitVec.ofNat 64 (2 ^ 63 - 1) >>> 1

def sealedLineId (chunkId lineIndex : ℕ) : ℤ :=
  (BitVec.ofNat 64 chunkId <<< lineIndexBits ||| BitVec.ofNat 64 lineIndex).toInt

def headLineId (index : ℕ) : ℤ := (headLineIdBase ||| BitVec.ofNat 64 index).toInt

end LogLineKey

inductive LogAccessScope
  | all
  | allowed (projectIds externalServiceIds : List ℤ)

inductive LogSourceKind
  | collected
  | application
  | service

structure LogSelection where
  projectIds : List ℤ
  externalServiceIds : List ℤ

/-- A resolved query. An attribute predicate is a function of the extracted fields of a line. -/
structure LogQuery (J : Type) where
  scope : LogAccessScope
  startTime : ℤ
  endTime : ℤ
  source : LogSourceKind
  selection : Option LogSelection
  levels : List LogLevel
  envs : List String
  services : List String
  containerIds : List String
  nodeIds : List ℤ
  deployId : Option ℤ
  text : Option Text
  before : Option LogLineKey
  limit : ℕ
  attrs : List (Option J → Bool)
  chunkSeqs : Option (List ℤ)

def maxPageSize : ℕ := 1000

namespace LogQuery

variable {J : Type}

def oversized (values : List String) : Bool :=
  100 < values.length || values.any (256 < ·.utf8ByteSize)

def selected (query : LogQuery J) : ℕ :=
  (query.selection.map fun s ↦ s.projectIds.length + s.externalServiceIds.length).getD 0

def validate (query : LogQuery J) : Except LogAggregatorError Unit :=
  if query.endTime ≤ query.startTime then
    .error (.validation "end_time must be after start_time")
  else if query.limit = 0 ∨ maxPageSize < query.limit then
    .error (.validation ("Page size must be between 1 and " ++ toString maxPageSize))
  else if query.text.any (fun text ↦ 1024 < (encode text).length) then
    .error (.validation "Search text must be 1024 characters or fewer")
  else if oversized query.envs || oversized query.services || oversized query.containerIds then
    .error (.validation "Too many or oversized log filters")
  else if 1000 < query.selected ∨ 100 < query.nodeIds.length then
    .error (.validation "Too many log filters")
  else .ok ()

end LogQuery

section Labels

variable {J : Type} (labels : ChunkLabels) (query : LogQuery J)

def resourceIn (projectIds externalServiceIds : List ℤ) : Bool :=
  match labels.externalServiceId with
  | some id => id ∈ externalServiceIds
  | none => labels.projectId ∈ projectIds

def unlessEmpty {α : Type} [DecidableEq α] (values : List α) (value : Option α) : Bool :=
  values.isEmpty || value.any (· ∈ values)

def labelsMatch : Bool :=
  let external := labels.externalServiceId
  (match query.scope with
    | .all => true
    | .allowed projectIds externalServiceIds => resourceIn labels projectIds externalServiceIds) &&
  (match query.source with
    | .collected => true
    | .application => external.isNone
    | .service => external.isSome) &&
  (match query.selection with
    | none => true
    | some s => resourceIn labels s.projectIds s.externalServiceIds) &&
  unlessEmpty query.envs (some labels.env) &&
  unlessEmpty query.services (some labels.service) &&
  unlessEmpty query.containerIds (some labels.containerId) &&
  unlessEmpty query.nodeIds labels.nodeId &&
  query.deployId.all fun deploy ↦ labels.deployId == some deploy

/-- `external_service_id IS NULL AND project_id = ANY(..) OR external_service_id = ANY(..)`. -/
def resourceCondition (projectIds externalServiceIds : List ℤ) : Bool :=
  if projectIds.isEmpty && externalServiceIds.isEmpty then false
  else (labels.externalServiceId.isNone && decide (labels.projectId ∈ projectIds)) ||
    labels.externalServiceId.any (· ∈ externalServiceIds)

def scopeCondition : Bool :=
  match query.scope with
  | .all => true
  | .allowed projectIds externalServiceIds =>
    resourceCondition labels projectIds externalServiceIds

def sourceCondition : Bool :=
  match query.source with
  | .application => labels.externalServiceId.isNone
  | .service => labels.externalServiceId.isSome
  | .collected => true

def selectionCondition : Bool :=
  match query.selection with
  | none => true
  | some s => resourceCondition labels s.projectIds s.externalServiceIds

def levelMaskAll : ℕ := 31

def levelMaskFor (levels : List LogLevel) : ℕ :=
  if levels.isEmpty then levelMaskAll
  else (levels.map levelBit).foldl (· ||| ·) 0

def timeCondition (m : Manifest) (start stop : ℤ) : Bool :=
  m.labels.startedAt ≤ column stop && column start ≤ m.labels.endedAt

def levelCondition (m : Manifest) (levels : List LogLevel) : Bool :=
  m.labels.levelMask &&& levelMaskFor levels ≠ 0

/-- The `WHERE` conditions of `candidates`, for one row. -/
def buildConditions (m : Manifest) : Bool :=
  m.live &&
  timeCondition m query.startTime query.endTime &&
  scopeCondition m.labels query &&
  sourceCondition m.labels query &&
  selectionCondition m.labels query &&
  unlessEmpty query.envs (some m.labels.env) &&
  unlessEmpty query.services (some m.labels.service) &&
  unlessEmpty query.containerIds (some m.labels.containerId) &&
  unlessEmpty query.nodeIds m.labels.nodeId &&
  query.deployId.all (fun deploy ↦ m.labels.deployId == some deploy) &&
  query.chunkSeqs.all (fun seqs ↦ decide ((m.seq : ℤ) ∈ seqs)) &&
  levelCondition m query.levels

end Labels

structure ManifestCursor where
  endedAt : ℤ
  id : ℕ

/-- `(ended_at, id) < (after.ended_at, after.id)`. -/
def cursorCondition (after : ManifestCursor) (m : Manifest) : Bool :=
  m.labels.endedAt < after.endedAt || m.labels.endedAt == after.endedAt && m.id < after.id

/-- `ORDER BY ended_at DESC, id DESC`. -/
def newerRow (m m' : Manifest) : Prop :=
  m'.labels.endedAt < m.labels.endedAt ∨ m'.labels.endedAt = m.labels.endedAt ∧ m'.id ≤ m.id

instance : DecidableRel newerRow := fun _ _ ↦ inferInstanceAs (Decidable (_ ∨ _))

def candidates {J : Type} (table : Table) (query : LogQuery J) (after : Option ManifestCursor)
    (limit : ℕ) : List Manifest :=
  ((table.rows.filter fun m ↦ buildConditions query m &&
    after.all (cursorCondition · m)).insertionSort newerRow).take limit

structure LineFilter (J : Type) where
  start : ℤ
  stop : ℤ
  levelMask : ℕ
  needle : Option Text
  needleEntries : List UInt64
  before : Option LogLineKey
  limit : ℕ
  attrs : List (Option J → Bool)

namespace LineFilter

variable {J : Type}

def compile (u : Tables) (xxh3 : Xxh3) (query : LogQuery J) : LineFilter J where
  start := query.startTime
  stop := (query.before.map fun b ↦ min query.endTime b.timestamp).getD query.endTime
  levelMask := levelMaskFor query.levels
  needle := needleOf u query.text
  needleEntries := TextFilter.needleEntries u xxh3 (needleOf u query.text)
  before := query.before
  limit := max query.limit 1
  attrs := query.attrs

variable (filter : LineFilter J)

def attrsMatch (fields : Option J) : Bool := filter.attrs.all fun p ↦ p fields

def blockFilter : BlockFilter := ⟨some filter.start, some filter.stop, filter.levelMask⟩

def keyAllowed (key : LogLineKey) : Bool := filter.before.all (key < ·)

end LineFilter

end Temps.LogAggregator.Store
