import Temps.LogAggregator.Services.Compactor
import Temps.LogAggregator.Store.LogQuery

namespace Temps.LogAggregator.Store

open Lib.Octets Lib.Unicode LogAggregator.Types Chunk
open Temps.LogAggregator.Services.Compactor (Objects readChunk readChunkRange)
open Services.Seal ManifestRepo TextFilter

variable {J : Type}

structure SearchBudget where
  parallel : ℕ
  batch : ℕ
  parallel_pos : 0 < parallel
  batch_pos : 0 < batch

def SearchBudget.default : SearchBudget := ⟨16, 64, by decide, by decide⟩

/-- The unsealed lines of a container, oldest first, in segments. -/
structure Head (J : Type) where
  identity : ChunkIdentity
  segments : List (List (LogLine J))

namespace Head

variable (head : Head J)

def lines : List (LogLine J) := head.segments.flatten

def iterRev : List (LogLine J × ℕ) := head.lines.zipIdx.reverse

/-- The statistics that the writer keeps of the buffer, as labels; a buffer without lines has
none. -/
def summaryLabels : Option ChunkLabels :=
  let stats := head.lines.foldl Stats.push Stats.empty
  match stats.minTs, stats.maxTs with
  | some startedAt, some endedAt =>
    some { head.identity with
      startedAt := startedAt
      endedAt := endedAt
      lineCount := head.lines.length
      levelMask := stats.levelMask
      levelCounts := stats.levelCounts }
  | _, _ => none

end Head

/-- The manifests, the objects of the bucket and the heads of the writer, one for a container. -/
structure ChunkStore (J : Type) where
  platform : Platform J
  decodeV1 : Bytes → Except LogAggregatorError (List (DecodedLine J))
  manifests : Table
  objects : Objects
  heads : List (Head J)
  heads_nodup : (heads.map (·.identity.containerId)).Nodup

structure LogLineRecord (J : Type) where
  timestamp : ℤ
  projectId : Option ℤ
  externalServiceId : Option ℤ
  env : String
  service : String
  level : LogLevel
  stream : LogStream
  containerId : String
  nodeId : Option ℤ
  nodeName : Option String
  deployId : Option ℤ
  message : Text
  fields : Option J
  lineId : ℤ
  deriving DecidableEq

def LogLineRecord.key (r : LogLineRecord J) : LogLineKey := ⟨r.timestamp, r.containerId, r.lineId⟩

structure LogPage (J : Type) where
  lines : List (LogLineRecord J)
  nextCursor : Option LogLineKey
  scannedBackTo : Option ℤ
  deriving DecidableEq

inductive Candidate
  | sealed (m : Manifest)
  | head (labels : ChunkLabels)

def Candidate.labels : Candidate → ChunkLabels
  | .sealed m => m.labels
  | .head labels => labels

def Candidate.endedAt (c : Candidate) : ℤ := c.labels.endedAt

namespace ChunkStore

def record (labels : ChunkLabels) (line : DecodedLine J) (lineId : ℤ) : LogLineRecord J where
  timestamp := line.ts
  projectId := if labels.externalServiceId.isSome then none else some labels.projectId
  externalServiceId := labels.externalServiceId
  env := labels.env
  service := labels.service
  level := line.level
  stream := line.stream
  containerId := labels.containerId
  nodeId := labels.nodeId
  nodeName := labels.nodeName
  deployId := labels.deployId
  message := line.message
  fields := line.fields
  lineId := lineId

def headLine (line : LogLine J) (index : ℕ) : DecodedLine J :=
  ⟨line.ts, line.level, line.stream, line.msg, line.fields, index % 2 ^ 32⟩

section Scan

variable (u : Tables) (filter : LineFilter J) (labels : ChunkLabels)

def accepts (line : DecodedLine J) (lineId : ℤ) : Bool :=
  !(line.ts < filter.start || filter.stop < line.ts) &&
  !(filter.levelMask &&& levelBit line.level == 0) &&
  filter.keyAllowed ⟨line.ts, labels.containerId, lineId⟩ &&
  textMatches u filter.needle line.message &&
  filter.attrsMatch line.fields

def scanHead : List (LogLine J × ℕ) → List (LogLineRecord J) → List (LogLineRecord J)
  | [], found => found
  | (line, i) :: rest, found =>
    if filter.limit ≤ found.length then found
    else if accepts u filter labels (headLine line i) (LogLineKey.headLineId i) then
      scanHead rest (found ++ [record labels (headLine line i) (LogLineKey.headLineId i)])
    else scanHead rest found

def accepted (seq : ℕ) (lines : List (DecodedLine J)) : List (LogLineRecord J) :=
  (lines.filter fun line ↦
      accepts u filter labels line (LogLineKey.sealedLineId seq line.lineIndex)).map
    fun line ↦ record labels line (LogLineKey.sealedLineId seq line.lineIndex)

def keepNewest {α : Type} (limit : ℕ) (found : List α) : List α :=
  found.drop (found.length - limit)

def mayMatch (m : BlockMeta) : Bool :=
  filter.start ≤ m.lastTs && m.firstTs ≤ filter.stop &&
    decide (m.levelMask &&& filter.levelMask ≠ 0)

end Scan

section Read

variable (store : ChunkStore J) (filter : LineFilter J)

def footer (m : Manifest) : Except LogAggregatorError ChunkFooter :=
  match m.footerOffset, m.footerLen with
  | some off, some len => do
    let bytes ← readChunkRange store.objects m.storageKey off (off + len)
    let trailer ← decodeTrailer bytes
    decodeFooter store.platform.codecs bytes trailer
  | _, _ => .error (.chunkFormat ("manifest " ++ toString m.id ++ " has no footer location"))

def scanBlocks (m : Manifest) :
    List BlockMeta → List (LogLineRecord J) → Except LogAggregatorError (List (LogLineRecord J))
  | [], found => .ok found
  | block :: rest, found =>
    if filter.limit ≤ found.length then .ok found
    else if !mayMatch filter block then scanBlocks m rest found
    else do
      let compressed ← readChunkRange store.objects m.storageKey block.offset
        (block.offset + block.len)
      let lines ← decodeBlock store.platform.codecs compressed block filter.blockFilter
      scanBlocks m rest
        (keepNewest filter.limit (accepted store.platform.tables filter m.labels m.seq lines) ++
          found)

def bloomPasses (bloom : Option Bloom) : Bool :=
  filter.needleEntries.isEmpty ||
    bloom.all fun bloom ↦ bloom.containsAll store.platform.xxh3 filter.needleEntries == some true

def scanSealed (m : Manifest) : Except LogAggregatorError (List (LogLineRecord J)) :=
  if m.formatVersion < 2 then do
    let raw ← readChunk store.objects m.storageKey
    let lines ← store.decodeV1 raw
    return keepNewest filter.limit (accepted store.platform.tables filter m.labels m.seq lines)
  else do
    let footer ← store.footer m
    if !store.bloomPasses filter footer.bloom then return []
    else do
      let found ← store.scanBlocks filter m footer.blocks.reverse []
      return keepNewest filter.limit found

def snapshot (containerId : String) : Option (Head J) :=
  store.heads.find? (·.identity.containerId == containerId)

def scan : Candidate → Except LogAggregatorError (List (LogLineRecord J))
  | .head labels =>
    match store.snapshot labels.containerId with
    | some head => .ok (scanHead store.platform.tables filter labels head.iterRev [])
    | none => .ok []
  | .sealed m => store.scanSealed filter m

end Read

def headCandidates (store : ChunkStore J) (query : LogQuery J) (filter : LineFilter J) :
    List ChunkLabels :=
  ((store.heads.filterMap Head.summaryLabels).filter fun labels ↦
    labelsMatch labels query &&
    !(labels.endedAt < filter.start || filter.stop < labels.startedAt) &&
    decide (labels.levelMask &&& filter.levelMask ≠ 0)).insertionSort
      fun l l' ↦ l'.endedAt ≤ l.endedAt

def sealedBatch (store : ChunkStore J) (budget : SearchBudget) (query : LogQuery J)
    (filter : LineFilter J) (after : Option ManifestCursor) : List Manifest :=
  candidates store.manifests { query with endTime := filter.stop } after budget.batch

end ChunkStore

structure Walk where
  heads : List ChunkLabels
  sealed : List Manifest
  sealedExhausted : Bool
  sealedCursor : Option ManifestCursor

namespace Walk

variable (walk : Walk)

def nextEndedAt : Option ℤ :=
  match walk.heads.head?.map (·.endedAt), walk.sealed.head?.map (·.labels.endedAt) with
  | some a, some b => some (max a b)
  | a, b => a.or b

def takeHead : Bool :=
  match walk.heads, walk.sealed with
  | h :: _, m :: _ => m.labels.endedAt ≤ h.endedAt
  | _ :: _, [] => true
  | [], _ => false

def pop : Option (Candidate × Walk) :=
  if walk.takeHead then
    match walk.heads with
    | h :: heads => some (.head h, { walk with heads := heads })
    | [] => none
  else
    match walk.sealed with
    | m :: sealed => some (.sealed m, { walk with
        sealed := sealed
        sealedCursor := some ⟨m.labels.endedAt, m.id⟩ })
    | [] => none

def popMany : ℕ → Walk → List Candidate × Walk
  | 0, walk => ([], walk)
  | n + 1, walk =>
    match walk.pop with
    | some (c, next) =>
      let more := popMany n next
      (c :: more.1, more.2)
    | none => ([], walk)

end Walk

/-- A key above which nothing at `e` or before it is looked for. -/
def resumeCursor (e : ℤ) : LogLineKey := ⟨e, "\uffff", 2 ^ 63 - 1⟩

namespace ChunkStore

def push (pending : List (LogLineRecord J)) (r : LogLineRecord J) : List (LogLineRecord J) :=
  pending.orderedInsert (fun a b ↦ b.key ≤ a.key) r

def promote (limit : ℕ) (horizon : Option ℤ) :
    List (LogLineRecord J) → List (LogLineRecord J) →
      List (LogLineRecord J) × List (LogLineRecord J)
  | [], finals => ([], finals)
  | top :: rest, finals =>
    if horizon.all (· < top.timestamp) then
      if limit ≤ finals.length + 1 then (rest, finals ++ [top])
      else promote limit horizon rest (finals ++ [top])
    else (top :: rest, finals)

def collect (pending : List (LogLineRecord J)) :
    List (Except LogAggregatorError (List (LogLineRecord J))) →
      Except LogAggregatorError (List (LogLineRecord J))
  | [] => .ok pending
  | .ok found :: rest => collect (found.foldl push pending) rest
  | .error (.chunkNotFound _) :: rest => collect pending rest
  | .error e :: _ => .error e

section Search

variable (store : ChunkStore J) (budget : SearchBudget) (query : LogQuery J)
  (filter : LineFilter J) (overBudget : ℕ → Bool)

def refill (walk : Walk) : Walk :=
  if walk.sealed.isEmpty && !walk.sealedExhausted then
    let batch := store.sealedBatch budget query filter walk.sealedCursor
    { walk with
      sealed := batch
      sealedExhausted := batch.length < budget.batch }
  else walk

/-- The loop of `search`; `overBudget` says in which rounds the time or the bytes are used up. -/
def searchLoop : ℕ → ℕ → Walk → List (LogLineRecord J) → List (LogLineRecord J) →
    Option (Except LogAggregatorError (LogPage J))
  | 0, _, _, _, _ => none
  | fuel + 1, round, walk, pending, finals =>
    let walk := store.refill budget query filter walk
    let horizon := walk.nextEndedAt
    let promoted := promote query.limit horizon pending finals
    if query.limit ≤ promoted.2.length then
      some (.ok ⟨promoted.2, promoted.2.getLast?.map LogLineRecord.key, none⟩)
    else
      match horizon with
      | none => some (.ok ⟨promoted.2, none, none⟩)
      | some h =>
        if overBudget round && h < filter.stop then
          some (.ok ⟨promoted.2, some (resumeCursor h), some h⟩)
        else
          let batch := walk.popMany budget.parallel
          match collect promoted.1 (batch.1.map (store.scan filter)) with
          | .ok pending => searchLoop fuel (round + 1) batch.2 pending promoted.2
          | .error e => some (.error e)

def search : Option (Except LogAggregatorError (LogPage J)) :=
  match query.validate with
  | .error e => some (.error e)
  | .ok () =>
    let filter := LineFilter.compile store.platform.tables store.platform.xxh3 query
    store.searchLoop budget query filter overBudget
      (store.heads.length + store.manifests.rows.length + 1) 0
      ⟨store.headCandidates query filter, [], false, none⟩ [] []

end Search

/-- The pages of a query from the cursor on, the first of them being number `page`. -/
inductive Paged (store : ChunkStore J) (budget : SearchBudget) (query : LogQuery J)
    (overBudget : ℕ → ℕ → Bool) : ℕ → Option LogLineKey → List (LogPage J) → Prop
  | last {page : ℕ} {cursor : Option LogLineKey} {found : LogPage J}
      (hsearch : store.search budget { query with before := cursor } (overBudget page) =
        some (.ok found))
      (hcursor : found.nextCursor = none) : Paged store budget query overBudget page cursor [found]
  | more {page : ℕ} {cursor : Option LogLineKey} {found : LogPage J} {next : LogLineKey}
      {rest : List (LogPage J)}
      (hsearch : store.search budget { query with before := cursor } (overBudget page) =
        some (.ok found))
      (hcursor : found.nextCursor = some next)
      (hrest : Paged store budget query overBudget (page + 1) (some next) rest) :
      Paged store budget query overBudget page cursor (found :: rest)

end ChunkStore

end Temps.LogAggregator.Store
