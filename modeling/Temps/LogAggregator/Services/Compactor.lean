import Temps.Lib.Faults
import Temps.Lib.Greedy
import Temps.LogAggregator.Chunk.Decoder
import Temps.LogAggregator.Services.Seal
import Temps.LogAggregator.Store.Manifest

namespace Temps.LogAggregator.Services.Compactor

open Lib Lib.Faults Lib.Octets LogAggregator.Types Chunk Seal Storage.Keys Store.ManifestRepo

variable {J : Type}

def gcGrace : ℤ := 60 * 60 * 1000000000

def minChunksToCompact : ℕ := 4

def containersPerRun : ℕ := 200

def gcBatch : ℕ := 500

def maxCompactedBytes : ℕ := 64 * 1024 * 1024

def v1Suffix : Text := ".ndjson.zst".toList

abbrev Objects := List (Text × Bytes)

structure World where
  manifests : Table
  objects : Objects

/-- The service, with the code outside of it: the decoder of version 1 objects, the source of fresh
ids, whether the line index records lines or skips them, and the order of rows in the database. -/
structure CompactorService (J : Type) where
  platform : Platform J
  decodeV1 : Bytes → Except LogAggregatorError (List (DecodedLine J))
  newV4 : World → ℕ
  indexes : Bool
  scan : ScanOrder

abbrev Action (α : Type) := Prog World LogAggregatorError α

def writeObject (objects : Objects) (key : Text) (bytes : Bytes) : Objects :=
  (key, bytes) :: objects.filter fun o ↦ o.1 ≠ key

def deleteObject (objects : Objects) (key : Text) : Objects := objects.filter fun o ↦ o.1 ≠ key

def readChunk (objects : Objects) (key : Text) : Except LogAggregatorError Bytes :=
  match objects.lookup key with
  | some bytes => .ok bytes
  | none => .error (.chunkNotFound key)

def readChunkRange (objects : Objects) (key : Text) (start stop : ℕ) :
    Except LogAggregatorError Bytes :=
  if stop ≤ start then .ok [] else do
    let bytes ← readChunk objects key
    return slice bytes start stop

def readBlocks (codecs : Codecs J) (key : Text) (body : Bytes) :
    List BlockMeta → Except LogAggregatorError (List (DecodedLine J))
  | [] => .ok []
  | m :: rest =>
    if body.length < m.offset + m.len then
      .error (.chunkFormat ("block range " ++ toString m.offset ++ ".." ++
        toString (m.offset + m.len) ++ " outside body of " ++ String.ofList key))
    else do
      let lines ← decodeBlock codecs (slice body m.offset (m.offset + m.len)) m BlockFilter.all
      let more ← readBlocks codecs key body rest
      return lines ++ more

def readAllLines (c : CompactorService J) (objects : Objects) (m : Manifest) :
    Except LogAggregatorError (List (DecodedLine J)) :=
  if m.formatVersion < 2 then do
    let raw ← readChunk objects m.storageKey
    c.decodeV1 raw
  else
    match m.footerOffset, m.footerLen with
    | some off, some len => do
      let footerBytes ← readChunkRange objects m.storageKey off (off + len)
      let trailer ← decodeTrailer footerBytes
      let footer ← decodeFooter c.platform.codecs footerBytes trailer
      let body ← readChunkRange objects m.storageKey 0 off
      readBlocks c.platform.codecs m.storageKey body footer.blocks
    | _, _ => .error (.chunkFormat ("manifest " ++ toString m.id ++ " has no footer location"))

section Calls

def onManifests {α : Type} (f : Table → Except LogAggregatorError (α × Table)) : Action α :=
  Prog.call (.database "unavailable") fun w ↦ do
    let (a, t) ← f w.manifests
    return (a, { w with manifests := t })

def queryManifests {α : Type} (f : Table → α) : Action α := onManifests fun t ↦ .ok (f t, t)

def insertManifest (m : ChunkMeta) : Action ℕ := onManifests fun t ↦ t.insert m

def markDeleted (now : ℤ) (ids : List ℕ) : Action Unit :=
  onManifests fun t ↦ .ok ((), t.markDeleted now ids)

def hardDelete (ids : List ℕ) : Action Unit := onManifests fun t ↦ .ok ((), t.hardDelete ids)

def writeChunk (key : Text) (bytes : Bytes) : Action Unit :=
  Prog.call (.chunkWriteFailed key) fun w ↦
    .ok ((), { w with objects := writeObject w.objects key bytes })

def deleteChunk (key : Text) : Action Unit :=
  Prog.call (.chunkDeleteFailed key) fun w ↦
    .ok ((), { w with objects := deleteObject w.objects key })

def readStorage {α : Type} (key : Text) (f : Objects → Except LogAggregatorError α) : Action α :=
  Prog.call (.chunkReadFailed key) fun w ↦ do
    let a ← f w.objects
    return (a, w)

def indexChunk : Action Unit := Prog.call (.database "line index") fun w ↦ .ok ((), w)

def freshId (c : CompactorService J) : Action ℕ := fun w fates ↦ ⟨.returned (c.newV4 w), w, fates⟩

end Calls

def estimatedRawBytes (m : Manifest) : ℕ := m.compressedSizeBytes * 10

def runScale : Greedy.Scale Manifest ℕ where
  start m := estimatedRawBytes m
  add bytes m := bytes + estimatedRawBytes m

def runs (chunks : List Manifest) : List (List Manifest) :=
  (runScale.segments (fun bytes m ↦ maxCompactedBytes < bytes + estimatedRawBytes m) chunks).filter
    fun run ↦ 2 ≤ run.length

def toLogLine (identity : ChunkIdentity) (l : DecodedLine J) : LogLine J where
  ts := l.ts
  stream := l.stream
  level := l.level
  msg := l.message
  fields := l.fields
  containerId := identity.containerId
  service := identity.service
  env := identity.env
  projectId := identity.projectId
  externalServiceId := identity.externalServiceId
  deployId := identity.deployId
  nodeId := identity.nodeId
  nodeName := identity.nodeName

def readRun (c : CompactorService J) : List Manifest → Action (List (DecodedLine J))
  | [] => pure []
  | m :: rest => do
    let lines ← readStorage m.storageKey fun objects ↦ readAllLines c objects m
    let more ← readRun c rest
    return lines ++ more

def mergedLines (identity : ChunkIdentity) (lines : List (DecodedLine J)) : List (LogLine J) :=
  (lines.insertionSort fun l l' ↦ l.ts ≤ l'.ts).map (toLogLine identity)

def compactedKey (calendar : Calendar) (identity : ChunkIdentity) (startedAt : ℤ) : Text :=
  buildStorageKeyV2 calendar identity.projectId identity.externalServiceId identity.env
    identity.service startedAt identity.containerId (some ['c'])

def chunkMeta (id : ℕ) (key : Text) (encoded : EncodedChunk) : ChunkMeta where
  id := id
  labels := encoded.footer.labels
  storageKey := key
  formatVersion := encoded.trailer.version
  footerOffset := encoded.trailer.footerOffset
  footerLen := encoded.trailer.footerLen
  compressedSizeBytes := encoded.bytes.length

def abandon (now : ℤ) (id : ℕ) (key : Text) (e : LogAggregatorError) : Action Unit := do
  markDeleted now [id]
  hardDelete [id]
  let _ ← Prog.attempt (deleteChunk key)
  Prog.fail e

def indexMerged (c : CompactorService J) (now : ℤ) (id : ℕ) (key : Text) : Action Unit := do
  match ← Prog.attempt indexChunk with
  | .error e => abandon now id key e
  | .ok () => if c.indexes then queryManifests fun _ ↦ () else pure ()

def swap (c : CompactorService J) (now : ℤ) (run : List Manifest) (key : Text)
    (encoded : EncodedChunk) : Action Unit := do
  writeChunk key encoded.bytes
  let id ← freshId c
  let _ ← insertManifest (chunkMeta id key encoded)
  indexMerged c now id key
  markDeleted now (run.map Manifest.id)

def mergeRead (c : CompactorService J) (now : ℤ) (run : List Manifest) (identity : ChunkIdentity)
    (lines : List (DecodedLine J)) : Action Unit :=
  match lines with
  | [] => pure ()
  | _ :: _ => do
    let encoded ← Prog.lift (ChunkEncoder.encodeLines c.platform.tables c.platform.xxh3
      c.platform.codecs identity (mergedLines identity lines) true)
    swap c now run (compactedKey c.platform.calendar identity encoded.footer.labels.startedAt)
      encoded

def mergeRun (c : CompactorService J) (now : ℤ) (run : List Manifest) : Action Unit :=
  match run with
  | [] => pure ()
  | first :: _ => do
    let lines ← readRun c run
    mergeRead c now run first.labels.toChunkIdentity lines

def windowRuns (c : CompactorService J) (containerId : String) (start stop : ℤ) :
    Action (List (List Manifest)) :=
  queryManifests fun t ↦
    let chunks := t.forContainerWindow c.scan containerId start stop
    if chunks.length < minChunksToCompact then [] else runs chunks

def compactContainer (c : CompactorService J) (now : ℤ) (start stop : ℤ) (containerId : String) :
    Action Unit := do
  let rs ← windowRuns c containerId start stop
  Prog.forEach (mergeRun c now) rs

def compactNext (c : CompactorService J) (now : ℤ) (start stop : ℤ) (containerId : String) :
    Action Unit := do
  let _ ← Prog.attempt (compactContainer c now start stop containerId)
  pure ()

def windowContainers (c : CompactorService J) (start stop : ℤ) : Action (List String) := do
  match ← Prog.attempt (queryManifests fun t ↦
    t.fragmentedContainers c.scan start stop minChunksToCompact containersPerRun) with
  | .ok containers => pure containers
  | .error _ => pure []

def compactWindow (c : CompactorService J) (now : ℤ) (start stop : ℤ) : Action Unit := do
  let containers ← windowContainers c start stop
  Prog.forEach (compactNext c now start stop) containers

def groupByKey (rows : List (ℕ × Text)) : List (Text × List ℕ) :=
  (rows.map Prod.snd).dedup.map fun key ↦
    (key, (rows.filter fun row ↦ row.2 = key).map Prod.fst)

def gcObjects : List (Text × List ℕ) → Action (List ℕ)
  | [] => pure []
  | (key, ids) :: rest => do
    let deleted ← Prog.attempt (deleteChunk key)
    let more ← gcObjects rest
    return (match deleted with
      | .ok _ => ids
      | .error _ => []) ++ more

def gcOnce (now : ℤ) : Action Unit := do
  match ← Prog.attempt (queryManifests fun t ↦ t.tombstonedBefore (now - gcGrace) gcBatch) with
  | .error _ => pure ()
  | .ok rows => do
    let gone ← gcObjects (groupByKey rows)
    let _ ← Prog.attempt (hardDelete gone)
    pure ()

def adoptable (key : Text) (bytes : Bytes) (codecs : Codecs J) :
    Except LogAggregatorError (Trailer × ChunkFooter) :=
  if bytes.length < trailerLen then
    .error (.chunkFormat (String.ofList key ++ ": shorter than a trailer"))
  else do
    let trailer ← decodeTrailer (bytes.drop (bytes.length - trailerLen))
    let stop := trailer.footerOffset + trailer.footerLen
    if bytes.length < stop then
      .error (.chunkFormat (String.ofList key ++ ": footer range outside object"))
    else do
      let footer ← decodeFooter codecs (slice bytes trailer.footerOffset stop) trailer
      return (trailer, footer)

def adopt (c : CompactorService J) (key : Text) : Action Unit := do
  let bytes ← readStorage key fun objects ↦ readChunk objects key
  let (trailer, footer) ← Prog.lift (adoptable key bytes c.platform.codecs)
  let id ← freshId c
  let _ ← insertManifest (chunkMeta id key ⟨bytes, footer, trailer⟩)
  pure ()

def adoptNext (c : CompactorService J) (key : Text) : Action Unit := do
  let _ ← Prog.attempt (adopt c key)
  pure ()

local instance lawfulText : LawfulBEq Text := inferInstance

def adoptBatch (c : CompactorService J) (batch : List Text) : Action Unit := do
  match ← Prog.attempt (queryManifests fun t ↦ t.knownStorageKeys batch) with
  | .error _ => pure ()
  | .ok known => Prog.forEach (adoptNext c) (batch.filter (· ∉ known))

def candidateKeys (objects : Objects) : List Text :=
  (objects.map Prod.fst).filter fun key ↦ "logs/".toList.isPrefixOf key &&
    ('.' :: v2Extension).isSuffixOf key && !v1Suffix.isSuffixOf key

def adoptAll (c : CompactorService J) : Action Unit := do
  match ← Prog.attempt (readStorage [] fun objects ↦ .ok (candidateKeys objects)) with
  | .error _ => pure ()
  | .ok keys => Prog.forEach (adoptBatch c) (keys.toChunks 500)

def chunkExists (key : Text) : Action Bool :=
  readStorage key fun objects ↦ .ok (objects.lookup key).isSome

def missingOf : List Manifest → Action (List ℕ)
  | [] => pure []
  | m :: rest => do
    let found ← Prog.attempt (chunkExists m.storageKey)
    let more ← missingOf rest
    return (match found with
      | .ok false => [m.id]
      | _ => []) ++ more

def sweep (now : ℤ) : ℕ → ℕ → Action Unit
  | 0, _ => pure ()
  | fuel + 1, after => do
    match ← Prog.attempt (queryManifests fun t ↦ t.liveAfterSeq after 500) with
    | .error _ => pure ()
    | .ok [] => pure ()
    | .ok (m :: rest) => do
      let missing ← missingOf (m :: rest)
      let _ ← Prog.attempt (markDeleted now missing)
      sweep now fuel (((m :: rest).map Manifest.seq).foldl max after)

def sweepAll (now : ℤ) : Action Unit := fun w fates ↦
  sweep now (w.manifests.rows.length + 1) 0 w fates

def reconcileOnce (c : CompactorService J) (now : ℤ) : Action Unit := do
  adoptAll c
  sweepAll now

def sealChunk (c : CompactorService J) (identity : ChunkIdentity) (lines : List (LogLine J))
    (withBloom : Bool) (recoveryIdentity : Option Text) : Action Unit := do
  let (key, encoded) ← Prog.lift
    (encodeGeneration c.platform identity lines withBloom recoveryIdentity)
  writeChunk key encoded.bytes
  let id ← freshId c
  let _ ← insertManifest (chunkMeta id key encoded)
  pure ()

end Temps.LogAggregator.Services.Compactor
