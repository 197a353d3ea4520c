import Temps.Lib.Faults
import Temps.Lib.Greedy
import Temps.LogAggregator.Services.Seal
import Temps.LogAggregator.Store.Manifest

namespace Temps.LogAggregator.Services.ChunkWriter

open Lib Lib.Faults LogAggregator.Types Chunk Chunk.Wal Seal Storage.Keys
open Store.ManifestRepo (column)

variable {J : Type}

def sanitise (containerId : String) : Text :=
  containerId.toList.map fun c ↦ if c.isAlphanum || c == '_' || c == '-' then c else '_'

def walFileName (containerId : String) : Text := sanitise containerId ++ ".wal".toList

/-- The code outside the writer: the chunk encoder with its codecs, and how long a line is as JSON. -/
structure Config (J : Type) where
  platform : Platform J
  payloadLen : LogLine J → ℕ

/-- A line that was accepted, with its number in the order of acceptance. -/
structure Entry (J : Type) where
  serial : ℕ
  line : LogLine J
  deriving DecidableEq

namespace Entry

def container (e : Entry J) : String := e.line.containerId

def file (e : Entry J) : Text := walFileName e.container

end Entry

inductive Kind
  | sealed
  | recovery
  deriving DecidableEq

/-- An immutable generation in the WAL directory; the name stands for its UUID. -/
structure Generation (J : Type) where
  name : ℕ
  kind : Kind
  withBloom : Bool
  entries : List (Entry J)
  deriving DecidableEq

/-- What one seal commits: a whole sealed generation, or one batch of a recovered file. -/
structure Part (J : Type) where
  withBloom : Bool
  entries : List (Entry J)
  recoveryIdentity : Option Text

/-- A manifest row with the lines of its object. The generation and the part it was sealed from are
noted for the proofs. -/
structure ChunkRow (J : Type) where
  storageKey : Text
  projectId : ℤ
  endedAt : ℤ
  live : Bool
  entries : List (Entry J)
  file : ℕ
  part : ℕ

inductive Stage
  | rotated
  | written (key : Text)
  | inserted
  deriving DecidableEq

structure Sealing (J : Type) where
  container : String
  identity : ChunkIdentity
  entries : List (Entry J)
  file : ℕ
  withBloom : Bool
  stage : Stage

/-- What outlives the process: the active WAL files together (the container of a line names its
file), the generations, the deferred directory and the manifest. `accepted`, `lost` and `born`
record the history. -/
structure Disk (J : Type) where
  wal : List (Entry J)
  synced : String → ℕ
  files : List (Generation J)
  deferred : List (Generation J)
  rows : List (ChunkRow J)
  nextName : ℕ
  accepted : List (Entry J)
  lost : List (Entry J)
  born : List (Generation J)

structure State (J : Type) extends Disk J where
  ready : Bool
  identities : String → Option ChunkIdentity
  heads : List (Entry J)
  sealings : List (Sealing J)
  cutoffs : ℤ → Option ℤ

def State.start : State J where
  wal := []
  synced _ := 0
  files := []
  deferred := []
  rows := []
  nextName := 0
  accepted := []
  lost := []
  born := []
  ready := false
  identities _ := none
  heads := []
  sealings := []
  cutoffs _ := none

def inContainer (c : String) (e : Entry J) : Bool := e.container = c

def inFile (file : Text) (e : Entry J) : Bool := e.file = file

section Parts

variable (cfg : Config J)

def recordLen (e : Entry J) : ℕ := recordHeaderLen + cfg.payloadLen e.line

def fileBytes (entries : List (Entry J)) : ℕ := (entries.map (recordLen cfg)).sum

def payloadScale : Greedy.Scale (Entry J) ℕ where
  start e := cfg.payloadLen e.line
  add load e := saturatingAdd load (cfg.payloadLen e.line)

def batches (batchBytes : ℕ) (entries : List (Entry J)) : List (List (Entry J)) :=
  (payloadScale cfg).segments
    (fun load e ↦ max batchBytes 1 < saturatingAdd load (cfg.payloadLen e.line)) entries

def fileName (g : Generation J) : Text :=
  digits g.name ++ (if g.withBloom then ".b" else ".n").toList ++ ".recovery-wal".toList

def partsFrom (g : Generation J) : ℕ → List (List (Entry J)) → List (Part J)
  | _, [] => []
  | offset, batch :: rest =>
    let stop := offset + fileBytes cfg batch
    let cursor := if rest.isEmpty then stop else stop + recordHeaderLen
    ⟨g.withBloom, batch, some (recoveryIdentity (fileName g) offset cursor)⟩ ::
      partsFrom g stop rest

def parts (batchBytes : ℕ) (g : Generation J) : List (Part J) :=
  match g.kind with
  | .sealed => [⟨g.withBloom, g.entries, none⟩]
  | .recovery => partsFrom cfg g 0 (batches cfg batchBytes g.entries)

def encodeEntries (identity : ChunkIdentity) (entries : List (Entry J)) (withBloom : Bool)
    (recoveryIdentity : Option Text) : Except LogAggregatorError (Text × EncodedChunk) :=
  encodeGeneration cfg.platform identity (entries.map Entry.line) withBloom recoveryIdentity

def rowOf (identity : ChunkIdentity) (key : Text) (entries : List (Entry J)) (file part : ℕ) :
    ChunkRow J where
  storageKey := key
  projectId := identity.projectId
  endedAt := column
    ((entries.map fun e ↦ e.line.ts).foldl max (entries.head?.elim 0 fun e ↦ e.line.ts))
  live := true
  entries := entries
  file := file
  part := part

end Parts

namespace Disk

def append (d : Disk J) (e : Entry J) : Disk J :=
  { d with wal := d.wal ++ [e], accepted := d.accepted ++ [e] }

def sync (d : Disk J) (containers : List String) : Disk J :=
  { d with synced := fun c ↦ if c ∈ containers then d.accepted.length else d.synced c }

def insertRow (d : Disk J) (row : ChunkRow J) : Disk J :=
  { d with rows := Absorb.insert ChunkRow.storageKey d.rows row }

def removeFile (d : Disk J) (name : ℕ) : Disk J :=
  { d with files := d.files.filter fun g ↦ g.name ≠ name }

def deferFile (d : Disk J) (g : Generation J) : Disk J :=
  { d.removeFile g.name with deferred := d.deferred ++ [g] }

def frozen (d : Disk J) (file : Text) (kind : Kind) (withBloom : Bool) : Generation J :=
  ⟨d.nextName, kind, withBloom, d.wal.filter (inFile file)⟩

def renameActive (d : Disk J) (file : Text) (kind : Kind) (withBloom : Bool) : Disk J :=
  { d with
    wal := d.wal.filter fun e ↦ !inFile file e
    files := d.files ++ [d.frozen file kind withBloom]
    born := d.born ++ [d.frozen file kind withBloom]
    nextName := d.nextName + 1 }

def survives (d : Disk J) (cut : String → ℕ) (e : Entry J) : Bool :=
  e.serial < max (cut e.container) (d.synced e.container)

def cutTails (d : Disk J) (cut : String → ℕ) : Disk J :=
  { d with
    wal := d.wal.filter (d.survives cut)
    lost := d.lost ++ d.wal.filter fun e ↦ !d.survives cut e }

def mapRows (d : Disk J) (f : ChunkRow J → ChunkRow J) : Disk J := { d with rows := d.rows.map f }

end Disk

namespace State

def onDisk (s : State J) (f : Disk J → Disk J) : State J := { s with toDisk := f s.toDisk }

def takeHead (s : State J) (c : String) : State J :=
  { s with heads := s.heads.filter fun e ↦ !inContainer c e }

def dropSealing (s : State J) (c : String) : State J :=
  { s with sealings := s.sealings.filter fun x ↦ x.container ≠ c }

def setStage (s : State J) (c : String) (stage : Stage) : State J :=
  { s with sealings := s.sealings.map fun x ↦ if x.container = c then { x with stage } else x }

def sealingOf (s : State J) (c : String) : Option (Sealing J) :=
  s.sealings.find? fun x ↦ x.container = c

def headOf (s : State J) (c : String) : List (Entry J) := s.heads.filter (inContainer c)

def openBuffer (s : State J) (line : LogLine J) : State J :=
  { s with
    identities := Function.update s.identities line.containerId
      (some ((s.identities line.containerId).getD (identityFromLine line))) }

def nextPurgeCutoff (previous : Option ℤ) (requested : ℤ) : ℤ :=
  previous.elim requested fun cutoff ↦ max cutoff requested

def raiseCutoff (s : State J) (project before : ℤ) : State J :=
  { s with
    cutoffs := Function.update s.cutoffs project
      (some (nextPurgeCutoff (s.cutoffs project) before)) }

def crash (s : State J) (cut : String → ℕ) : State J where
  toDisk := s.toDisk.cutTails cut
  ready := false
  identities _ := none
  heads := []
  sealings := []
  cutoffs _ := none

end State

abbrev Job (J α : Type) := Prog (State J) LogAggregatorError α

def storageDown : LogAggregatorError := .chunkWriteFailed []

def databaseDown : LogAggregatorError := .database "unavailable"

def walDown : LogAggregatorError := .validation "WAL I/O"

def update (refusal : LogAggregatorError) (f : State J → State J) : Job J Unit :=
  Prog.call refusal fun s ↦ .ok ((), f s)

def commit (cfg : Config J) (identity : ChunkIdentity) (part : Part J) (file index : ℕ) :
    Job J Unit := do
  let (key, _) ← Prog.lift
    (encodeEntries cfg identity part.entries part.withBloom part.recoveryIdentity)
  update storageDown id
  update databaseDown fun s ↦ s.onDisk (·.insertRow (rowOf identity key part.entries file index))

def identityOf (entries : List (Entry J)) : Option ChunkIdentity :=
  entries.head?.map fun e ↦ identityFromLine e.line

def recoverPart (cfg : Config J) (file : ℕ) (p : Part J × ℕ) : Job J Unit :=
  match identityOf p.1.entries with
  | none => pure ()
  | some identity => commit cfg identity p.1 file p.2

def recoverFile (cfg : Config J) (batchBytes : ℕ) (g : Generation J) : Job J Unit :=
  if g.kind = .sealed ∧ wholeGenerationLimit < fileBytes cfg g.entries then
    update walDown fun s ↦ s.onDisk (·.deferFile g)
  else do
    Prog.forEach (recoverPart cfg g.name) (parts cfg batchBytes g).zipIdx
    update walDown fun s ↦ s.onDisk (·.removeFile g.name)

def freezeActive (withBloom : Bool) (file : Text) : Job J Unit :=
  update walDown fun s ↦ s.onDisk (·.renameActive file .recovery withBloom)

def inspect {α : Type} (f : State J → α) : Job J α := fun s fates ↦ ⟨.returned (f s), s, fates⟩

def recoverWal (cfg : Config J) (batchBytes : ℕ) (withBloom : Bool) : Job J Unit := do
  let active ← inspect fun s ↦ (s.wal.map Entry.file).dedup
  Prog.forEach (freezeActive withBloom) active
  let files ← inspect fun s ↦ s.files.filter (·.kind = .sealed) ++ s.files.filter (·.kind = .recovery)
  Prog.forEach (recoverFile cfg batchBytes) files

def recover (cfg : Config J) (batchBytes : ℕ) (withBloom : Bool) (s : State J)
    (fates : List Fate) : State J :=
  let r := recoverWal cfg batchBytes withBloom s fates
  match r.outcome with
  | .returned _ => { r.state with ready := r.state.files.isEmpty }
  | _ => r.state

section Running

variable (cfg : Config J)

def write (s : State J) (line : LogLine J) : State J :=
  if s.ready = false then s
  else if (s.cutoffs line.projectId).any (line.ts < ·) then s
  else
    let s := s.openBuffer line
    if maxRecordBytes < cfg.payloadLen line then s
    else
      let e : Entry J := ⟨s.accepted.length, line⟩
      { s.onDisk (·.append e) with heads := s.heads ++ [e] }

def sync (s : State J) (containers : List String) : State J :=
  if s.ready = false then s
  else s.onDisk (·.sync containers)

/-- Threshold, flush and waiting seals may get their turn at any time; one at a time for each
container. Rotation syncs the file it freezes. -/
def beginSeal (s : State J) (c : String) (withBloom : Bool) : State J :=
  match s.sealingOf c, s.identities c, s.headOf c with
  | none, some identity, e :: rest =>
    let sealing : Sealing J := ⟨c, identity, e :: rest, s.nextName, withBloom, .rotated⟩
    let s := (s.onDisk (·.renameActive (walFileName c) .sealed withBloom)).takeHead c
    { s with sealings := s.sealings ++ [sealing] }
  | _, _, _ => s

def sealObject (s : State J) (c : String) (stored : Bool) : State J :=
  match s.sealingOf c with
  | some ⟨_, identity, entries, _, withBloom, .rotated⟩ =>
    match encodeEntries cfg identity entries withBloom none with
    | .ok (key, _) => if stored then s.setStage c (.written key) else s.dropSealing c
    | .error _ => s.dropSealing c
  | _ => s

def sealInsert (s : State J) (c : String) (fate : Fate) : State J :=
  match s.sealingOf c with
  | some ⟨_, identity, entries, file, _, .written key⟩ =>
    let inserted := s.onDisk (·.insertRow (rowOf identity key entries file 0))
    match fate with
    | .done => inserted.setStage c .inserted
    | .lost => inserted.dropSealing c
    | .refused => s.dropSealing c
    | .crash => s
  | _ => s

def sealFinish (s : State J) (c : String) (removed : Bool) : State J :=
  match s.sealingOf c with
  | some ⟨_, _, _, file, _, .inserted⟩ =>
    (if removed then s.onDisk (·.removeFile file) else s).dropSealing c
  | _ => s

end Running

section Purge

variable (cfg : Config J)

def sealNow (withBloom : Bool) (c : String) : Job J Unit := do
  let s ← inspect id
  match s.identities c, s.headOf c with
  | some identity, e :: rest => do
    update walDown fun s ↦
      (s.onDisk (·.renameActive (walFileName c) .sealed withBloom)).takeHead c
    commit cfg identity ⟨withBloom, e :: rest, none⟩ s.nextName 0
    update walDown fun s' ↦ s'.onDisk (·.removeFile s.nextName)
  | _, _ => pure ()

def headsOfProject (s : State J) (project : ℤ) : List String :=
  (s.heads.map Entry.container).dedup.filter fun c ↦
    (s.identities c).any fun identity ↦ identity.projectId = project

def expire (project before : ℤ) (row : ChunkRow J) : ChunkRow J :=
  if row.projectId = project ∧ row.endedAt < column before then { row with live := false }
  else row

def manualPurge (project before : ℤ) (withBloom : Bool) : Job J Unit := do
  let containers ← inspect fun s ↦ headsOfProject s project
  Prog.forEach (sealNow cfg withBloom) containers
  update databaseDown fun s ↦ s.onDisk (·.mapRows (expire project before))
  fun s fates ↦ ⟨.returned (), s.raiseCutoff project before, fates⟩

def purgeEnabled (s : State J) (project : ℤ) : Bool :=
  s.ready && s.sealings.all fun x ↦ x.identity.projectId ≠ project

def purge (s : State J) (project before : ℤ) (withBloom : Bool) (fates : List Fate)
    (cut : String → ℕ) : State J :=
  if purgeEnabled s project then
    let r := manualPurge cfg project before withBloom s fates
    match r.outcome with
    | .crashed => r.state.crash cut
    | _ => r.state
  else s

def purged (s : State J) (project before : ℤ) (withBloom : Bool) (fates : List Fate) : Bool :=
  purgeEnabled s project &&
    match (manualPurge cfg project before withBloom s fates).outcome with
    | .returned _ => true
    | _ => false

end Purge

inductive Action (J : Type)
  | write (line : LogLine J)
  | sync (containers : List String)
  | beginSeal (container : String) (withBloom : Bool)
  | sealObject (container : String) (stored : Bool)
  | sealInsert (container : String) (fate : Fate)
  | sealFinish (container : String) (removed : Bool)
  | purge (project before : ℤ) (withBloom : Bool) (fates : List Fate) (cut : String → ℕ)
  | crash (cut : String → ℕ)
  | recover (batchBytes : ℕ) (withBloom : Bool) (fates : List Fate)

def step (cfg : Config J) (s : State J) : Action J → State J
  | .write line => write cfg s line
  | .sync containers => sync s containers
  | .beginSeal c withBloom => beginSeal s c withBloom
  | .sealObject c stored => sealObject cfg s c stored
  | .sealInsert c fate => sealInsert s c fate
  | .sealFinish c removed => sealFinish s c removed
  | .purge project before withBloom fates cut => purge cfg s project before withBloom fates cut
  | .crash cut => s.crash cut
  | .recover batchBytes withBloom fates =>
    if s.ready then s else recover cfg batchBytes withBloom s fates

def exec (cfg : Config J) (s : State J) (run : List (Action J)) : State J :=
  run.foldl (step cfg) s

def visible (s : State J) : List (Entry J) :=
  s.heads ++ s.sealings.flatMap Sealing.entries ++
    (s.rows.filter ChunkRow.live).flatMap ChunkRow.entries

def sized : Config ℕ := ⟨plainPlatform, fun line ↦ 1 + 16000000 * line.msg.length⟩

def note (msg : Text) : LogLine ℕ :=
  ⟨1, .stdout, .info, msg, none, "c1", "web", "prod", 1, none, none, none, none⟩

def noteIdent (_ : String) : ChunkIdentity := identityFromLine (note [])

end Temps.LogAggregator.Services.ChunkWriter
