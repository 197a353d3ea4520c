import Temps.LogAggregator.Storage.Keys

namespace Temps.LogAggregator.Chunk.Wal

open Lib.Octets LogAggregator.Types Storage.Keys

variable {J : Type}

def recordHeaderLen : ℕ := 8

def maxRecordBytes : ℕ := 16 * 1024 * 1024

def maxGenerationBytes : ℕ := 256 * 1024 * 1024

def wholeGenerationLimit : ℕ := maxGenerationBytes + (recordHeaderLen + maxRecordBytes)

def usizeMax : ℕ := 2 ^ 64 - 1

def saturatingAdd (a b : ℕ) : ℕ := min (a + b) usizeMax

/-- How a line is stored in a record. JSON is lossless and never empty; the checksum is a function
into 32 bits. -/
structure RecordCodec (J : Type) where
  toVec : LogLine J → Bytes
  fromSlice : Bytes → Except String (LogLine J)
  crc32 : Bytes → ℕ
  lossless : ∀ line, fromSlice (toVec line) = .ok line
  nil_error : ∀ line, fromSlice [] ≠ .ok line
  crc32_lt : ∀ bytes, crc32 bytes < 2 ^ 32

def append (codec : RecordCodec J) (line : LogLine J) : Except LogAggregatorError Bytes :=
  let payload := codec.toVec line
  if maxRecordBytes < payload.length then
    .error (.validation ("WAL record for container '" ++ line.containerId ++ "' is " ++
      toString payload.length ++ " bytes; maximum is " ++ toString maxRecordBytes))
  else .ok (le 4 payload.length ++ le 4 (codec.crc32 payload) ++ payload)

inductive AfterCommit
  | remove
  | retain
  | defer (reason : String)
  deriving DecidableEq

structure WalGeneration where
  name : Text
  withBloom : Bool
  afterCommit : AfterCommit
  recoveryIdentity : Option Text

structure RecoveredStream (J : Type) extends WalGeneration where
  containerId : String
  lines : List (LogLine J)

structure RecordHeader where
  len : ℕ
  crc : ℕ
  offset : ℕ

structure RecoveryFile where
  reader : Bytes
  name : Text
  withBloom : Bool
  offset : ℕ
  pendingHeader : Option RecordHeader
  batchable : Bool
  records : ℕ
  unreadable : Option String

def RecoveryFile.open (name : Text) (bytes : Bytes) (withBloom batchable : Bool) : RecoveryFile :=
  ⟨bytes, name, withBloom, 0, none, batchable, 0, none⟩

def readRecordHeader (current : RecoveryFile) : Option RecordHeader × RecoveryFile :=
  if current.reader.length < recordHeaderLen then (none, { current with reader := [] })
  else
    (some
      { len := ofLe (current.reader.take 4)
        crc := ofLe ((current.reader.drop 4).take 4)
        offset := current.offset },
      { current with
        reader := current.reader.drop recordHeaderLen
        offset := current.offset + recordHeaderLen })

def takeHeader (current : RecoveryFile) : Option RecordHeader × RecoveryFile :=
  match current.pendingHeader with
  | some header => (some header, { current with pendingHeader := none })
  | none => readRecordHeader current

structure Batch (J : Type) where
  lines : List (LogLine J)
  payloadBytes : ℕ
  start : Option ℕ

namespace Batch

def empty : Batch J := ⟨[], 0, none⟩

end Batch

inductive Turn (J : Type)
  | next (current : RecoveryFile) (batch : Batch J)
  | stop (current : RecoveryFile) (batch : Batch J) (reachedEnd : Bool)

def claimsTooMuch (header : RecordHeader) : String :=
  "record at byte " ++ toString header.offset ++ " claims " ++ toString header.len ++
    " bytes, more than the " ++ toString maxRecordBytes ++
    "-byte maximum the writer ever appends"

def failsChecksum (header : RecordHeader) : String :=
  "record at byte " ++ toString header.offset ++ " fails its checksum"

def notALogLine (header : RecordHeader) (error : String) : String :=
  "record at byte " ++ toString header.offset ++ " is not a log line (" ++ error ++ ")"

def readPayload (codec : RecordCodec J) (current : RecoveryFile) (batch : Batch J)
    (header : RecordHeader) : Turn J :=
  let batch := { batch with start := some (batch.start.getD header.offset) }
  if current.reader.length < header.len then .stop { current with reader := [] } batch true
  else
    let payload := current.reader.take header.len
    let current := { current with
      reader := current.reader.drop header.len
      offset := current.offset + header.len }
    if codec.crc32 payload ≠ header.crc then
      .stop { current with unreadable := some (failsChecksum header) } batch true
    else
      match codec.fromSlice payload with
      | .error error =>
        .stop { current with unreadable := some (notALogLine header error) } batch true
      | .ok line =>
        .next { current with records := current.records + 1 }
          { batch with
            lines := batch.lines ++ [line]
            payloadBytes := saturatingAdd batch.payloadBytes header.len }

def readTurn (codec : RecordCodec J) (batchBytes : ℕ) (current : RecoveryFile) (batch : Batch J) :
    Turn J :=
  match takeHeader current with
  | (none, current) => .stop current batch true
  | (some header, current) =>
    if maxRecordBytes < header.len then
      .stop { current with unreadable := some (claimsTooMuch header) } batch true
    else if current.batchable && !batch.lines.isEmpty &&
        batchBytes < saturatingAdd batch.payloadBytes header.len then
      .stop { current with pendingHeader := some header } batch false
    else readPayload codec current batch header

/-- The loop of `read_batch`; every turn but the first takes eight bytes from the reader. -/
def readLoop (codec : RecordCodec J) (batchBytes : ℕ) :
    ℕ → RecoveryFile → Batch J → RecoveryFile × Batch J × Bool
  | 0, current, batch => (current, batch, true)
  | fuel + 1, current, batch =>
    match readTurn codec batchBytes current batch with
    | .next current batch => readLoop codec batchBytes fuel current batch
    | .stop current batch reachedEnd => (current, batch, reachedEnd)

def readBatch (codec : RecordCodec J) (batchBytes : ℕ) (current : RecoveryFile) :
    RecoveryFile × Batch J × Bool :=
  readLoop codec batchBytes (current.reader.length + 2) current Batch.empty

def retryInstructions (root : String) : String :=
  "Log collection continued without it and it is never replayed automatically; to retry, move it " ++
    "back into " ++ root ++ " and restart temps (lines purged since would come back)"

inductive FileStep (J : Type)
  | finished (generation : WalGeneration)
  | stream (stream : RecoveredStream J) (rest : Option RecoveryFile)

def fileStep (codec : RecordCodec J) (root : String) (batchBytes : ℕ) (current : RecoveryFile) :
    Except LogAggregatorError (FileStep J) :=
  match readBatch codec batchBytes current with
  | (current, batch, reachedEnd) =>
    match batch.lines with
    | [] =>
      .ok (.finished
        { name := current.name
          withBloom := current.withBloom
          afterCommit := match current.unreadable with
            | none => .remove
            | some problem => .defer (problem ++ "; no records were replayed from it. " ++
                retryInstructions root)
          recoveryIdentity := none })
    | first :: _ =>
      let afterCommit := match reachedEnd, current.unreadable with
        | false, _ => .retain
        | true, none => .remove
        | true, some problem => .defer (problem ++ "; the " ++ toString current.records ++
            " records before it were replayed. " ++ retryInstructions root)
      let rest := if reachedEnd then none else some current
      if current.batchable then
        match batch.start with
        | none => .error (.validation ("WAL '" ++ String.ofList current.name ++
            "' recovered a non-empty batch without a byte offset"))
        | some start => .ok (.stream ⟨⟨current.name, current.withBloom, afterCommit,
            some (recoveryIdentity current.name start current.offset)⟩, first.containerId,
            batch.lines⟩ rest)
      else
        .ok (.stream ⟨⟨current.name, current.withBloom, afterCommit, none⟩, first.containerId,
          batch.lines⟩ rest)

def streams (codec : RecordCodec J) (root : String) (batchBytes : ℕ) :
    ℕ → RecoveryFile → Except LogAggregatorError (List (RecoveredStream J))
  | 0, _ => .ok []
  | fuel + 1, current => do
    match ← fileStep codec root batchBytes current with
    | .finished _ => return []
    | .stream stream none => return [stream]
    | .stream stream (some rest) =>
      let more ← streams codec root batchBytes fuel rest
      return stream :: more

end Temps.LogAggregator.Chunk.Wal
