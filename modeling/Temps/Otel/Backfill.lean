import Mathlib.Data.Prod.Lex
import Mathlib.Data.String.Basic
import Temps.Cloud.Spool
import Temps.Lib.Pages

namespace Temps.Otel.Backfill

open Cloud Lib.Pages

/-- Microseconds since the epoch. -/
abbrev DBDateTime := ℤ

def timestampMillis (t : DBDateTime) : ℤ := t / 1000

def fromTimestampMillis (ms : ℤ) : DBDateTime := ms * 1000

abbrev ProjectId := ℤ

def maxBatchSize : ℕ := 500

def maxFlushesPerBatch : ℕ := 8

def scopeSpoolCapacity : ℕ := batchSize * 2

def saturatingAdd (a b : ℕ) : ℕ := min (a + b) (2 ^ 64 - 1)

structure SpanRecord where
  projectId : ProjectId
  traceId : String
  spanId : String
  startTime : DBDateTime
deriving DecidableEq

structure SourcedSpan where
  span : SpanRecord
  rowId : Option ℤ
deriving DecidableEq

structure TimescaleRow where
  id : ℤ
  projectId : ProjectId
  traceId : String
  spanId : String
  startTime : DBDateTime
deriving DecidableEq

structure ChBackfillRow where
  projectId : ProjectId
  traceId : String
  spanId : String
  startMs : ℤ
deriving DecidableEq

inductive CloudBackfillSource
  | timescale (rows : List TimescaleRow)
  | clickHouse (rows : List ChBackfillRow)
deriving DecidableEq

structure CloudBackfillCursor where
  lastStartTime : Option DBDateTime := none
  lastRowId : Option ℤ := none
  lastSpanId : Option String := none
deriving DecidableEq

structure Window where
  projectId : ProjectId
  fromTime : DBDateTime
  toTime : DBDateTime
deriving DecidableEq

structure CloudBackfillReport where
  spansRead : ℕ := 0
  spansOffered : ℕ := 0
  spansShipped : ℕ := 0
  batches : ℕ := 0
  estimatedMeteredBytes : ℕ := 0
  finalCursor : CloudBackfillCursor
deriving DecidableEq

inductive CloudBackfillError
  | database (w : Window)
  | clickHouse (w : Window)
  | notLinked (projectId : ProjectId)
  | telemetryExportDisabled (projectId : ProjectId)
  | fidelityNotQueryable (projectId : ProjectId)
  | projectionFailed (projectId : ProjectId) (spanId : String)
  | submissionScopeBusy (projectId : ProjectId)
  | shipmentRefused (projectId : ProjectId) (spans : ℕ) (resumeFrom : Option DBDateTime)
      (reason : String)
deriving DecidableEq

section Sources

variable (w : Window) (cursor : CloudBackfillCursor)

def TimescaleRow.toSpan (row : TimescaleRow) : SourcedSpan :=
  ⟨⟨row.projectId, row.traceId, row.spanId, row.startTime⟩, some row.id⟩

/-- The order of the pages, `(start_time, id)`. -/
def TimescaleRow.order (row : TimescaleRow) : ℤ ×ₗ ℤ := toLex (row.startTime, row.id)

def i64Min : ℤ := -2 ^ 63

def timescaleStart : ℤ ×ₗ ℤ :=
  toLex (cursor.lastStartTime.getD (w.fromTime - 1000), cursor.lastRowId.getD i64Min)

def fetchTimescaleBatch (rows : List TimescaleRow) (n : ℕ) : List SourcedSpan :=
  let selected := rows.filter fun row ↦
    row.projectId = w.projectId ∧ w.fromTime ≤ row.startTime ∧ row.startTime ≤ w.toTime
  (page TimescaleRow.order selected n (timescaleStart w cursor)).map TimescaleRow.toSpan

/-- Called `chrow_to_span` in the source. -/
def ChBackfillRow.toSpan (row : ChBackfillRow) : SourcedSpan :=
  ⟨⟨row.projectId, row.traceId, row.spanId, fromTimestampMillis row.startMs⟩, none⟩

/-- The order of the pages, `(start_time, span_id)`. -/
def ChBackfillRow.order (row : ChBackfillRow) : ℤ ×ₗ String := toLex (row.startMs, row.spanId)

def clickHouseStart : ℤ ×ₗ String :=
  toLex ((cursor.lastStartTime.map timestampMillis).getD (timestampMillis w.fromTime - 1),
    cursor.lastSpanId.getD "")

def fetchClickHouseBatch (rows : List ChBackfillRow) (n : ℕ) : List SourcedSpan :=
  let selected := rows.filter fun row ↦ row.projectId = w.projectId ∧
    timestampMillis w.fromTime ≤ row.startMs ∧ row.startMs ≤ timestampMillis w.toTime
  (page ChBackfillRow.order selected n (clickHouseStart w cursor)).map ChBackfillRow.toSpan

def fetchBatch : CloudBackfillSource → ℕ → List SourcedSpan
  | .timescale rows => fetchTimescaleBatch w cursor rows
  | .clickHouse rows => fetchClickHouseBatch w cursor rows

def fetchError : CloudBackfillSource → CloudBackfillError
  | .timescale _ => .database w
  | .clickHouse _ => .clickHouse w

def cursorAfter (batch : List SourcedSpan) : CloudBackfillCursor :=
  match batch.getLast? with
  | some last => ⟨some last.span.startTime, last.rowId, some last.span.spanId⟩
  | none => {}

end Sources

/-- What is sent for a span: where it comes from, its serialized size and the size that the spool
counts. -/
structure CloudSpan where
  origin : SourcedSpan
  recordBytes : ℕ
  estimatedBytes : ℕ
deriving DecidableEq

inductive Answer
  | notLinked
  | revoked
  | acknowledged
  | retained (reason : String)
  | blocked (reason : String)
deriving DecidableEq

inductive FlushOutcome
  | shipped (spans : ℕ)
  | idle
  | notLinked
  | retained (spans : ℕ) (reason : String)
  | blocked (spans : ℕ) (reason : String)
deriving DecidableEq

/-- The queue of a run, and the spans of the run that the cloud has acknowledged, which the code
does not keep. -/
structure ScopedSubmission where
  spool : Spool CloudSpan
  pending : Option (List CloudSpan)
  dropped : ℕ
  acknowledged : List CloudSpan

namespace ScopedSubmission

def new : ScopedSubmission := ⟨.empty, none, 0, []⟩

def queued (scope : ScopedSubmission) : ℕ :=
  scope.spool.buffer.length + (scope.pending.map List.length).getD 0

def record (scope : ScopedSubmission) (spans : List CloudSpan) : ScopedSubmission :=
  let spool := scope.spool.push scopeSpoolCapacity CloudSpan.estimatedBytes spans
  let dropped := scope.spool.buffer.length + spans.length - spool.buffer.length
  { scope with spool, dropped := scope.dropped + dropped }

def submit (scope : ScopedSubmission) (spans : List CloudSpan) :
    Answer → FlushOutcome × ScopedSubmission
  | .notLinked | .revoked => (.notLinked, { scope with pending := some spans })
  | .retained reason => (.retained spans.length reason, { scope with pending := some spans })
  | .blocked reason => (.blocked spans.length reason, { scope with pending := some spans })
  | .acknowledged =>
    (.shipped spans.length,
      { scope with pending := none, acknowledged := scope.acknowledged ++ spans })

def flush (scope : ScopedSubmission) (answer : Answer) : FlushOutcome × ScopedSubmission :=
  if answer = .notLinked then (.notLinked, scope)
  else match scope.pending with
    | some spans => scope.submit spans answer
    | none =>
      match scope.spool.take batchSize with
      | ([], _) => (.idle, scope)
      | (spans, spool) => { scope with spool }.submit spans answer

end ScopedSubmission

def drain (answers : ℕ → Answer) :
    ℕ → ℕ → ScopedSubmission → Except String ℕ × ScopedSubmission
  | 0, shipped, scope => (.ok shipped, scope)
  | flushes + 1, shipped, scope =>
    match scope.flush (answers flushes) with
    | (.shipped spans, scope) =>
      if scope.queued = 0 then (.ok (shipped + spans), scope)
      else drain answers flushes (shipped + spans) scope
    | (.idle, scope) => (.ok shipped, scope)
    | (.notLinked, scope) =>
      (.error ("the link was revoked or telemetry export was switched off " ++
        "while the backfill was running"), scope)
    | (.retained _ reason, scope) | (.blocked _ reason, scope) => (.error reason, scope)

/-- Offers one batch and drains it. An empty queue is proof of delivery only if nothing was
discarded. -/
def shipBatch (answers : ℕ → Answer) (scope : ScopedSubmission) (projected : List CloudSpan) :
    Except String ℕ × ScopedSubmission :=
  if projected = [] then (.ok 0, scope)
  else match drain answers maxFlushesPerBatch 0 (scope.record projected) with
    | (.error reason, drained) => (.error reason, drained)
    | (.ok shipped, drained) =>
      let stillQueued := drained.queued
      let dropped := drained.dropped - scope.dropped
      if 0 < stillQueued then
        (.error (s!"{stillQueued} span(s) were still queued after {maxFlushesPerBatch} " ++
          "delivery attempts"), drained)
      else if 0 < dropped then
        (.error (s!"{dropped} span(s) were discarded before delivery because the submission " ++
          "buffer was full"), drained)
      else (.ok shipped, drained)

/-- What one turn of the loop meets: whether the page can be read, the sizes of the spans that can
be projected, and the answers to the shipments. -/
structure Env where
  readable : Bool
  sizes : SourcedSpan → Option (ℕ × ℕ)
  answers : ℕ → Answer

def projectBatch (sizes : SourcedSpan → Option (ℕ × ℕ)) :
    List SourcedSpan → Except String (List CloudSpan)
  | [] => .ok []
  | sourced :: rest =>
    match sizes sourced with
    | none => .error sourced.span.spanId
    | some (recordBytes, estimatedBytes) =>
      (projectBatch sizes rest).map (⟨sourced, recordBytes, estimatedBytes⟩ :: ·)

structure Progress where
  report : CloudBackfillReport
  scope : ScopedSubmission
  read : List SourcedSpan

def Progress.start (cursor : CloudBackfillCursor) : Progress :=
  ⟨{ finalCursor := cursor }, .new, []⟩

def Progress.acknowledged (p : Progress) : List SourcedSpan :=
  p.scope.acknowledged.map CloudSpan.origin

inductive Turn
  | failed (error : CloudBackfillError) (p : Progress)
  | done (p : Progress)
  | more (p : Progress)

structure Ended where
  outcome : Except CloudBackfillError CloudBackfillReport
  progress : Progress

structure Conditions where
  isLinked : Bool
  telemetryEnabled : Bool
  isQueryable : Bool
  scopeOpen : Bool
deriving DecidableEq

variable (source : CloudBackfillSource) (w : Window) (n : ℕ)

def CloudBackfillReport.advance (report : CloudBackfillReport) (batch : List SourcedSpan)
    (projected : List CloudSpan) (shipped : ℕ) : CloudBackfillReport where
  spansRead := report.spansRead + batch.length
  spansOffered := report.spansOffered + projected.length
  spansShipped := report.spansShipped + shipped
  batches := report.batches + 1
  estimatedMeteredBytes := saturatingAdd report.estimatedMeteredBytes
    (projected.foldl (fun sum record ↦ saturatingAdd sum record.recordBytes) 0)
  finalCursor := cursorAfter batch

def turn (env : Env) (p : Progress) : Turn :=
  if env.readable then
    let batch := fetchBatch w p.report.finalCursor source n
    if batch = [] then .done p
    else
      let p := { p with read := p.read ++ batch }
      match projectBatch env.sizes batch with
      | .error spanId => .failed (.projectionFailed w.projectId spanId) p
      | .ok projected =>
        match shipBatch env.answers p.scope projected with
        | (.error reason, scope) =>
          .failed (.shipmentRefused w.projectId projected.length (cursorAfter batch).lastStartTime
            reason) { p with scope }
        | (.ok shipped, scope) =>
          let p := { p with scope, report := p.report.advance batch projected shipped }
          if batch.length < n then .done p else .more p
  else .failed (fetchError w source) p

def loop : ℕ → (ℕ → Env) → Progress → Option Ended
  | 0, _, _ => none
  | fuel + 1, env, p =>
    match turn source w n (env 0) p with
    | .failed error p => some ⟨.error error, p⟩
    | .done p => some ⟨.ok p.report, p⟩
    | .more p => loop fuel (fun i ↦ env (i + 1)) p

def guardReady (conditions : Conditions) : Except CloudBackfillError Unit :=
  if ¬ conditions.isLinked then .error (.notLinked w.projectId)
  else if ¬ conditions.telemetryEnabled then .error (.telemetryExportDisabled w.projectId)
  else if ¬ conditions.isQueryable then .error (.fidelityNotQueryable w.projectId)
  else .ok ()

def backfillCloudTelemetryWindow (fuel : ℕ) (conditions : Conditions)
    (start : CloudBackfillCursor) (env : ℕ → Env) : Option Ended :=
  match guardReady w conditions with
  | .error error => some ⟨.error error, .start start⟩
  | .ok () =>
    if conditions.scopeOpen then some ⟨.error (.submissionScopeBusy w.projectId), .start start⟩
    else loop source w (max 1 (min n maxBatchSize)) fuel env (.start start)

end Temps.Otel.Backfill
