import Temps.Otel.BackfillRuns

namespace Temps.Otel.Backfill

open Cloud Lib.Pages List

/-- What the stores guarantee: row ids are distinct, and a project has each span of a trace once. -/
def CloudBackfillSource.Distinct : CloudBackfillSource → Prop
  | .timescale rows => (rows.map TimescaleRow.id).Nodup
  | .clickHouse rows => (rows.map fun row ↦ (row.projectId, row.traceId, row.spanId)).Nodup

instance (source : CloudBackfillSource) : Decidable source.Distinct := by
  cases source <;> dsimp only [CloudBackfillSource.Distinct] <;> infer_instance

/-- No two ClickHouse spans of the window agree in their start and their span id. -/
def CloudBackfillSource.KeysApart (source : CloudBackfillSource) (w : Window) : Prop :=
  match source with
  | .timescale _ => True
  | .clickHouse _ =>
    ((source.inWindow w).map fun s ↦ (s.span.startTime, s.span.spanId)).Nodup

instance (w : Window) (source : CloudBackfillSource) : Decidable (source.KeysApart w) := by
  cases source <;> dsimp only [CloudBackfillSource.KeysApart] <;> infer_instance

/-- The cursors that failed runs leave, and what these runs had acknowledged. -/
inductive Reached (source : CloudBackfillSource) (w : Window) :
    CloudBackfillCursor → List SourcedSpan → Prop
  | fresh : Reached source w {} []
  | resumed {cursor acknowledged n fuel conditions env error p}
      (before : Reached source w cursor acknowledged)
      (run : backfillCloudTelemetryWindow source w n fuel conditions cursor env =
        some ⟨.error error, p⟩) :
      Reached source w p.report.finalCursor (acknowledged ++ p.acknowledged)

variable {s : SourcedSpan}

structure ShipsWholeWindow (source : CloudBackfillSource) (w : Window) : Prop where
  terminates : ∃ fuel, ∀ n conditions cursor env,
    (backfillCloudTelemetryWindow source w n fuel conditions cursor env).isSome
  complete {cursor acknowledged n fuel conditions env report p} :
    Reached source w cursor acknowledged →
    backfillCloudTelemetryWindow source w n fuel conditions cursor env = some ⟨.ok report, p⟩ →
      ∀ s ∈ source.inWindow w, s ∈ acknowledged ++ p.acknowledged
  readOnce {n fuel conditions env report p} :
    backfillCloudTelemetryWindow source w n fuel conditions {} env = some ⟨.ok report, p⟩ →
      ∀ s ∈ source.inWindow w, p.read.count s = 1

section Resumed

variable {source : CloudBackfillSource} {w : Window} {K : Type} [LinearOrder K]

theorem Reached.acknowledged {cursor : CloudBackfillCursor} {acknowledged : List SourcedSpan}
    (h : Reached source w cursor acknowledged) (paged : Paged source w K) :
    ∀ s ∈ paged.spans, paged.Alone s → paged.key s ≤ paged.position cursor → s ∈ acknowledged := by
  induction h with
  | fresh => exact fun s hs _ hle ↦ absurd hle (not_le.mpr (paged.fresh s hs))
  | @resumed cursor acknowledged n fuel conditions env error p _ hrun ih =>
    intro s hs halone hle
    rw [mem_append]
    rcases le_or_gt (paged.key s) (paged.position cursor) with hold | hlater
    · exact .inl (ih s hs halone hold)
    · obtain ⟨p', hgoing, hhere, hsub⟩ := backfill_ends paged hrun
      refine .inr (hsub ?_)
      rw [hgoing.acknowledged]
      exact hgoing.reached s hs halone hlater (hhere ▸ hle)

theorem Paged.shipsWholeWindow (paged : Paged source w K)
    (halone : ∀ s ∈ source.inWindow w, paged.Alone s) : ShipsWholeWindow source w where
  terminates := ⟨paged.spans.length + 1, fun _ _ _ _ ↦ backfill_isSome paged (Nat.lt_succ_self _)⟩
  complete {cursor acknowledged n fuel conditions env report p} hreached hrun s hs := by
    obtain ⟨hgoing, hall⟩ := backfill_ends paged hrun
    have hspan := paged.window hs
    rw [mem_append]
    rcases le_or_gt (paged.key s) (paged.position cursor) with hold | hlater
    · exact .inl (hreached.acknowledged paged s hspan (halone s hs) hold)
    · rw [hgoing.acknowledged]
      exact .inr (hgoing.reached s hspan (halone s hs) hlater (hall s hspan))
  readOnce {n fuel conditions env report p} hrun s hs := by
    obtain ⟨hgoing, hall⟩ := backfill_ends paged hrun
    have hspan := paged.window hs
    refine count_eq_one_of_mem hgoing.nodup ?_
    exact hgoing.reached s hspan (halone s hs) (paged.fresh s hspan) (hall s hspan)

end Resumed

section Smooth

def smooth : Env := ⟨true, fun _ ↦ some (0, 0), fun _ ↦ .acknowledged⟩

variable {source : CloudBackfillSource} {w : Window} {K : Type} [LinearOrder K] {fuel : ℕ}
  {scope : ScopedSubmission} {p : Progress} {s : SourcedSpan} {ended : Ended}

theorem record_light (hs : Drained scope) :
    scope.record [⟨s, 0, 0⟩] = { scope with spool := ⟨[⟨s, 0, 0⟩]⟩ } := by
  simp [ScopedSubmission.record, Spool.push, Spool.pushOne, hs.buffer, Spool.evictFront]

theorem shipBatch_light (hs : Drained scope) :
    (shipBatch smooth.answers scope [⟨s, 0, 0⟩]).1.isOk := by
  rw [shipBatch, record_light hs, maxFlushesPerBatch]
  cases hcase : scope.pending with
  | none =>
    simp [drain, ScopedSubmission.flush, smooth, Spool.take, batchSize, ScopedSubmission.submit,
      ScopedSubmission.queued, Except.toBool]
  | some spans =>
    simp [drain, ScopedSubmission.flush, smooth, Spool.take, batchSize, ScopedSubmission.submit,
      ScopedSubmission.queued, Except.toBool]

theorem turn_smooth (hp : Drained p.scope)
    (hone : (fetchBatch w p.report.finalCursor source 1).length ≤ 1)
    {error : CloudBackfillError} {p' : Progress} : turn source w 1 smooth p ≠ .failed error p' := by
  intro h
  rw [turn] at h
  rcases Nat.le_one_iff_eq_zero_or_eq_one.mp hone with hnone | hsingle
  · rw [length_eq_zero_iff.mp hnone] at h
    cases h
  · obtain ⟨s, hs⟩ := length_eq_one_iff.mp hsingle
    have hproj : projectBatch smooth.sizes [s] = .ok [⟨s, 0, 0⟩] := rfl
    have hok : (shipBatch smooth.answers p.scope [⟨s, 0, 0⟩]).1.isOk := shipBatch_light hp
    rcases hship : shipBatch smooth.answers p.scope [⟨s, 0, 0⟩] with ⟨result, scope⟩
    rw [hship] at hok
    simp only [hs, hproj, hship] at h
    cases result with
    | error => cases hok
    | ok => cases h

theorem loop_smooth (paged : Paged source w K) (hp : Drained p.scope)
    (h : loop source w 1 fuel (fun _ ↦ smooth) p = some ended) :
    ∃ report, ended.outcome = .ok report := by
  induction fuel generalizing p with
  | zero => exact (nomatch h)
  | succ fuel ih =>
    have hturn : Turns source w 1 p (turn source w 1 smooth p) := turns hp smooth
    have hone : (fetchBatch w p.report.finalCursor source 1).length ≤ 1 := by
      rw [paged.fetch]
      exact page_length_le
    rw [loop] at h
    cases hcase : turn source w 1 smooth p with
    | failed error p' => exact absurd hcase (turn_smooth hp hone)
    | done p' =>
      rw [hcase] at h
      obtain rfl := Option.some.inj h
      exact ⟨_, rfl⟩
    | more p' =>
      rw [hcase] at h hturn
      exact ih hturn.drained h

theorem ShipsWholeWindow.key_injective (h : ShipsWholeWindow source w) (paged : Paged source w K)
    {s' : SourcedSpan} (hs : s ∈ source.inWindow w) (hs' : s' ∈ source.inWindow w)
    (hkey : paged.key s = paged.key s') : s = s' := by
  obtain ⟨fuel, hfuel⟩ := h.terminates
  obtain ⟨⟨outcome, p⟩, hrun⟩ := Option.isSome_iff_exists.mp
    (hfuel 1 ⟨true, true, true, false⟩ {} fun _ ↦ smooth)
  obtain ⟨report, rfl⟩ : ∃ report, outcome = .ok report := loop_smooth paged ⟨rfl, rfl⟩ hrun
  obtain ⟨hgoing, -⟩ := backfill_ends paged hrun
  have hread {s : SourcedSpan} (hs : s ∈ source.inWindow w) : s ∈ p.read := by
    rw [← hgoing.acknowledged]
    exact h.complete .fresh hrun s hs
  exact inj_on_of_nodup_map (hgoing.apart le_rfl) (hread hs) (hread hs') hkey

end Smooth

section Timescale

variable {rows : List TimescaleRow} (w : Window)

def timescaleKey (s : SourcedSpan) : ℤ ×ₗ ℤ := toLex (s.span.startTime, s.rowId.getD i64Min)

def timescaleSpans (rows : List TimescaleRow) : List SourcedSpan :=
  (rows.filter fun row ↦ row.projectId = w.projectId ∧
    w.fromTime ≤ row.startTime ∧ row.startTime ≤ w.toTime).map TimescaleRow.toSpan

theorem timescaleKeys_nodup (h : (rows.map TimescaleRow.id).Nodup) :
    ((timescaleSpans w rows).map timescaleKey).Nodup := by
  rw [timescaleSpans, map_map]
  refine List.Nodup.of_map (fun k ↦ (ofLex k).2) ?_
  rw [map_map]
  exact (filter_sublist.map TimescaleRow.id).nodup h

theorem inWindow_timescale :
    (CloudBackfillSource.timescale rows).inWindow w = timescaleSpans w rows := filter_map

def timescalePaged (h : (rows.map TimescaleRow.id).Nodup) : Paged (.timescale rows) w (ℤ ×ₗ ℤ) where
  key := timescaleKey
  position := timescaleStart w
  spans := timescaleSpans w rows
  nodup := (timescaleKeys_nodup w h).of_map _
  fetch cursor n := by
    rw [timescaleSpans, ← page_map]
    rfl
  after batch last hlast _ := by
    rw [cursorAfter, hlast]
    rfl
  fresh s hs := by
    obtain ⟨row, hrow, rfl⟩ := List.mem_map.mp hs
    obtain ⟨-, hfrom, -⟩ := of_decide_eq_true (List.mem_filter.mp hrow).2
    refine Prod.Lex.toLex_lt_toLex.mpr (.inl ?_)
    exact (Int.sub_lt_self w.fromTime (by decide)).trans_le hfrom
  window := by
    rw [inWindow_timescale]
    exact List.Subset.refl _

theorem timescale_alone (h : (rows.map TimescaleRow.id).Nodup) (hs : s ∈ timescaleSpans w rows) :
    (timescalePaged w h).Alone s :=
  fun _ hs' hkey ↦ inj_on_of_nodup_map (timescaleKeys_nodup w h) hs' hs hkey

end Timescale

section ClickHouse

variable {rows : List ChBackfillRow} (w : Window)

def clickHouseKey (s : SourcedSpan) : ℤ ×ₗ String :=
  toLex (timestampMillis s.span.startTime, s.span.spanId)

def clickHouseSpans (rows : List ChBackfillRow) : List SourcedSpan :=
  (rows.filter fun row ↦ row.projectId = w.projectId ∧
    timestampMillis w.fromTime ≤ row.startMs ∧ row.startMs ≤ timestampMillis w.toTime).map
      ChBackfillRow.toSpan

theorem timestampMillis_fromTimestampMillis (ms : ℤ) :
    timestampMillis (fromTimestampMillis ms) = ms := by
  rw [timestampMillis, fromTimestampMillis]
  omega

theorem timestampMillis_le {a b : DBDateTime} (h : a ≤ b) : timestampMillis a ≤ timestampMillis b :=
  Int.ediv_le_ediv (show (0 : ℤ) < 1000 by decide) h

theorem clickHouseKey_toSpan : clickHouseKey ∘ ChBackfillRow.toSpan = ChBackfillRow.order := by
  funext row
  show toLex (timestampMillis (fromTimestampMillis row.startMs), row.spanId) = row.order
  rw [timestampMillis_fromTimestampMillis]
  rfl

theorem startTime_of_mem (hs : s ∈ clickHouseSpans w rows) :
    s.span.projectId = w.projectId ∧
      s.span.startTime = fromTimestampMillis (timestampMillis s.span.startTime) := by
  obtain ⟨row, hrow, rfl⟩ := mem_map.mp hs
  refine ⟨(of_decide_eq_true (mem_filter.mp hrow).2).1, ?_⟩
  show fromTimestampMillis row.startMs =
    fromTimestampMillis (timestampMillis (fromTimestampMillis row.startMs))
  rw [timestampMillis_fromTimestampMillis]

theorem inWindow_clickHouse_subset :
    (CloudBackfillSource.clickHouse rows).inWindow w ⊆ clickHouseSpans w rows := by
  intro s hs
  obtain ⟨hmem, hin⟩ := mem_filter.mp hs
  obtain ⟨row, hrow, rfl⟩ := mem_map.mp hmem
  obtain ⟨hproject, hfrom, hto⟩ := of_decide_eq_true hin
  refine mem_map.mpr ⟨row, mem_filter.mpr ⟨hrow, decide_eq_true ⟨hproject, ?_, ?_⟩⟩, rfl⟩
  · exact (timestampMillis_le hfrom).trans_eq (timestampMillis_fromTimestampMillis _)
  · exact (timestampMillis_fromTimestampMillis _).symm.trans_le (timestampMillis_le hto)

theorem toSpan_nodup (h : (CloudBackfillSource.clickHouse rows).Distinct) :
    (rows.map ChBackfillRow.toSpan).Nodup := by
  refine List.Nodup.of_map (fun s ↦ (s.span.projectId, s.span.traceId, s.span.spanId)) ?_
  rw [map_map]
  exact h

def clickHousePaged (h : (CloudBackfillSource.clickHouse rows).Distinct) :
    Paged (.clickHouse rows) w (ℤ ×ₗ String) where
  key := clickHouseKey
  position := clickHouseStart w
  spans := clickHouseSpans w rows
  nodup := (List.filter_sublist.map _).nodup (toSpan_nodup h)
  fetch cursor n := by
    rw [clickHouseSpans, ← page_map, clickHouseKey_toSpan]
    rfl
  after batch last hlast _ := by
    rw [cursorAfter, hlast]
    rfl
  fresh s hs := by
    obtain ⟨row, hrow, rfl⟩ := List.mem_map.mp hs
    obtain ⟨-, hfrom, -⟩ := of_decide_eq_true (List.mem_filter.mp hrow).2
    have hkey : clickHouseKey row.toSpan = row.order := congrFun clickHouseKey_toSpan row
    rw [hkey]
    refine Prod.Lex.toLex_lt_toLex.mpr (.inl ?_)
    exact (Int.sub_lt_self _ Int.one_pos).trans_le hfrom
  window := inWindow_clickHouse_subset w

theorem clickHouse_alone (h : (CloudBackfillSource.clickHouse rows).Distinct)
    (hkeys : (CloudBackfillSource.clickHouse rows).KeysApart w)
    (hs : s ∈ (CloudBackfillSource.clickHouse rows).inWindow w) :
    (clickHousePaged w h).Alone s := by
  intro s' hs' hkey
  obtain ⟨hmillis, hspan⟩ := Prod.mk.inj (toLex.injective hkey)
  obtain ⟨hproject, hstart'⟩ := startTime_of_mem w hs'
  obtain ⟨-, hstart⟩ := startTime_of_mem w (inWindow_clickHouse_subset w hs)
  have heq : s'.span.startTime = s.span.startTime := by rw [hstart', hstart, hmillis]
  have hmem : s' ∈ (CloudBackfillSource.clickHouse rows).inWindow w := by
    obtain ⟨-, hin⟩ := mem_filter.mp hs
    obtain ⟨-, hfrom, hto⟩ := of_decide_eq_true hin
    obtain ⟨row, hrow, rfl⟩ := mem_map.mp hs'
    refine mem_filter.mpr ⟨mem_map_of_mem (mem_filter.mp hrow).1, ?_⟩
    exact decide_eq_true ⟨hproject, heq ▸ hfrom, heq ▸ hto⟩
  exact inj_on_of_nodup_map hkeys hmem hs (Prod.ext heq hspan)

end ClickHouse

/-- The whole window is shipped, through any failures, exactly if the pages are cut at keys that
tell its spans apart: always from TimescaleDB, and from ClickHouse if no two spans of different
traces have the same start and span id. -/
theorem ships_whole_window_iff (source : CloudBackfillSource) (w : Window) (h : source.Distinct) :
    ShipsWholeWindow source w ↔ source.KeysApart w := by
  cases source with
  | timescale rows =>
    refine iff_of_true ?_ trivial
    exact (timescalePaged w h).shipsWholeWindow fun s hs ↦
      timescale_alone w h ((timescalePaged w h).window hs)
  | clickHouse rows =>
    constructor
    · intro hships
      refine List.Nodup.map_on (fun s hs s' hs' heq ↦ ?_) ((toSpan_nodup h).filter _)
      obtain ⟨hstart, hspan⟩ := Prod.mk.inj heq
      refine hships.key_injective (clickHousePaged w h) hs hs' ?_
      show clickHouseKey s = clickHouseKey s'
      rw [clickHouseKey, clickHouseKey, hstart, hspan]
    · intro hkeys
      exact (clickHousePaged w h).shipsWholeWindow fun s hs ↦ clickHouse_alone w h hkeys hs

def oneTrace : CloudBackfillSource := .clickHouse [⟨1, "t", "a", 5⟩, ⟨1, "t", "b", 5⟩]

theorem one_trace_shipped : ShipsWholeWindow oneTrace ⟨1, 0, 9000⟩ :=
  (ships_whole_window_iff oneTrace ⟨1, 0, 9000⟩ (by decide)).mpr (by decide)

def twoTraces : CloudBackfillSource := .clickHouse [⟨1, "t", "a", 5⟩, ⟨1, "u", "a", 5⟩]

theorem second_trace_skipped : twoTraces.Distinct ∧ ¬ ShipsWholeWindow twoTraces ⟨1, 0, 9000⟩ := by
  refine ⟨by decide, fun h ↦ ?_⟩
  have hrun : ∃ p, backfillCloudTelemetryWindow twoTraces ⟨1, 0, 9000⟩ 1 3 ⟨true, true, true, false⟩
      {} (fun _ ↦ smooth) = some ⟨.ok p.report, p⟩ ∧
        p.acknowledged = [⟨⟨1, "t", "a", 5000⟩, none⟩] := ⟨_, rfl, rfl⟩
  obtain ⟨p, hp, hacknowledged⟩ := hrun
  have hmem := h.complete .fresh hp ⟨⟨1, "u", "a", 5000⟩, none⟩ (by decide)
  rw [hacknowledged] at hmem
  exact absurd hmem (by decide)

end Temps.Otel.Backfill
