import Temps.Otel.Backfill

namespace Temps.Otel.Backfill

open Cloud Lib.Pages List Option

section Shipping

variable {scope scope' : ScopedSubmission} {spans projected : List CloudSpan} {answer : Answer}
  {answers : ℕ → Answer} {flushes shipped : ℕ} {result : Except String ℕ}

def ScopedSubmission.contents (scope : ScopedSubmission) : List CloudSpan :=
  scope.acknowledged ++ (scope.pending.getD [] ++ scope.spool.buffer)

/-- Spans only move on, from the spool to the shipment and from there to the acknowledged ones. -/
structure Passes (scope scope' : ScopedSubmission) : Prop where
  contents : scope'.contents = scope.contents
  dropped : scope'.dropped = scope.dropped
  acknowledged : scope.acknowledged <+: scope'.acknowledged

theorem Passes.refl : Passes scope scope := ⟨rfl, rfl, prefix_rfl⟩

theorem Passes.trans {scope'' : ScopedSubmission} (h : Passes scope scope')
    (h' : Passes scope' scope'') : Passes scope scope'' where
  contents := h'.contents.trans h.contents
  dropped := h'.dropped.trans h.dropped
  acknowledged := h.acknowledged.trans h'.acknowledged

theorem passes_submit (h : scope.contents = scope'.acknowledged ++ (spans ++ scope'.spool.buffer))
    (hd : scope'.dropped = scope.dropped) (ha : scope'.acknowledged = scope.acknowledged) :
    Passes scope (scope'.submit spans answer).2 := by
  cases answer with
  | notLinked | revoked | retained | blocked => exact ⟨h.symm, hd, ha ▸ prefix_rfl⟩
  | acknowledged =>
    refine ⟨?_, hd, ?_⟩
    · rw [h, ← append_assoc]
      rfl
    · rw [← ha]
      exact prefix_append _ _

theorem passes_flush : Passes scope (scope.flush answer).2 := by
  fun_cases ScopedSubmission.flush scope answer
  case case1 | case3 => exact .refl
  case case2 spans hpending =>
    refine passes_submit ?_ rfl rfl
    rw [ScopedSubmission.contents, hpending]
    rfl
  case case4 hpending spans spool _ htake =>
    obtain ⟨rfl, rfl⟩ := Prod.mk.inj htake
    refine passes_submit ?_ rfl rfl
    rw [take_append_drop, ScopedSubmission.contents, hpending]
    rfl

theorem passes_drain (h : drain answers flushes shipped scope = (result, scope')) :
    Passes scope scope' := by
  have hflush {scope flushed : ScopedSubmission} {answer : Answer} {outcome : FlushOutcome}
      (hflush : scope.flush answer = (outcome, flushed)) : Passes scope flushed := by
    have hpasses : Passes scope (scope.flush answer).2 := passes_flush
    rwa [hflush] at hpasses
  fun_induction drain answers flushes shipped scope with
  | case1 =>
    obtain ⟨-, rfl⟩ := Prod.mk.inj h
    exact .refl
  | case3 _ _ _ _ _ hshipped _ ih => exact (hflush hshipped).trans (ih h)
  | _ =>
    obtain ⟨-, rfl⟩ := Prod.mk.inj h
    exact hflush ‹_›

structure Drained (scope : ScopedSubmission) : Prop where
  buffer : scope.spool.buffer = []
  pending : scope.pending.getD [] = []

theorem Drained.contents (h : Drained scope) : scope.contents = scope.acknowledged := by
  rw [ScopedSubmission.contents, h.buffer, h.pending]
  simp

theorem drained_of_queued (h : scope.queued = 0) : Drained scope := by
  rw [ScopedSubmission.queued, Nat.add_eq_zero_iff, length_eq_zero_iff] at h
  refine ⟨h.1, ?_⟩
  cases hp : scope.pending with
  | none => rfl
  | some spans => simpa [hp] using h.2

theorem record_spec (hs : Drained scope) (projected : List CloudSpan) :
    ∃ kept, kept.Sublist projected ∧
      (scope.record projected).contents = scope.acknowledged ++ kept ∧
      (scope.record projected).dropped = scope.dropped + (projected.length - kept.length) := by
  have hsub : (scope.spool.push scopeSpoolCapacity CloudSpan.estimatedBytes projected).buffer.Sublist
      (scope.spool.buffer ++ projected) := Spool.push_sublist
  rw [hs.buffer] at hsub
  refine ⟨_, hsub, ?_, ?_⟩
  · simp [ScopedSubmission.record, ScopedSubmission.contents, hs.pending]
  · simp [ScopedSubmission.record, hs.buffer]

theorem shipBatch_spec (hs : Drained scope)
    (h : shipBatch answers scope projected = (result, scope')) :
    scope.acknowledged <+: scope'.acknowledged ∧ (result.isOk → Drained scope' ∧
      scope'.acknowledged = scope.acknowledged ++ projected) := by
  have hgrows {out : Except String ℕ} {drained : ScopedSubmission}
      (hdrain : drain answers maxFlushesPerBatch 0 (scope.record projected) = (out, drained)) :
      scope.acknowledged <+: drained.acknowledged := (passes_drain hdrain).acknowledged
  revert h
  fun_cases shipBatch answers scope projected <;> rintro ⟨⟩
  case case1 hnil => exact ⟨prefix_rfl, fun _ ↦ ⟨hs, by rw [hnil, append_nil]⟩⟩
  case case5 hdrain _ _ hqueued hdropped =>
    have hpasses := passes_drain hdrain
    obtain ⟨kept, hsub, hcontents, hcount⟩ := record_spec hs projected
    have hempty : Drained scope' := drained_of_queued (by omega)
    have hkept : kept = projected := by
      have hd := hpasses.dropped
      have hle := hsub.length_le
      exact hsub.eq_of_length (by omega)
    refine ⟨hgrows hdrain, fun _ ↦ ⟨hempty, ?_⟩⟩
    rw [← hempty.contents, hpasses.contents, hcontents, hkept]
  all_goals exact ⟨hgrows ‹_›, nofun⟩

end Shipping

section Turns

variable {source : CloudBackfillSource} {w : Window} {n : ℕ} {env : Env} {p p' : Progress}
  {error : CloudBackfillError}

theorem projectBatch_origin {sizes : SourcedSpan → Option (ℕ × ℕ)} {batch : List SourcedSpan}
    {projected : List CloudSpan} (h : projectBatch sizes batch = .ok projected) :
    projected.map CloudSpan.origin = batch := by
  fun_induction projectBatch sizes batch generalizing projected with
  | case1 =>
    cases h
    rfl
  | case2 => cases h
  | case3 sourced rest _ _ _ ih =>
    cases hrest : projectBatch sizes rest with
    | error _ => rw [hrest] at h; exact (nomatch h)
    | ok more =>
      rw [hrest] at h
      cases h
      rw [map_cons, ih hrest]

/-- A batch was read and acknowledged, and the cursor moved to its end. -/
structure Shipped (source : CloudBackfillSource) (w : Window) (n : ℕ) (p p' : Progress) : Prop where
  ne_nil : fetchBatch w p.report.finalCursor source n ≠ []
  cursor : p'.report.finalCursor = cursorAfter (fetchBatch w p.report.finalCursor source n)
  read : p'.read = p.read ++ fetchBatch w p.report.finalCursor source n
  acknowledged : p'.acknowledged = p.acknowledged ++ fetchBatch w p.report.finalCursor source n
  drained : Drained p'.scope

def Turns (source : CloudBackfillSource) (w : Window) (n : ℕ) (p : Progress) : Turn → Prop
  | .failed _ p' => p'.report = p.report ∧ p.acknowledged <+: p'.acknowledged
  | .done p' => fetchBatch w p.report.finalCursor source n = [] ∧ p' = p ∨
      Shipped source w n p p' ∧ (fetchBatch w p.report.finalCursor source n).length < n
  | .more p' => Shipped source w n p p'

theorem turns (hp : Drained p.scope) (env : Env) : Turns source w n p (turn source w n env p) := by
  rw [turn]
  split
  case isFalse => exact ⟨rfl, prefix_rfl⟩
  case isTrue =>
    set batch := fetchBatch w p.report.finalCursor source n with hbatch
    by_cases hnil : batch = []
    · rw [if_pos hnil]
      exact .inl ⟨hnil, rfl⟩
    · rw [if_neg hnil]
      cases hproj : projectBatch env.sizes batch with
      | error _ => exact ⟨rfl, prefix_rfl⟩
      | ok projected =>
        dsimp only
        rcases hship : shipBatch env.answers p.scope projected with ⟨result, scope⟩
        obtain ⟨hgrows, hall⟩ := shipBatch_spec hp hship
        cases result with
        | error _ => exact ⟨rfl, hgrows.map _⟩
        | ok shipped =>
          obtain ⟨hdrained, hacknowledged⟩ := hall rfl
          have hshipped : Shipped source w n p
              ⟨p.report.advance batch projected shipped, scope, p.read ++ batch⟩ := by
            refine ⟨hnil, rfl, rfl, ?_, hdrained⟩
            rw [Progress.acknowledged, hacknowledged, map_append, projectBatch_origin hproj]
            rfl
          dsimp only
          split
          case isTrue hshort => exact .inr ⟨hshipped, hshort⟩
          case isFalse => exact hshipped

end Turns

def CloudBackfillSource.inWindow (source : CloudBackfillSource) (w : Window) : List SourcedSpan :=
  let spans := match source with
    | .timescale rows => rows.map TimescaleRow.toSpan
    | .clickHouse rows => rows.map ChBackfillRow.toSpan
  spans.filter fun s ↦ s.span.projectId = w.projectId ∧
    w.fromTime ≤ s.span.startTime ∧ s.span.startTime ≤ w.toTime

/-- The batches of a source are pages of its spans, in the order of a key. -/
structure Paged (source : CloudBackfillSource) (w : Window) (K : Type) [LinearOrder K] where
  key : SourcedSpan → K
  position : CloudBackfillCursor → K
  spans : List SourcedSpan
  nodup : spans.Nodup
  fetch : ∀ cursor n, fetchBatch w cursor source n = page key spans n (position cursor)
  after : ∀ batch last, batch.getLast? = some last → last ∈ spans →
    position (cursorAfter batch) = key last
  fresh : ∀ s ∈ spans, position {} < key s
  window : source.inWindow w ⊆ spans

variable {source : CloudBackfillSource} {w : Window} {K : Type} [LinearOrder K]
  (paged : Paged source w K) {n fuel : ℕ} {env : ℕ → Env} {p p' : Progress} {s : SourcedSpan}

def Paged.Alone (s : SourcedSpan) : Prop := ∀ s' ∈ paged.spans, paged.key s' = paged.key s → s' = s

def Paged.here (p : Progress) : K := paged.position p.report.finalCursor

variable {paged}

theorem Shipped.last (h : Shipped source w n p p') (paged : Paged source w K) :
    ∃ last, (page paged.key paged.spans n (paged.here p)).getLast? = some last ∧
      paged.here p' = paged.key last := by
  have hpage := paged.fetch p.report.finalCursor n
  have hne := h.ne_nil
  rw [hpage] at hne
  obtain ⟨last, hlast⟩ := ne_none_iff_exists'.mp (mt List.getLast?_eq_none_iff.mp hne)
  refine ⟨last, hlast, ?_⟩
  have hmem := (mem_of_mem_page (mem_of_getLast? hlast)).1
  rw [Paged.here, h.cursor, hpage]
  exact paged.after _ last hlast hmem

theorem loop_isSome (hp : Drained p.scope)
    (hfuel : (beyond paged.key paged.spans (paged.here p)).length < fuel) :
    (loop source w n fuel env p).isSome := by
  induction fuel generalizing p env with
  | zero => exact absurd hfuel (Nat.not_lt_zero _)
  | succ fuel ih =>
    have hturn : Turns source w n p (turn source w n (env 0) p) := turns hp (env 0)
    rw [loop]
    cases h : turn source w n (env 0) p with
    | failed | done => rfl
    | more p' =>
      rw [h] at hturn
      obtain ⟨last, hlast, hat⟩ := Shipped.last hturn paged
      refine ih hturn.drained ?_
      have hlt := beyond_last_length_lt hlast
      rw [hat]
      omega

structure Going (paged : Paged source w K) (n : ℕ) (first : K) (p : Progress) : Prop where
  drained : Drained p.scope
  acknowledged : p.acknowledged = p.read
  reached : ∀ s ∈ paged.spans, paged.Alone s → first < paged.key s → paged.key s ≤ paged.here p →
    s ∈ p.read
  below : ∀ s ∈ p.read, paged.key s ≤ paged.here p
  nodup : p.read.Nodup
  apart : n ≤ 1 → (p.read.map paged.key).Nodup

variable {first : K}

theorem Going.start (cursor : CloudBackfillCursor) :
    Going paged n (paged.position cursor) (.start cursor) where
  drained := ⟨rfl, rfl⟩
  acknowledged := rfl
  reached _ _ _ hlt hle := absurd hle (not_le.mpr hlt)
  below _ h := (nomatch h)
  nodup := .nil
  apart _ := .nil

theorem Going.shipped (hp : Going paged n first p) (h : Shipped source w n p p') :
    Going paged n first p' := by
  obtain ⟨last, hlast, hat⟩ := Shipped.last h paged
  have hread : p'.read = p.read ++ page paged.key paged.spans n (paged.here p) := by
    rw [h.read, paged.fetch]
    rfl
  have hnew (s : SourcedSpan) (hs : s ∈ page paged.key paged.spans n (paged.here p)) :
      paged.here p < paged.key s := (mem_of_mem_page hs).2
  have hmoved : paged.here p ≤ paged.here p' := hat ▸ (hnew last (mem_of_getLast? hlast)).le
  refine ⟨h.drained, ?_, ?_, ?_, ?_, ?_⟩
  · rw [h.acknowledged, h.read, hp.acknowledged]
  · intro s hs halone hfirst hle
    rw [hread, mem_append]
    rcases le_or_gt (paged.key s) (paged.here p) with hold | hlater
    · exact .inl (hp.reached s hs halone hfirst hold)
    · rcases mem_page_or_beyond halone (mem_beyond.mpr ⟨hs, hlater⟩) hlast with hin | hbeyond
      · exact .inr hin
      · exact absurd (hat ▸ hle) (not_le.mpr hbeyond)
  · intro s hs
    rw [hread, mem_append] at hs
    rcases hs with hold | hin
    · exact (hp.below s hold).trans hmoved
    · exact hat ▸ le_last page_sorted hlast hin
  · rw [hread]
    refine hp.nodup.append (page_nodup paged.nodup) fun s hold hin ↦ ?_
    exact (hp.below s hold).not_gt (hnew s hin)
  · intro hone
    rw [hread, map_append]
    refine (hp.apart hone).append ?_ ?_
    · have hlen : (page paged.key paged.spans n (paged.here p)).length ≤ 1 :=
        page_length_le.trans hone
      rcases Nat.le_one_iff_eq_zero_or_eq_one.mp hlen with hnone | hsingle
      · rw [length_eq_zero_iff.mp hnone]
        exact nodup_nil
      · obtain ⟨s, hs⟩ := length_eq_one_iff.mp hsingle
        rw [hs]
        exact nodup_singleton _
    · intro k hold hin
      obtain ⟨s, hs, rfl⟩ := mem_map.mp hold
      obtain ⟨s', hs', heq⟩ := mem_map.mp hin
      exact (hp.below s hs).not_gt (heq ▸ hnew s' hs')

/-- How a run ends: it has all spans, or it fails with a cursor up to which it has them. -/
def Ends (paged : Paged source w K) (n : ℕ) (first : K) (ended : Ended) : Prop :=
  match ended.outcome with
  | .ok _ => Going paged n first ended.progress ∧
      ∀ s ∈ paged.spans, paged.key s ≤ paged.here ended.progress
  | .error _ => ∃ p, Going paged n first p ∧ paged.here p = paged.here ended.progress ∧
      p.acknowledged ⊆ ended.progress.acknowledged

theorem loop_ends (hp : Going paged n first p) (hn : 0 < n) {ended : Ended}
    (h : loop source w n fuel env p = some ended) : Ends paged n first ended := by
  induction fuel generalizing p env with
  | zero => exact (nomatch h)
  | succ fuel ih =>
    have hturn : Turns source w n p (turn source w n (env 0) p) := turns hp.drained (env 0)
    rw [loop] at h
    cases hcase : turn source w n (env 0) p with
    | failed error p' =>
      rw [hcase] at h hturn
      obtain rfl := some.inj h
      exact ⟨p, hp, by rw [Paged.here, Paged.here, hturn.1], hturn.2.subset⟩
    | done p' =>
      rw [hcase] at h hturn
      obtain rfl := some.inj h
      rcases hturn with ⟨hnil, rfl⟩ | ⟨hshipped, hshort⟩
      · refine ⟨hp, fun s hs ↦ not_lt.mp fun hlt ↦ ?_⟩
        rw [paged.fetch] at hnil
        have hmem : s ∈ beyond paged.key paged.spans (paged.here p') := mem_beyond.mpr ⟨hs, hlt⟩
        rw [Paged.here, page_eq_nil hn hnil] at hmem
        exact (nomatch hmem)
      · refine ⟨hp.shipped hshipped, fun s hs ↦ ?_⟩
        obtain ⟨last, hlast, hat⟩ := Shipped.last hshipped paged
        rw [paged.fetch] at hshort
        exact hat ▸ le_last_of_short hshort hlast hs
    | more p' =>
      rw [hcase] at h hturn
      exact ih (hp.shipped hturn) h

variable {cursor : CloudBackfillCursor} {conditions : Conditions} {ended : Ended}

abbrev clamped (n : ℕ) : ℕ := max 1 (min n maxBatchSize)

theorem backfill_ends (paged : Paged source w K)
    (h : backfillCloudTelemetryWindow source w n fuel conditions cursor env = some ended) :
    Ends paged (clamped n) (paged.position cursor) ended := by
  have hstart : Going paged (clamped n) (paged.position cursor) (.start cursor) := .start cursor
  revert h
  fun_cases backfillCloudTelemetryWindow source w n fuel conditions cursor env
  case case3 => exact loop_ends hstart (Nat.lt_of_lt_of_le Nat.one_pos (le_max_left _ _))
  all_goals
    rintro ⟨⟩
    exact ⟨_, hstart, rfl, List.Subset.refl _⟩

theorem backfill_isSome (paged : Paged source w K) (hfuel : paged.spans.length < fuel) :
    (backfillCloudTelemetryWindow source w n fuel conditions cursor env).isSome := by
  fun_cases backfillCloudTelemetryWindow source w n fuel conditions cursor env
  case case1 | case2 => rfl
  case case3 =>
    have hle : (beyond paged.key paged.spans (paged.here (.start cursor))).length ≤
        paged.spans.length := length_filter_le _ _
    exact loop_isSome ⟨rfl, rfl⟩ (hle.trans_lt hfuel)

end Temps.Otel.Backfill
