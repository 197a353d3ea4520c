import Temps.LogAggregator.Store.Contents
import Temps.LogAggregator.Store.SearchLoop

namespace Temps.LogAggregator.Store

open Lib.Keyset Lib.Unicode Lib.Utf8 Chunk Chunk.BlockRoundTrip Chunk.Summary ManifestRepo
open LogAggregator.Types List TextFilter

variable {J : Type} {c : Candidate} {r : LogLineRecord J}

namespace ChunkStore

section Conditions

variable {query : LogQuery J}

theorem resourceCondition_eq (labels : ChunkLabels) (projectIds externalServiceIds : List ℤ) :
    resourceCondition labels projectIds externalServiceIds =
      resourceIn labels projectIds externalServiceIds := by
  rw [resourceCondition, resourceIn]
  cases labels.externalServiceId with
  | none | some id => cases projectIds <;> cases externalServiceIds <;> simp

theorem buildConditions_eq (m : Manifest) : buildConditions query m =
    (m.live && (selects query (.sealed m) &&
      timeCondition m query.startTime query.endTime && levelCondition m query.levels)) := by
  simp only [buildConditions, selects, labelsMatch, scopeCondition, selectionCondition,
    sourceCondition, resourceCondition_eq]
  -- the two functions list the sources in another order
  cases query.source <;> ac_rfl

end Conditions

variable (store : ChunkStore J) (query : LogQuery J)

abbrev compiled : LineFilter J := LineFilter.compile store.platform.tables store.platform.xxh3 query

/-- The bound of a query as the times of the candidate are compared with it, those of a row by the
database and those of a head in memory. -/
def bound : Candidate → ℤ → ℤ
  | .sealed _, t => column t
  | .head _, t => t

theorem bound_mono (c : Candidate) {t t' : ℤ} (h : t ≤ t') : bound c t ≤ bound c t' := by
  cases c with
  | sealed m => exact column_mono h
  | head labels => exact h

theorem bound_endedAt (c : Candidate) : bound c c.endedAt = c.endedAt := by
  cases c with
  | sealed m => exact m.endedAt_column
  | head labels => rfl

def concerns (c : Candidate) : Bool :=
  selects query c &&
  (c.labels.startedAt ≤ bound c (store.compiled query).stop &&
    bound c query.startTime ≤ c.labels.endedAt) &&
  decide (c.labels.levelMask &&& levelMaskFor query.levels ≠ 0)

theorem concerns_iff : store.concerns query c ↔
    selects query c ∧ (c.labels.startedAt ≤ bound c (store.compiled query).stop ∧
      bound c query.startTime ≤ c.labels.endedAt) ∧
        c.labels.levelMask &&& levelMaskFor query.levels ≠ 0 := by
  simp [concerns, and_assoc]

theorem considered_perm : (store.considered query (store.compiled query)).Perm
    ((Contents.sources store).filter (store.concerns query)) := by
  have hheads : (store.headCandidates query (store.compiled query)).Perm
      ((store.heads.filterMap Head.summaryLabels).filter fun l ↦ store.concerns query (.head l)) := by
    refine (perm_insertionSort ..).trans (.of_eq (filter_congr fun l _ ↦ ?_))
    rw [Bool.eq_iff_iff, concerns_iff]
    simp only [Bool.and_eq_true, Bool.not_eq_true', Bool.or_eq_false_iff, decide_eq_false_iff_not,
      decide_eq_true_eq, not_lt]
    exact ⟨fun ⟨⟨hlabels, hstart, hstop⟩, hlevel⟩ ↦ ⟨hlabels, ⟨hstop, hstart⟩, hlevel⟩,
      fun ⟨hlabels, ⟨hstop, hstart⟩, hlevel⟩ ↦ ⟨⟨hlabels, hstart, hstop⟩, hlevel⟩⟩
  have hrows : (store.planned query (store.compiled query)).Perm
      (store.manifests.liveRows.filter fun m ↦ store.concerns query (.sealed m)) := by
    refine (perm_insertionSort ..).trans (.of_eq ?_)
    rw [Table.liveRows, filter_filter]
    refine filter_congr fun m _ ↦ ?_
    rw [buildConditions_eq, Bool.and_comm]
    rfl
  rw [Contents.sources, filter_append, filter_map, filter_map]
  exact ((hheads.map _).append (hrows.map _)).trans perm_append_comm

variable {store} {labels : ChunkLabels} {query : LogQuery J} {head : Head J} {m : Manifest}

theorem snapshot_of_mem (h : head ∈ store.heads) :
    store.snapshot head.identity.containerId = some head := by
  have hsome : (store.snapshot head.identity.containerId).isSome := by
    rw [snapshot, List.find?_isSome]
    exact ⟨head, h, beq_self_eq_true _⟩
  obtain ⟨found, hfound⟩ := Option.isSome_iff_exists.mp hsome
  have hid : found.identity.containerId = head.identity.containerId := by
    simpa using List.find?_some hfound
  rw [hfound, inj_on_of_nodup_map store.heads_nodup (mem_of_find?_eq_some hfound) h hid]

theorem summaryLabels_spec (h : head.summaryLabels = some labels) :
    labels.toChunkIdentity = head.identity ∧ ∀ line ∈ head.lines,
      labels.startedAt ≤ line.ts ∧ line.ts ≤ labels.endedAt ∧
        labels.levelMask.testBit (levelIndex line.level) := by
  have hstats : head.lines.foldl Stats.push Stats.empty = statsOf head.lines := rfl
  rw [Head.summaryLabels, hstats] at h
  split at h
  · rename_i startedAt endedAt hmin hmax
    cases h
    refine ⟨rfl, fun line hline ↦ ?_⟩
    obtain ⟨first, last, hfirst, hlast, hle, hge, hbit⟩ := statsOf_covers hline
    rw [hmin] at hfirst
    rw [hmax] at hlast
    cases hfirst
    cases hlast
    exact ⟨hle, hge, hbit⟩
  · cases h

namespace Contents

variable (contents : store.Contents)

theorem mem_sources_head (h : .head labels ∈ sources store) :
    ∃ head ∈ store.heads, head.summaryLabels = some labels ∧
      contents.records (.head labels) = headRecords labels head.lines := by
  rcases mem_append.mp h with hrow | hhead
  · obtain ⟨m, -, hm⟩ := mem_map.mp hrow
    cases hm
  · obtain ⟨labels', hlabels, hsame⟩ := mem_map.mp hhead
    cases hsame
    obtain ⟨head, hmem, hsummary⟩ := mem_filterMap.mp hlabels
    refine ⟨head, hmem, hsummary, ?_⟩
    have hid : labels.containerId = head.identity.containerId :=
      congrArg ChunkIdentity.containerId (summaryLabels_spec hsummary).1
    rw [records, hid, snapshot_of_mem hmem]
    rfl

theorem mem_sources_sealed : .sealed m ∈ sources store ↔ m ∈ store.manifests.liveRows := by
  simp [sources]

theorem head_covers (hc : .head labels ∈ sources store) (hr : r ∈ contents.records (.head labels)) :
    labels.startedAt ≤ r.timestamp ∧ r.timestamp ≤ labels.endedAt ∧
      labels.levelMask.testBit (levelIndex r.level) := by
  obtain ⟨head, -, hsummary, hrecords⟩ := contents.mem_sources_head hc
  rw [hrecords] at hr
  obtain ⟨p, hp, rfl⟩ := mem_map.mp hr
  exact (summaryLabels_spec hsummary).2 p.1 (fst_mem_of_mem_zipIdx hp)

theorem level_covered (hc : c ∈ sources store)
    (hr : r ∈ contents.records c) : c.labels.levelMask.testBit (levelIndex r.level) := by
  cases c with
  | sealed m =>
    obtain ⟨line, hline, rfl⟩ := mem_map.mp hr
    exact contents.levels m (mem_sources_sealed.mp hc) line hline
  | head labels => exact (contents.head_covers hc hr).2.2

theorem exists_record (hc : c ∈ sources store) : ∃ r, r ∈ contents.records c := by
  cases c with
  | sealed m =>
    obtain ⟨line, hline⟩ := exists_mem_of_ne_nil _ (contents.nonempty m (mem_sources_sealed.mp hc))
    exact ⟨_, mem_map_of_mem hline⟩
  | head labels =>
    obtain ⟨head, -, hsummary, hrecords⟩ := contents.mem_sources_head hc
    have hne : headRecords labels head.lines ≠ [] := by
      intro hnil
      rw [headRecords, map_eq_nil_iff, zipIdx_eq_nil_iff] at hnil
      simp [Head.summaryLabels, hnil, Stats.empty] at hsummary
    rw [hrecords]
    exact exists_mem_of_ne_nil _ hne

include contents in
theorem ordered_source (hc : c ∈ sources store) : c.labels.startedAt ≤ c.endedAt := by
  cases c with
  | sealed m => exact contents.ordered m (mem_sources_sealed.mp hc)
  | head labels =>
    obtain ⟨r, hr⟩ := contents.exists_record hc
    have hcovers := contents.head_covers hc hr
    exact hcovers.1.trans hcovers.2.1

def found (filter : LineFilter J) (c : Candidate) : List (LogLineRecord J) :=
  let newest := keepNewest filter.limit
    ((contents.records c).filter (passes store.platform.tables filter))
  match c with
  | .sealed m => if store.bloomPasses filter (contents.bloom m) then newest else []
  | .head _ => newest.reverse

theorem scan_eq (hc : c ∈ sources store) (filter : LineFilter J) :
    store.scan filter c = .ok (contents.found filter c) := by
  cases c with
  | sealed m => exact scanSealed_eq (contents.holds m (mem_sources_sealed.mp hc))
  | head labels =>
    obtain ⟨head, hmem, hsummary, hrecords⟩ := contents.mem_sources_head hc
    have hid : labels.containerId = head.identity.containerId :=
      congrArg ChunkIdentity.containerId (summaryLabels_spec hsummary).1
    rw [scan, hid, snapshot_of_mem hmem]
    simp only [found, hrecords, scanHead_iterRev]

def linesOf (query : LogQuery J) (c : Candidate) : List (LogLineRecord J) :=
  (contents.records c).filter (passes store.platform.tables (store.compiled query))

end Contents

theorem mem_considered :
    c ∈ store.considered query (store.compiled query) ↔
      c ∈ Contents.sources store ∧ store.concerns query c := by
  rw [(considered_perm store query).mem_iff, mem_filter]

theorem length_considered (query : LogQuery J) (filter : LineFilter J) :
    (store.considered query filter).length ≤ store.heads.length + store.manifests.rows.length := by
  have hheads : (store.headCandidates query filter).length ≤ store.heads.length := by
    rw [headCandidates, length_insertionSort]
    exact (length_filter_le ..).trans (length_filterMap_le ..)
  have hrows : (store.planned query filter).length ≤ store.manifests.rows.length := by
    rw [planned, length_insertionSort]
    exact length_filter_le ..
  simp only [considered, length_append, length_map]
  exact Nat.add_le_add hheads hrows

theorem search_eq {budget : SearchBudget} (hvalid : query.validate = .ok ())
    (overBudget : ℕ → Bool) : store.search budget query overBudget =
      store.searchLoop budget query (store.compiled query) overBudget
        (store.heads.length + store.manifests.rows.length + 1) 0
        ⟨store.headCandidates query (store.compiled query), [], false, none⟩ [] [] := by
  rw [search, hvalid]

theorem search_ok (contents : store.Contents) (budget : SearchBudget)
    (hvalid : query.validate = .ok ()) (overBudget : ℕ → Bool) :
    ∃ page, store.search budget query overBudget = some (.ok page) := by
  rw [search_eq hvalid]
  exact searchLoop_ok (fetched_start store query (store.compiled query))
    (fun c hc ↦ contents.scan_eq (mem_considered.mp hc).1 _)
    (Nat.lt_succ_of_le (length_considered query (store.compiled query)))

variable {query : LogQuery J} {contents : store.Contents}

def bloomAdmits (store : ChunkStore J) (text : Option Text) (bloom : Option Bloom) : Bool :=
  let entries := needleEntries store.platform.tables store.platform.xxh3
    (needleOf store.platform.tables text)
  entries.isEmpty || bloom.all fun bloom ↦ bloom.containsAll store.platform.xxh3 entries == some true

/-- The stores whose lines can be paged through: no two lines have the same key, each source is in
the order of the keys, its row bounds its times, its bloom filter has the texts that its lines
contain, and no key is above the cursor that resumes at its time. -/
structure Readable (contents : store.Contents) : Prop where
  keys : (contents.all.map LogLineRecord.key).Nodup
  ascending : ∀ c ∈ Contents.sources store,
    (contents.records c).Pairwise fun a b ↦ a.key < b.key
  times : ∀ m ∈ store.manifests.liveRows, ∀ r ∈ contents.records (.sealed m),
    m.labels.startedAt ≤ column r.timestamp ∧ r.timestamp ≤ m.labels.endedAt
  blooms : ∀ m ∈ store.manifests.liveRows, ∀ text : Text, (encode text).length ≤ 1024 →
    ∀ r ∈ contents.records (.sealed m),
      textMatches store.platform.tables (needleOf store.platform.tables (some text)) r.message =
        true → store.bloomAdmits (some text) (contents.bloom m) = true
  resumes : ∀ c ∈ Contents.sources store, ∀ r ∈ contents.all, r.timestamp = c.endedAt →
    r.key < resumeCursor c.endedAt

variable (h : Readable contents)
include h

namespace Readable

theorem covers (hc : c ∈ Contents.sources store)
    (hr : r ∈ contents.records c) :
    c.labels.startedAt ≤ bound c r.timestamp ∧ r.timestamp ≤ c.endedAt := by
  cases c with
  | sealed m => exact h.times m (Contents.mem_sources_sealed.mp hc) r hr
  | head labels =>
    have hcovers := contents.head_covers hc hr
    exact ⟨hcovers.1, hcovers.2.1⟩

theorem linesOf_nil (hc : c ∈ Contents.sources store) (hselects : selects query c)
    (hconcerns : store.concerns query c = false) : contents.linesOf query c = [] := by
  refine filter_eq_nil_iff.mpr fun r hr hpass ↦ ?_
  obtain ⟨hstart, hend⟩ := h.covers hc hr
  have hwindow := window_of_passes hpass
  have htrue := (concerns_iff store query).mpr ⟨hselects,
    ⟨hstart.trans (bound_mono c hwindow.2),
      (bound_mono c (hwindow.1.trans hend)).trans_eq (bound_endedAt c)⟩,
    masks_meet hpass (contents.level_covered hc hr)⟩
  rw [hconcerns] at htrue
  cases htrue

theorem lines_perm :
    ((store.considered query (store.compiled query)).flatMap (contents.linesOf query)).Perm
      ((contents.expected query).filter fun r ↦ query.before.all (r.key < ·)) := by
  have hfilter : (Contents.sources store).filter (store.concerns query) =
      ((Contents.sources store).filter (selects query)).filter (store.concerns query) := by
    rw [filter_filter]
    refine filter_congr fun c _ ↦ ?_
    cases hselects : selects query c <;> simp [concerns, hselects]
  refine ((considered_perm store query).flatMap_right _).trans (.of_eq ?_)
  rw [hfilter, Lib.Absorb.flatMap_filter_of_nil fun c hc hfalse ↦ ?_]
  · rw [Contents.expected, filter_flatMap]
    refine flatMap_congr fun c _ ↦ ?_
    rw [filter_filter]
    refine filter_congr fun r _ ↦ ?_
    rw [Bool.eq_iff_iff, passes_compile, Bool.and_eq_true, Option.all_eq_true, and_comm]
    simp
  · obtain ⟨hmem, hselects⟩ := mem_filter.mp hc
    exact h.linesOf_nil hmem hselects hfalse

variable (htext : ∀ text, query.text = some text → (encode text).length ≤ 1024)
include htext

theorem bloomPasses (hm : m ∈ store.manifests.liveRows)
    (hr : r ∈ contents.linesOf query (.sealed m)) :
    store.bloomPasses (store.compiled query) (contents.bloom m) := by
  obtain ⟨hmem, hpass⟩ := mem_filter.mp hr
  obtain ⟨-, -, -, hmatches, -⟩ := passes_iff.mp hpass
  have hadmits : store.bloomAdmits query.text (contents.bloom m) := by
    cases hquery : query.text with
    | none => rfl
    | some text =>
      simp only [LineFilter.compile, hquery] at hmatches
      exact h.blooms m hm text (htext text hquery) r hmem hmatches
  exact hadmits

theorem scanned (hlimit : 0 < query.limit) :
    store.Scanned query.limit (store.compiled query)
      (store.considered query (store.compiled query)) (contents.linesOf query)
      (contents.found (store.compiled query)) (fun c ↦ (contents.linesOf query c).take
        ((contents.linesOf query c).length - query.limit)) where
  keys := by
    refine (((considered_perm store query).flatMap_right _).map _).nodup_iff.mpr ?_
    refine h.keys.sublist (List.Sublist.map _ ?_)
    exact (filter_sublist.flatMap _).trans
      (List.Sublist.flatMap_right _ fun c _ ↦ filter_sublist)
  scan c hc := contents.scan_eq (mem_considered.mp hc).1 _
  newest c hc := by
    have hmem := (mem_considered.mp hc).1
    have hmax : (store.compiled query).limit = query.limit := max_eq_left hlimit
    have hnewest := newest_keepNewest query.limit
      ((h.ascending c hmem).sublist (filter_sublist
        (p := passes store.platform.tables (store.compiled query))))
    cases c with
    | sealed m =>
      rw [Contents.found, hmax]
      split
      · exact hnewest
      · rename_i hrefused
        have hnil : contents.linesOf query (.sealed m) = [] :=
          eq_nil_iff_forall_not_mem.mpr fun r hr ↦
            hrefused (h.bloomPasses htext (Contents.mem_sources_sealed.mp hmem) hr)
        rw [hnil]
        exact ⟨by simp, by simp, by simp⟩
    | head labels =>
      rw [Contents.found, hmax]
      exact hnewest.of_perm (reverse_perm _)
  bound c hc r hr := (h.covers (mem_considered.mp hc).1 (mem_filter.mp hr).1).2

theorem search_answers (budget : SearchBudget)
    (hvalid : query.validate = .ok ()) (hlimit : 0 < query.limit) (overBudget : ℕ → Bool) :
    ∃ page rest, store.search budget query overBudget = some (.ok page) ∧
      Answers (store.considered query (store.compiled query)) (store.compiled query).stop
        ((store.considered query (store.compiled query)).flatMap (contents.linesOf query))
        page rest := by
  obtain ⟨page, hpage⟩ := search_ok contents budget hvalid overBudget
  obtain ⟨rest, hanswers⟩ := searchLoop_answers hlimit (h.scanned htext hlimit)
    ((search_eq hvalid overBudget).symm.trans hpage)
  exact ⟨page, rest, hpage, hanswers⟩

end Readable

end ChunkStore

end Temps.LogAggregator.Store
