import Mathlib.Data.List.Sort
import Temps.Otel.ModeChanges

namespace Temps.Otel

open Lib Lib.Timeline List

structure WindowResolution where
  source : CloudTelemetryWriteMode
  windowClampedAt : Option DBDateTime
  fromTime : DBDateTime
  toTime : DBDateTime
deriving DecidableEq

structure TraceQuery where
  projectId : ProjectId
  startTime : Option DBDateTime
  endTime : Option DBDateTime
deriving DecidableEq

/-- The store that is asked, what it is asked, and where the window was cut. -/
structure RoutedQuery where
  source : CloudTelemetryWriteMode
  query : TraceQuery
  windowClampedAt : Option DBDateTime
deriving DecidableEq

def minUtc : DBDateTime := 0

def sortByFrom (intervals : List WriteInterval) : List WriteInterval :=
  intervals.insertionSort fun a b ↦ a.effectiveFrom ≤ b.effectiveFrom

def resolveWindow (intervals : List WriteInterval) (fromTime toTime : DBDateTime) :
    WindowResolution :=
  let touched := sortByFrom <| intervals.filter fun i ↦
    i.effectiveFrom ≤ toTime ∧ ∀ ends ∈ i.effectiveTo, fromTime ≤ ends
  match touched.getLast? with
  | none => ⟨.localStore, none, fromTime, toTime⟩
  | some newest =>
    if touched.any (·.mode ≠ newest.mode) then
      let clampAt := max newest.effectiveFrom fromTime
      ⟨newest.mode, some clampAt, clampAt, toTime⟩
    else ⟨newest.mode, none, fromTime, toTime⟩

section Routing

variable (inYears : DBDateTime → Bool) (s : System)

def bindableInstant (value : DBDateTime) : Option DBDateTime :=
  if inYears value then some value else none

def intervalsCoveringForGroup (projectId : ProjectId) (fromTime toTime : DBDateTime)
    (group : TelemetrySignalGroup) : List WriteInterval :=
  sortByFrom <| (ledger s.db.intervals projectId group).filter fun i ↦
    (∀ bound ∈ bindableInstant inYears toTime, i.effectiveFrom ≤ bound) ∧
      ∀ ends ∈ i.effectiveTo, ∀ bound ∈ bindableInstant inYears fromTime, bound ≤ ends

def resolveReadWindow (projectId : ProjectId) (fromTime toTime : DBDateTime) : WindowResolution :=
  resolveWindow (intervalsCoveringForGroup inYears s projectId fromTime toTime .spans) fromTime
    toTime

def resolve (projectId : ProjectId) (start stop : Option DBDateTime) : WindowResolution :=
  resolveReadWindow inYears s projectId (start.getD minUtc) (stop.getD s.now)

def clamped (query : TraceQuery) (resolution : WindowResolution) : TraceQuery :=
  if resolution.windowClampedAt.isSome then { query with startTime := some resolution.fromTime }
  else query

def querySpans (query : TraceQuery) : RoutedQuery :=
  let resolution := resolve inYears s query.projectId query.startTime query.endTime
  match resolution.source with
  | .localStore => ⟨.localStore, query, resolution.windowClampedAt⟩
  | .cloud => ⟨.cloud, clamped query resolution, resolution.windowClampedAt⟩

end Routing

def TraceQuery.fromTime (query : TraceQuery) : DBDateTime := query.startTime.getD minUtc

def TraceQuery.toTime (query : TraceQuery) (s : System) : DBDateTime := query.endTime.getD s.now

def spanTimeline (s : System) (query : TraceQuery) :
    List (Stretch DBDateTime CloudTelemetryWriteMode) :=
  timeline s.db.intervals query.projectId .spans

/-- The store that answers held the whole window it is asked for, which is the longest part of the
request up to its end that this store held; and a cut is reported exactly if there was one, unless
a switch falls on the very first instant of the request. -/
structure AnsweredSoundly (s : System) (query : TraceQuery) (answer : RoutedQuery) : Prop where
  fromTime : query.fromTime ≤ answer.query.fromTime
  toTime : answer.query.toTime s = query.toTime s
  held : Held .localStore (spanTimeline s query) answer.source answer.query.fromTime
    (answer.query.toTime s)
  longest : ∀ f, query.fromTime ≤ f → f ≤ query.toTime s →
    Held .localStore (spanTimeline s query) answer.source f (query.toTime s) →
      answer.query.fromTime ≤ f
  reported : (∀ a ∈ spanTimeline s query, a.start ≠ query.fromTime) →
    (answer.windowClampedAt = none ↔ answer.query.fromTime = query.fromTime)

/-- If the ledger switches inside the window, the newest of these switches is to `cloud`, and not
the first switch of the project. -/
def SafeWindow (l : List (Stretch DBDateTime CloudTelemetryWriteMode))
    (fromTime toTime : DBDateTime) : Prop :=
  ∀ n ∈ (l.filter fun a ↦ fromTime < a.start ∧ a.start ≤ toTime).getLast?,
    n.mode = .cloud ∧ l.head? ≠ some n

instance (l : List (Stretch DBDateTime CloudTelemetryWriteMode)) (fromTime toTime : DBDateTime) :
    Decidable (SafeWindow l fromTime toTime) :=
  inferInstanceAs (Decidable (∀ n ∈ List.getLast? _, _ ∧ _))

section Resolution

variable {inYears : DBDateTime → Bool} {s : System} {p : ProjectId} {l pre post : List WriteInterval}
  {n : WriteInterval} {fromTime toTime : DBDateTime}

theorem sortByFrom_eq (h : l.Pairwise fun a b ↦ a.effectiveFrom ≤ b.effectiveFrom) :
    sortByFrom l = l := h.insertionSort_eq

abbrev Touches (fromTime toTime : DBDateTime) (i : WriteInterval) : Prop :=
  i.effectiveFrom ≤ toTime ∧ ∀ ends ∈ i.effectiveTo, fromTime ≤ ends

theorem sorted_of_adjoins (h : Adjoins (l.map WriteInterval.stretch)) :
    l.Pairwise fun a b ↦ a.effectiveFrom ≤ b.effectiveFrom :=
  List.Pairwise.of_map WriteInterval.stretch (fun _ _ hab ↦ hab) (pairwise_start h.chain)

theorem touched_covering (hs : Sane s) :
    (intervalsCoveringForGroup inYears s p fromTime toTime .spans).filter
        (fun i ↦ Touches fromTime toTime i) =
      (ledger s.db.intervals p .spans).filter fun i ↦ Touches fromTime toTime i := by
  rw [intervalsCoveringForGroup, sortByFrom_eq ((sorted_of_adjoins (hs.adjoins p .spans)).filter _),
    filter_filter]
  refine filter_congr fun i _ ↦ ?_
  have hbound {value bound : DBDateTime} (h : bound ∈ bindableInstant inYears value) :
      value = bound := by
    exact Option.some.inj (Option.ite_none_right_eq_some.mp h).2
  by_cases ht : Touches fromTime toTime i
  · rw [decide_eq_true ht]
    refine decide_eq_true ⟨fun bound hb ↦ hbound hb ▸ ht.1, fun ends he bound hb ↦ ?_⟩
    exact hbound hb ▸ ht.2 ends he
  · rw [decide_eq_false ht, Bool.false_and]

theorem getLast?_inside {pre post : List (Stretch DBDateTime CloudTelemetryWriteMode)}
    {n : Stretch DBDateTime CloudTelemetryWriteMode} (h : Adjoins (pre ++ n :: post))
    (hn : n.start ≤ toTime) (hpost : ∀ a ∈ post, toTime < a.start) :
    ((pre ++ n :: post).filter fun a ↦ fromTime < a.start ∧ a.start ≤ toTime).getLast? =
      if fromTime < n.start then some n else none := by
  have hnil : post.filter (fun a ↦ fromTime < a.start ∧ a.start ≤ toTime) = [] := by
    rw [filter_eq_nil_iff]
    intro a ha hin
    exact absurd (of_decide_eq_true hin).2 (not_le.mpr (hpost a ha))
  rw [filter_append, filter_cons, hnil]
  by_cases hin : fromTime < n.start
  · rw [if_pos (decide_eq_true ⟨hin, hn⟩), if_pos hin, List.getLast?_append]
    rfl
  · have hpre : pre.filter (fun a ↦ fromTime < a.start ∧ a.start ≤ toTime) = [] := by
      rw [filter_eq_nil_iff]
      intro a ha hbetween
      obtain ⟨e, -, hle, hen⟩ := stop_le_of_isChain h.chain ha
      exact hin ((of_decide_eq_true hbetween).1.trans_le (hle.trans hen))
    rw [if_neg fun hc ↦ hin (of_decide_eq_true hc).1, if_neg hin, hpre]
    rfl

section

variable (h : Adjoins ((pre ++ n :: post).map WriteInterval.stretch))
include h

variable (hn : n.effectiveFrom ≤ toTime)

include hn in
theorem straddles_iff :
    (pre.filter fun i ↦ Touches fromTime toTime i).any (·.mode ≠ n.mode) ↔
      pre ≠ [] ∧ fromTime ≤ n.effectiveFrom := by
  rw [map_append] at h
  constructor
  · intro hany
    obtain ⟨i, hi, -⟩ := any_eq_true.mp hany
    obtain ⟨hmem, ht⟩ := mem_filter.mp hi
    obtain ⟨e, he, -, hle⟩ := stop_le_of_isChain h.chain (mem_map_of_mem hmem)
    exact ⟨ne_nil_of_mem hmem, ((of_decide_eq_true ht).2 e he).trans hle⟩
  · rintro ⟨hne, hle⟩
    obtain ⟨front, i, rfl⟩ := (eq_nil_or_concat pre).resolve_left hne
    rw [concat_eq_append] at h
    rw [map_append, append_assoc] at h
    have hfollow : Follows i.stretch n.stretch := (isChain_append.mp h.chain).2.1.rel
    have hstop : i.effectiveTo = some n.effectiveFrom := hfollow.stop
    have ht : Touches fromTime toTime i := by
      refine ⟨hfollow.start_le.trans hn, fun ends he ↦ ?_⟩
      exact Option.some.inj (hstop.symm.trans he) ▸ hle
    refine any_eq_true.mpr ⟨i, mem_filter.mpr ⟨by simp, decide_eq_true ht⟩, ?_⟩
    exact decide_eq_true hfollow.mode_ne

variable (hpost : ∀ b ∈ post.head?, toTime < b.effectiveFrom)
include hpost

theorem lt_stop : ∀ ends ∈ n.effectiveTo, toTime < ends := by
  intro ends hends
  rw [map_append] at h
  cases post with
  | nil =>
    have hopen : n.effectiveTo = none := h.last_open
    rw [hopen] at hends
    cases hends
  | cons b post =>
    have hfollow : Follows n.stretch b.stretch := (isChain_append.mp h.chain).2.1.rel
    have hstop : n.effectiveTo = some b.effectiveFrom := hfollow.stop
    obtain rfl : b.effectiveFrom = ends := Option.some.inj (hstop.symm.trans hends)
    exact hpost b rfl

theorem lt_start_post : ∀ i ∈ post, toTime < i.effectiveFrom := by
  intro i hi
  rw [map_append] at h
  cases post with
  | nil => cases hi
  | cons b post =>
    have hchain : (b.stretch :: post.map WriteInterval.stretch).IsChain Follows :=
      (isChain_append.mp h.chain).2.1.tail
    have hle : b.effectiveFrom ≤ i.effectiveFrom := by
      refine head_start_le hchain i.stretch ?_
      exact mem_map_of_mem hi
    exact (hpost b rfl).trans_le hle

include hn

theorem touched_eq (hwindow : fromTime ≤ toTime) :
    (pre ++ n :: post).filter (fun i ↦ Touches fromTime toTime i) =
      pre.filter (fun i ↦ Touches fromTime toTime i) ++ [n] := by
  have hnil : post.filter (Touches fromTime toTime) = [] := by
    rw [filter_eq_nil_iff]
    intro i hi ht
    exact absurd (of_decide_eq_true ht).1 (not_le.mpr (lt_start_post h hpost i hi))
  have htouch : Touches fromTime toTime n :=
    ⟨hn, fun ends he ↦ hwindow.trans (lt_stop h hpost ends he).le⟩
  rw [filter_append, filter_cons, if_pos (decide_eq_true htouch), hnil]

theorem resolveWindow_newest
    (hwindow : fromTime ≤ toTime) (hl : l.filter (fun i ↦ Touches fromTime toTime i) =
      (pre ++ n :: post).filter fun i ↦ Touches fromTime toTime i) :
    resolveWindow l fromTime toTime =
      if pre ≠ [] ∧ fromTime ≤ n.effectiveFrom then
        ⟨n.mode, some n.effectiveFrom, n.effectiveFrom, toTime⟩
      else ⟨n.mode, none, fromTime, toTime⟩ := by
  have htouched : sortByFrom (l.filter fun i ↦ Touches fromTime toTime i) =
      pre.filter (Touches fromTime toTime) ++ [n] := by
    rw [hl, sortByFrom_eq ((sorted_of_adjoins h).filter _), touched_eq h hn hpost hwindow]
  have hany : (pre.filter (Touches fromTime toTime) ++ [n]).any (·.mode ≠ n.mode) ↔
      pre ≠ [] ∧ fromTime ≤ n.effectiveFrom := by
    rw [← straddles_iff h hn]
    simp
  unfold resolveWindow
  simp only [htouched, List.getLast?_append, List.getLast?_singleton, Option.some_or]
  by_cases hc : pre ≠ [] ∧ fromTime ≤ n.effectiveFrom
  · rw [if_pos (hany.mpr hc), if_pos hc, max_eq_left hc.2]
  · rw [if_neg fun hs ↦ hc (hany.mp hs), if_neg hc]

theorem safeWindow_iff (hne : ∀ i ∈ pre, i.effectiveTo ≠ some i.effectiveFrom) :
    SafeWindow ((pre ++ n :: post).map WriteInterval.stretch) fromTime toTime ↔
      (fromTime < n.effectiveFrom → n.mode = .cloud ∧ pre ≠ []) := by
  have hlater : ∀ a ∈ post.map WriteInterval.stretch, toTime < a.start := by
    intro a ha
    obtain ⟨i, hi, rfl⟩ := mem_map.mp ha
    exact lt_start_post h hpost i hi
  rw [map_append, map_cons] at h ⊢
  have hhead : (pre.map WriteInterval.stretch ++ n.stretch :: post.map WriteInterval.stretch).head? ≠
      some n.stretch ↔ pre ≠ [] := by
    cases pre with
    | nil => simp
    | cons i pre =>
      simp only [ne_eq, reduceCtorEq, not_false_eq_true, iff_true, map_cons, cons_append,
        List.head?_cons, Option.some.injEq]
      intro heq
      have hlt := start_lt_of_isChain h.chain mem_cons_self (hne i mem_cons_self)
      rw [heq] at hlt
      exact lt_irrefl _ hlt
  rw [SafeWindow, getLast?_inside h hn hlater]
  by_cases hin : fromTime < n.effectiveFrom
  · have hin' : fromTime < n.stretch.start := hin
    rw [if_pos hin']
    constructor
    · intro hall _
      exact ⟨(hall n.stretch rfl).1, hhead.mp (hall n.stretch rfl).2⟩
    · rintro hall m hm
      obtain rfl : n.stretch = m := Option.some.inj hm
      exact ⟨(hall hin).1, hhead.mpr (hall hin).2⟩
  · have hin' : ¬ fromTime < n.stretch.start := hin
    rw [if_neg hin']
    exact iff_of_true nofun fun hlt ↦ absurd hlt hin

end

theorem resolveWindow_before (hl : l.filter (fun i ↦ Touches fromTime toTime i) = []) :
    resolveWindow l fromTime toTime = ⟨.localStore, none, fromTime, toTime⟩ := by
  unfold resolveWindow
  rw [hl]
  rfl

end Resolution

section Soundness

variable {inYears : DBDateTime → Bool} {s : System} {query : TraceQuery}
  {pre post : List WriteInterval} {n : WriteInterval}

theorem resolve_eq : resolve inYears s query.projectId query.startTime query.endTime =
    resolveWindow (intervalsCoveringForGroup inYears s query.projectId query.fromTime
      (query.toTime s) .spans) query.fromTime (query.toTime s) := rfl

variable (hs : Sane s)
include hs

theorem sound_before
    (hall : ∀ i ∈ ledger s.db.intervals query.projectId .spans, query.toTime s < i.effectiveFrom) :
    AnsweredSoundly s query (querySpans inYears s query) ∧
      SafeWindow (spanTimeline s query) query.fromTime (query.toTime s) := by
  have hnil : (ledger s.db.intervals query.projectId .spans).filter
      (fun i ↦ Touches query.fromTime (query.toTime s) i) = [] := by
    rw [filter_eq_nil_iff]
    intro i hi ht
    exact absurd (of_decide_eq_true ht).1 (not_le.mpr (hall i hi))
  have hanswer : querySpans inYears s query = ⟨.localStore, query, none⟩ := by
    rw [querySpans, resolve_eq, resolveWindow_before ((touched_covering hs).trans hnil)]
  have hstart : ∀ a ∈ spanTimeline s query, query.toTime s < a.start := by
    intro a ha
    obtain ⟨i, hi, rfl⟩ := mem_map.mp ha
    exact hall i hi
  rw [hanswer]
  refine ⟨⟨le_rfl, rfl, fun x _ hx ↦ modeAt_before fun a ha ↦ hx.trans_lt (hstart a ha),
    fun f hf _ _ ↦ hf, fun _ ↦ iff_of_true rfl rfl⟩, ?_⟩
  have hempty : (spanTimeline s query).filter
      (fun a ↦ query.fromTime < a.start ∧ a.start ≤ query.toTime s) = [] := by
    rw [filter_eq_nil_iff]
    intro a ha hin
    exact absurd (of_decide_eq_true hin).2 (not_le.mpr (hstart a ha))
  rw [SafeWindow, hempty]
  exact nofun

variable (hl : ledger s.db.intervals query.projectId .spans = pre ++ n :: post)
  (hn : n.effectiveFrom ≤ query.toTime s)
  (hpost : ∀ b ∈ post.head?, query.toTime s < b.effectiveFrom)
  (hwindow : query.fromTime ≤ query.toTime s)
include hl hn hpost hwindow

theorem querySpans_newest : querySpans inYears s query =
      if pre ≠ [] ∧ query.fromTime ≤ n.effectiveFrom then
        ⟨n.mode, if n.mode = .cloud then { query with startTime := some n.effectiveFrom } else query,
          some n.effectiveFrom⟩
      else ⟨n.mode, query, none⟩ := by
  have hadjoins : Adjoins ((pre ++ n :: post).map WriteInterval.stretch) :=
    hl ▸ hs.adjoins query.projectId .spans
  have hcovering : (intervalsCoveringForGroup inYears s query.projectId query.fromTime
      (query.toTime s) .spans).filter (fun i ↦ Touches query.fromTime (query.toTime s) i) =
        (pre ++ n :: post).filter fun i ↦ Touches query.fromTime (query.toTime s) i := by
    rw [touched_covering hs, hl]
  rw [querySpans, resolve_eq, resolveWindow_newest hadjoins hn hpost hwindow hcovering]
  by_cases hc : pre ≠ [] ∧ query.fromTime ≤ n.effectiveFrom
  · simp only [if_pos hc]
    cases n.mode <;> rfl
  · simp only [if_neg hc]
    cases n.mode <;> rfl

theorem sound_newest (hne : ∀ i ∈ pre, i.effectiveTo ≠ some i.effectiveFrom) :
    AnsweredSoundly s query (querySpans inYears s query) ↔
      SafeWindow (spanTimeline s query) query.fromTime (query.toTime s) := by
  have htl : spanTimeline s query = (pre ++ n :: post).map WriteInterval.stretch := by
    rw [spanTimeline, timeline, hl]
  have hadjoins : Adjoins ((pre ++ n :: post).map WriteInterval.stretch) :=
    htl ▸ hs.adjoins query.projectId .spans
  have hfirst : pre = [] → n.mode = .cloud := by
    rintro rfl
    refine hs.first query.projectId .spans n.stretch ?_
    rw [← spanTimeline, htl]
    rfl
  have hheld {m : CloudTelemetryWriteMode} {f : DBDateTime} (hf : f ≤ query.toTime s) :
      Held .localStore (spanTimeline s query) m f (query.toTime s) ↔
        n.mode = m ∧ n.effectiveFrom ≤ f := by
    rw [htl]
    rw [map_append] at hadjoins ⊢
    refine held_iff hadjoins (fun a ha ↦ ?_) (fun hnil ↦ ?_) hn (fun b hb ↦ ?_) hf
    · obtain ⟨i, hi, rfl⟩ := mem_map.mp ha
      exact hne i hi
    · have hcloud : n.mode = .cloud := hfirst (map_eq_nil_iff.mp hnil)
      intro hlocal
      cases hcloud.symm.trans hlocal
    · rw [List.head?_map] at hb
      obtain ⟨i, hi, rfl⟩ := Option.map_eq_some_iff.mp hb
      exact hpost i hi
  have hmem : n.stretch ∈ spanTimeline s query := by
    rw [htl]
    exact mem_map_of_mem (by simp)
  rw [htl, safeWindow_iff hadjoins hn hpost hne, querySpans_newest hs hl hn hpost hwindow]
  by_cases hin : query.fromTime < n.effectiveFrom
  · by_cases hpre : pre = []
    · -- the request begins before the first switch, and Cloud answers all of it
      rw [if_neg fun hc ↦ hc.1 hpre]
      refine iff_of_false (fun hsound ↦ ?_) fun hall ↦ (hall hin).2 hpre
      exact absurd ((hheld hwindow).mp hsound.held).2 (not_le.mpr hin)
    · rw [if_pos ⟨hpre, hin.le⟩]
      cases hmode : n.mode with
      | localStore =>
        -- the window is resolved to its local part, and the local store is asked for all of it
        refine iff_of_false (fun hsound ↦ ?_) fun hall ↦ ?_
        · exact absurd ((hheld hwindow).mp hsound.held).2 (not_le.mpr hin)
        · cases (hall hin).1
      | cloud =>
        refine iff_of_true ?_ fun _ ↦ ⟨rfl, hpre⟩
        refine ⟨hin.le, rfl, (hheld hn).mpr ⟨hmode, le_rfl⟩, fun f _ hf h ↦ ((hheld hf).mp h).2,
          fun _ ↦ iff_of_false (by simp) fun h ↦ hin.ne' h⟩
  · refine iff_of_true ?_ fun hlt ↦ absurd hlt hin
    by_cases hc : pre ≠ [] ∧ query.fromTime ≤ n.effectiveFrom
    · -- the switch falls on the first instant of the request
      have heq : n.effectiveFrom = query.fromTime := le_antisymm (not_lt.mp hin) hc.2
      have hwhole : (if n.mode = .cloud then { query with startTime := some n.effectiveFrom }
          else query).fromTime = query.fromTime := by
        split
        · exact heq
        · rfl
      have hend : (if n.mode = .cloud then { query with startTime := some n.effectiveFrom }
          else query).toTime s = query.toTime s := by
        split <;> rfl
      rw [if_pos hc]
      refine ⟨hwhole.ge, hend, ?_, fun f hf _ _ ↦ hwhole.trans_le hf, fun hno ↦ ?_⟩
      · rw [hwhole, hend]
        exact (hheld hwindow).mpr ⟨rfl, heq.le⟩
      · exact absurd heq (hno n.stretch hmem)
    · rw [if_neg hc]
      exact ⟨le_rfl, rfl, (hheld hwindow).mpr ⟨rfl, not_lt.mp hin⟩, fun f hf _ _ ↦ hf,
        fun _ ↦ iff_of_true rfl rfl⟩

end Soundness

/-- In every state that a run reaches, for every request whose ledger has no empty interval: the
answer is sound exactly when the newest switch inside the window, if any, is to `cloud` and not the
project's first. -/
theorem span_queries_sound_iff {s : System} (h : Fresh s) (acts : List Act)
    (inYears : DBDateTime → Bool) (query : TraceQuery)
    (hne : ∀ i ∈ ledger (run s acts).db.intervals query.projectId .spans,
      i.effectiveTo ≠ some i.effectiveFrom)
    (hwindow : query.fromTime ≤ query.toTime (run s acts)) :
    AnsweredSoundly (run s acts) query (querySpans inYears (run s acts) query) ↔
      SafeWindow (spanTimeline (run s acts) query) query.fromTime (query.toTime (run s acts)) := by
  have hs := h.sane.run acts
  rcases exists_newest WriteInterval.effectiveFrom
    (ledger (run s acts).db.intervals query.projectId .spans) (query.toTime (run s acts))
    with hall | ⟨pre, n, post, hl, hn, hpost⟩
  · have hsound : AnsweredSoundly _ query (querySpans inYears _ query) ∧ _ := sound_before hs hall
    exact iff_of_true hsound.1 hsound.2
  · refine sound_newest hs hl hn hpost hwindow fun i hi ↦ hne i ?_
    rw [hl]
    exact mem_append_left _ hi

theorem inside_cloud_sound :
    let s := run linkedInstance [.tick 10, .setWriteMode 1 .cloud linkedSnapshot allSucceed [],
      .tick 10]
    AnsweredSoundly s ⟨1, some 12, some 15⟩ (querySpans (fun _ ↦ true) s ⟨1, some 12, some 15⟩) :=
  (span_queries_sound_iff linkedInstance_fresh _ _ ⟨1, some 12, some 15⟩ (by decide)
    (by decide)).mpr (by decide)

/-- The project moved to Cloud at instant 10; Cloud answers for the time since instant 5. -/
theorem before_cutover_unsound :
    let s := run linkedInstance [.tick 10, .setWriteMode 1 .cloud linkedSnapshot allSucceed [],
      .tick 10]
    Fresh linkedInstance ∧ querySpans (fun _ ↦ true) s ⟨1, some 5, some 15⟩ =
      ⟨.cloud, ⟨1, some 5, some 15⟩, none⟩ ∧
    ¬ AnsweredSoundly s ⟨1, some 5, some 15⟩
      (querySpans (fun _ ↦ true) s ⟨1, some 5, some 15⟩) :=
  ⟨linkedInstance_fresh, by decide, fun h ↦ absurd (h.held 5 (by decide) (by decide)) (by decide)⟩

end Temps.Otel
