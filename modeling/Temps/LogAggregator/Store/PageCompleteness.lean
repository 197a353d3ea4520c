import Mathlib.Data.List.Pairwise
import Temps.LogAggregator.Services.CompactionRuns
import Temps.LogAggregator.Store.Paging

namespace Temps.LogAggregator.Store.ChunkStore

open Lib.Keyset Lib.Unicode Lib.Utf8 Chunk Services.Seal ManifestRepo TextFilter List
open LogAggregator.Types Chunk.BlockRoundTrip Chunk.ChunkRoundTrip Services.Compactor

variable {J : Type} {store : ChunkStore J}

/-- Paging through any valid query from the start, whenever the budget of a page is used up, ends
and gives the lines that the query asks for once each and newest first. -/
def Complete (contents : store.Contents) : Prop :=
  ∀ (budget : SearchBudget) (query : LogQuery J) (overBudget : ℕ → ℕ → Bool),
    query.validate = .ok () → ∃ pages, Paged store budget query overBudget 0 none pages ∧
      (pages.flatMap LogPage.lines).Perm (contents.expected query) ∧
        (pages.flatMap LogPage.lines).Pairwise fun a b ↦ b.key < a.key

def everything (start stop : ℤ) (text : Option Text) : LogQuery J where
  scope := .all
  startTime := start
  endTime := stop
  source := .collected
  selection := none
  levels := []
  envs := []
  services := []
  containerIds := []
  nodeIds := []
  deployId := none
  text := text
  before := none
  limit := 1
  attrs := []
  chunkSeqs := none

section Necessary

variable {contents : store.Contents} {budget : SearchBudget} {query : LogQuery J}
  {overBudget : ℕ → ℕ → Bool} {start stop : ℤ} {text : Option Text} {r : LogLineRecord J}
  {c : Candidate} {cursor : Option LogLineKey} {spent : ℕ → Bool}

theorem validate_everything (h : start < stop)
    (htext : ∀ t, text = some t → (encode t).length ≤ 1024) :
    (everything (J := J) start stop text).validate = .ok () :=
  validate_eq_ok.mpr ⟨h, ⟨Nat.one_pos, by simp [everything, maxPageSize]⟩, htext,
    by simp [everything, LogQuery.oversized], by simp [everything, LogQuery.selected]⟩

theorem selects_everything (c : Candidate) : selects (everything (J := J) start stop text) c := by
  cases c <;> rfl

theorem wanted_everything {u : Tables} : wanted u (everything start stop text) r ↔
    (start ≤ r.timestamp ∧ r.timestamp ≤ stop) ∧ textMatches u (needleOf u text) r.message := by
  have hlevel : (levelMaskFor []).testBit (levelIndex r.level) := testBit_levelMaskFor [] _
  rw [wanted_iff]
  exact ⟨fun ⟨hwindow, _, hmatches, _⟩ ↦ ⟨hwindow, hmatches⟩,
    fun ⟨hwindow, hmatches⟩ ↦ ⟨hwindow, hlevel, hmatches, rfl⟩⟩

theorem expected_everything : contents.expected (everything start stop text) =
    contents.all.filter (wanted store.platform.tables (everything start stop text)) := by
  rw [Contents.expected, Contents.all, ← filter_flatMap,
    filter_eq_self.mpr fun c _ ↦ selects_everything c]

theorem Paged.mem (contents : store.Contents) {page : ℕ} {pages : List (LogPage J)}
    (hvalid : query.validate = .ok ())
    (h : Paged store budget query overBudget page cursor pages) :
    ∀ r ∈ pages.flatMap LogPage.lines, ∃ before,
      ∃ c ∈ store.considered { query with before := before }
          (store.compiled { query with before := before }),
        r ∈ contents.found (store.compiled { query with before := before }) c := by
  have hfound {before : Option LogLineKey} {page : LogPage J} {spent : ℕ → Bool}
      (hsearch : store.search budget { query with before := before } spent = some (.ok page))
      (r : LogLineRecord J) (hr : r ∈ page.lines) :
      ∃ c ∈ store.considered { query with before := before }
          (store.compiled { query with before := before }),
        r ∈ contents.found (store.compiled { query with before := before }) c := by
    have hvalid' : ({ query with before := before } : LogQuery J).validate = .ok () := hvalid
    obtain ⟨c, hc, hfound, -⟩ := mem_search contents hvalid' hsearch r hr
    exact ⟨c, hc, hfound⟩
  induction h with
  | @last page cursor found hsearch hcursor =>
    intro r hr
    rw [flatMap_singleton] at hr
    exact ⟨cursor, hfound hsearch r hr⟩
  | @more page cursor found next rest hsearch hcursor hrest ih =>
    intro r hr
    rcases mem_append.mp hr with hpage | hmore
    · exact ⟨cursor, hfound hsearch r hpage⟩
    · exact ih r hmore

theorem mem_records_of_found {filter : LineFilter J} (h : r ∈ contents.found filter c) :
    r ∈ keepNewest filter.limit ((contents.records c).filter (passes store.platform.tables filter)) ∧
      ∀ m, c = .sealed m → store.bloomPasses filter (contents.bloom m) := by
  cases c with
  | sealed m =>
    rw [Contents.found] at h
    split at h
    · rename_i hpasses
      refine ⟨h, fun m' hm ↦ ?_⟩
      cases hm
      exact hpasses
    · cases h
  | head labels => exact ⟨mem_reverse.mp h, fun _ hm ↦ Candidate.noConfusion hm⟩

theorem exists_window (times : List ℤ) : ∃ start stop, start < stop ∧
    ∀ t ∈ times, start ≤ t ∧ t ≤ stop := by
  induction times with
  | nil => exact ⟨0, 1, Int.one_pos, by simp⟩
  | cons t times ih =>
    obtain ⟨start, stop, hlt, hall⟩ := ih
    refine ⟨min start t, max stop t, by omega, forall_mem_cons.mpr ⟨by omega, ?_⟩⟩
    intro t' ht'
    have := hall t' ht'
    omega

theorem same_source (hkeys : (contents.all.map LogLineRecord.key).Nodup) {c' : Candidate}
    (hc : c ∈ Contents.sources store) (hc' : c' ∈ Contents.sources store)
    (hr : r ∈ contents.records c) (hr' : r ∈ contents.records c') : c = c' := by
  by_contra hne
  have hdisjoint := (nodup_flatMap.mp (List.Nodup.of_map _ hkeys)).2
  have : Std.Symm (Function.onFun List.Disjoint contents.records) := ⟨fun _ _ h ↦ h.symm⟩
  exact hdisjoint.forall hc hc' hne hr hr'

theorem stop_le_endTime (query : LogQuery J) : (store.compiled query).stop ≤ query.endTime := by
  simp only [LineFilter.compile]
  cases query.before with
  | none => exact le_rfl
  | some b => exact min_le_left ..

theorem not_mem_keepNewest_one {α : Type} {a b : α} {l : List α} (hnodup : l.Nodup)
    (h : [a, b].Sublist l) : a ∉ keepNewest 1 l := by
  obtain ⟨front, back, rfl, ha, hb⟩ := cons_sublist_iff.mp h
  have hback : b ∈ back := hb.subset (mem_singleton_self b)
  rw [keepNewest_append _ (length_pos_of_mem hback)]
  intro hmem
  exact (nodup_append.mp hnodup).2.2 a ha a (drop_subset _ _ hmem) rfl

/-- The cursors from which a line at `e` above the cursor that resumes at `e` is not reached. -/
def Beyond (e : ℤ) (cursor : Option LogLineKey) : Prop :=
  ∀ k, cursor = some k → e < k.timestamp ∨ k ≤ resumeCursor e

theorem lt_of_mem_page {page : LogPage J} {k : LogLineKey} (hvalid : query.validate = .ok ())
    (hbefore : query.before = some k) (hsearch : store.search budget query spent = some (.ok page))
    (contents : store.Contents) : ∀ r ∈ page.lines, r.key < k := by
  intro r hr
  obtain ⟨c, -, hfound, -⟩ := mem_search contents hvalid hsearch r hr
  have hpass := (mem_filter.mp (drop_subset _ _ (mem_records_of_found hfound).1)).2
  exact (passes_compile.mp hpass).2 k hbefore

theorem Beyond.page {page : LogPage J} (hcursor : Beyond c.endedAt cursor)
    (hkeys : (contents.all.map LogLineRecord.key).Nodup) (hc : c ∈ Contents.sources store)
    (hlt : c.endedAt < stop) (hparallel : budget.parallel = 1) (hspent : ∀ round, spent round)
    (hsearch : store.search budget { everything c.endedAt stop none with before := cursor } spent =
      some (.ok page)) :
    (∀ r ∈ page.lines, r ∈ contents.records c ∨ r.timestamp = c.endedAt →
      r.key < resumeCursor c.endedAt) ∧ Beyond c.endedAt page.nextCursor := by
  have hstart : (everything (J := J) c.endedAt stop none).validate = .ok () :=
    validate_everything hlt (by simp)
  have hvalid : ({ everything c.endedAt stop none with before := cursor } :
      LogQuery J).validate = .ok () := hstart
  by_cases hopen : c.endedAt < stopAt (J := J) (everything c.endedAt stop none) cursor
  · have hmask : c.labels.levelMask &&& levelMaskFor [] ≠ 0 := by
      obtain ⟨r, hr⟩ := contents.exists_record hc
      intro hzero
      have hbit := congrArg (Nat.testBit · (levelIndex r.level)) hzero
      simp [contents.level_covered hc hr, testBit_levelMaskFor] at hbit
    have hselects : selects
        ({ everything c.endedAt stop none with before := cursor } : LogQuery J) c = true := by
      cases c <;> rfl
    have hbounds : c.labels.startedAt ≤ bound c (stopAt (everything (J := J) c.endedAt stop none)
        cursor) ∧ bound c c.endedAt ≤ c.endedAt := by
      have hended := bound_endedAt c
      have hstop := bound_mono c hopen.le
      exact ⟨(contents.ordered_source hc).trans (hended.ge.trans hstop), hended.le⟩
    have hconsidered := mem_considered.mpr ⟨hc, (concerns_iff store
      { everything c.endedAt stop none with before := cursor }).mpr ⟨hselects, hbounds, hmask⟩⟩
    obtain ⟨hlines, next, hnext, hkey⟩ :=
      held_back hvalid hparallel hspent hconsidered hopen hsearch
    refine ⟨fun r hr hown ↦ absurd hown (not_or.mpr ⟨fun hrc ↦ ?_, (hlines r hr).ne'⟩),
      fun k hk ↦ ?_⟩
    · -- a page that is out of budget from the start has lines of later candidates only
      obtain ⟨c', hc', hfound, hlate⟩ := mem_search contents hvalid hsearch r hr
      have hr' := (mem_filter.mp (drop_subset _ _ (mem_records_of_found hfound).1)).1
      cases same_source hkeys hc (mem_considered.mp hc').1 hrc hr'
      exact absurd hopen (not_lt.mpr (hlate hparallel hspent))
    · cases hnext.symm.trans hk
      exact hkey.imp_right Eq.le
  · cases cursor with
    | none => exact absurd hlt hopen
    | some k =>
      have hts : ¬ c.endedAt < k.timestamp := fun hk ↦ hopen (lt_min hlt hk)
      have hle := (hcursor k rfl).resolve_left hts
      have hlines := lt_of_mem_page hvalid rfl hsearch contents
      refine ⟨fun r hr _ ↦ (hlines r hr).trans_le hle, fun next hnext ↦ .inr ?_⟩
      rcases nextCursor_search hvalid hsearch hnext with ⟨r, hr, rfl⟩ | ⟨e, he, rfl⟩
      · exact ((hlines r hr).trans_le hle).le
      · exact (LogLineKey.lt_iff.mpr (.inl (lt_of_lt_of_le he
          ((min_le_right ..).trans (not_lt.mp hts))))).le

variable (h : Complete contents)
include h

theorem Complete.keys : (contents.all.map LogLineRecord.key).Nodup := by
  obtain ⟨start, stop, hlt, hall⟩ := exists_window (contents.all.map LogLineRecord.timestamp)
  obtain ⟨pages, -, hperm, hdescends⟩ := h .default (everything start stop none) (fun _ _ ↦ false)
    (validate_everything hlt (by simp))
  have hexpected : contents.expected (everything start stop none) = contents.all := by
    rw [expected_everything]
    refine filter_eq_self.mpr fun r hr ↦ wanted_everything.mpr ⟨?_, rfl⟩
    exact hall _ (mem_map_of_mem hr)
  rw [← hexpected]
  refine (hperm.map _).nodup_iff.mp ?_
  rw [List.Nodup, pairwise_map]
  exact hdescends.imp fun hlt ↦ hlt.ne'

theorem Complete.found (text : Option Text) (hc : c ∈ Contents.sources store)
    (hr : r ∈ contents.records c) (hlt : start < stop)
    (htext : ∀ t, text = some t → (encode t).length ≤ 1024)
    (hwindow : start ≤ r.timestamp ∧ r.timestamp ≤ stop)
    (hmatches : textMatches store.platform.tables (needleOf store.platform.tables text) r.message =
      true) :
    ∃ before, store.concerns { everything start stop text with before := before } c ∧
      r ∈ contents.found
        (store.compiled { everything start stop text with before := before }) c := by
  have hvalid := validate_everything (J := J) hlt htext
  obtain ⟨pages, hpages, hperm, -⟩ := h .default (everything start stop text) (fun _ _ ↦ false)
    hvalid
  have hexpected : r ∈ contents.expected (everything start stop text) := by
    rw [expected_everything]
    exact mem_filter.mpr
      ⟨mem_flatMap.mpr ⟨c, hc, hr⟩, wanted_everything.mpr ⟨hwindow, hmatches⟩⟩
  obtain ⟨before, c', hc', hfound⟩ := hpages.mem contents hvalid r (hperm.symm.subset hexpected)
  obtain ⟨hsource, hconcerns⟩ := mem_considered.mp hc'
  have hr' : r ∈ contents.records c' :=
    (mem_filter.mp (drop_subset _ _ (mem_records_of_found hfound).1)).1
  cases same_source h.keys hc hsource hr hr'
  exact ⟨before, hconcerns, hfound⟩

theorem Complete.blooms : ∀ m ∈ store.manifests.liveRows,
    ∀ text : Text, (encode text).length ≤ 1024 → ∀ r ∈ contents.records (.sealed m),
      textMatches store.platform.tables (needleOf store.platform.tables (some text)) r.message =
        true → store.bloomAdmits (some text) (contents.bloom m) := by
  intro m hm text htext r hr hmatches
  obtain ⟨before, -, hfound⟩ := h.found _ (Contents.mem_sources_sealed.mpr hm) hr
    (lt_add_one r.timestamp) (fun t ht ↦ Option.some.inj ht ▸ htext) ⟨le_rfl, (lt_add_one _).le⟩
    hmatches
  exact (mem_records_of_found hfound).2 m rfl

theorem Complete.ascending : ∀ c ∈ Contents.sources store,
    (contents.records c).Pairwise fun a b ↦ a.key < b.key := by
  intro c hc
  refine pairwise_iff_forall_sublist.mpr fun {a b} hsub ↦ ?_
  have ha : a ∈ contents.records c := hsub.subset (by simp)
  obtain ⟨start, stop, hlt, hall⟩ := exists_window [a.timestamp, b.timestamp]
  obtain ⟨before, -, hfound⟩ := h.found none hc ha hlt (by simp) (hall _ (by simp)) rfl
  obtain ⟨hnewest, -⟩ := mem_records_of_found hfound
  have hpass := (mem_filter.mp (drop_subset _ _ hnewest)).2
  -- the scan returns the last line that passes, so the cursor of that page excludes `b`
  have hexcluded : ¬ passes store.platform.tables
      (store.compiled { everything start stop none with before := before }) b := by
    intro hpass'
    have hnodup := ((nodup_flatMap.mp (List.Nodup.of_map _ h.keys)).1 c hc).filter
      (passes store.platform.tables
        (store.compiled { everything start stop none with before := before }))
    have hboth := hsub.filter (passes store.platform.tables
      (store.compiled { everything start stop none with before := before }))
    rw [filter_cons_of_pos hpass, filter_cons_of_pos hpass'] at hboth
    exact not_mem_keepNewest_one hnodup hboth hnewest
  rw [passes_compile, not_and] at hexcluded
  have hkey := hexcluded (wanted_everything.mpr ⟨hall _ (by simp), rfl⟩)
  push Not at hkey
  obtain ⟨k, hk, hle⟩ := hkey
  exact ((passes_compile.mp hpass).2 k hk).trans_le hle

/-- Pages without any budget resume at the end of the first candidate they have not read, again and
again: they return no line of it, and none at its end, from above the cursor. -/
theorem Complete.resumed (hc : c ∈ Contents.sources store) (hr : r ∈ contents.all)
    (hown : r ∈ contents.records c ∨ r.timestamp = c.endedAt) (hle : c.endedAt ≤ r.timestamp) :
    r.key < resumeCursor c.endedAt := by
  let budget : SearchBudget := ⟨1, 1, Nat.one_pos, Nat.one_pos⟩
  have hlt : c.endedAt < r.timestamp + 1 := Int.lt_add_one_of_le hle
  obtain ⟨pages, hpages, hperm, -⟩ := h budget (everything c.endedAt (r.timestamp + 1) none)
    (fun _ _ ↦ true) (validate_everything hlt (by simp))
  have hnever {page : ℕ} {cursor : Option LogLineKey} {pages : List (LogPage J)}
      (hpages : Paged store budget (everything c.endedAt (r.timestamp + 1) none) (fun _ _ ↦ true)
        page cursor pages) (hcursor : Beyond c.endedAt cursor) :
      ∀ r ∈ pages.flatMap LogPage.lines, r ∈ contents.records c ∨ r.timestamp = c.endedAt →
        r.key < resumeCursor c.endedAt := by
    induction hpages with
    | last hsearch _ =>
      rw [flatMap_singleton]
      exact (hcursor.page h.keys hc hlt rfl (fun _ ↦ rfl) hsearch).1
    | more hsearch hnext _ ih =>
      obtain ⟨hlines, hbeyond⟩ := hcursor.page h.keys hc hlt rfl (fun _ ↦ rfl) hsearch
      rw [hnext] at hbeyond
      intro r hr
      exact (mem_append.mp hr).elim (hlines r) (ih hbeyond r)
  refine hnever hpages nofun r (hperm.symm.subset ?_) hown
  rw [expected_everything]
  exact mem_filter.mpr ⟨hr, wanted_everything.mpr ⟨⟨hle, (lt_add_one _).le⟩, rfl⟩⟩

theorem Complete.times : ∀ m ∈ store.manifests.liveRows,
    ∀ r ∈ contents.records (.sealed m),
      m.labels.startedAt ≤ column r.timestamp ∧ r.timestamp ≤ m.labels.endedAt := by
  intro m hm r hr
  have hsource := Contents.mem_sources_sealed.mpr hm
  constructor
  · obtain ⟨before, hconcerns, -⟩ := h.found none hsource hr (sub_one_lt r.timestamp)
      (by simp) ⟨(sub_one_lt _).le, le_rfl⟩ rfl
    exact ((concerns_iff ..).mp hconcerns).2.1.1.trans (column_mono (stop_le_endTime _))
  · by_contra hlater
    have hbelow := h.resumed hsource (mem_flatMap.mpr ⟨_, hsource, hr⟩) (.inl hr)
      (not_le.mp hlater).le
    exact hbelow.asymm (resumeCursor_lt (not_le.mp hlater))

theorem Complete.resumes : ∀ c ∈ Contents.sources store,
    ∀ r ∈ contents.all, r.timestamp = c.endedAt → r.key < resumeCursor c.endedAt :=
  fun _ hc _ hr hts ↦ h.resumed hc hr (.inr hts) hts.ge

end Necessary

/-- Searching page by page is complete and free of duplicates for exactly the readable stores. -/
theorem search_pages_complete_iff (contents : store.Contents) :
    Complete contents ↔ Readable contents := by
  constructor
  · exact fun h ↦ ⟨h.keys, h.ascending, h.times, h.blooms, h.resumes⟩
  · intro h budget query overBudget hvalid
    obtain ⟨pages, hpages, hperm, hdescends⟩ := h.paged budget hvalid overBudget 0 none
    refine ⟨pages, hpages, ?_, hdescends⟩
    rwa [Contents.below, filter_eq_self.mpr (by simp)] at hperm

def tiedStore (messages : List Char) : ChunkStore ℕ where
  platform := plainPlatform
  decodeV1 := fun _ ↦ .ok []
  manifests := ⟨[], 0, List.nodup_nil⟩
  objects := []
  heads := [⟨⟨1, none, "production", "web", "web-1", none, none, none⟩, [messages.map fun c ↦
    ⟨5, .stdout, .info, [c], none, "web-1", "web", "production", 1, none, none, none, none⟩]⟩]
  heads_nodup := List.nodup_singleton _

def tiedContents (messages : List Char) : (tiedStore messages).Contents where
  lines := fun _ ↦ []
  bloom := fun _ ↦ none
  holds := by simp [tiedStore, Table.liveRows]
  nonempty := by simp [tiedStore, Table.liveRows]
  ordered := by simp [tiedStore, Table.liveRows]
  levels := by simp [tiedStore, Table.liveRows]

def tiedLine (message : Char) : LogLineRecord ℕ :=
  ⟨5, some 1, none, "production", "web", .info, .stdout, "web-1", none, none, none, [message], none,
    2 ^ 62 - 1⟩

example : Readable (tiedContents ['a']) where
  keys := List.nodup_singleton _
  ascending c hc := by
    cases List.mem_singleton.mp hc
    exact List.pairwise_singleton ..
  times := by simp [tiedStore, Table.liveRows]
  blooms := by simp [tiedStore, Table.liveRows]
  resumes c hc r hr _ := by
    cases List.mem_singleton.mp hc
    cases List.mem_singleton.mp hr
    decide

/-- Two unsealed lines of one time have the same key, so the page after the second skips the
first. -/
theorem tied_head_line_skipped :
    (everything 0 10 none : LogQuery ℕ).validate = .ok () ∧
    (tiedContents ['a', 'b']).expected (everything 0 10 none) = [tiedLine 'a', tiedLine 'b'] ∧
    Paged (tiedStore ['a', 'b']) .default (everything 0 10 none) (fun _ _ ↦ false) 0 none
      [⟨[tiedLine 'b'], some (tiedLine 'b').key, none⟩, ⟨[], none, none⟩] ∧
    ¬ Complete (tiedContents ['a', 'b']) := by
  refine ⟨rfl, rfl, .more rfl rfl (.last rfl rfl), fun h ↦ ?_⟩
  have hkeys : ([tiedLine 'a', tiedLine 'b'].map LogLineRecord.key).Nodup := h.keys
  simp [tiedLine, LogLineRecord.key] at hkeys

theorem length_search {page : LogPage J} (hvalid : query.validate = .ok ())
    (hpage : store.search budget query spent = some (.ok page)) :
    page.lines.length ≤ query.limit := by
  have rule : Rounds store budget query (store.compiled query) spent
      (fun _ _ finals ↦ finals.length < query.limit) (fun _ _ finals ↦ finals.length ≤ query.limit)
      fun page ↦ page.lines.length ≤ query.limit :=
    { promote := by
        intro walk pending finals hroom walk' promoted
        obtain ⟨moved, rest, heq, -, -, hle, -⟩ :=
          promote_spec query.limit walk'.nextEndedAt pending finals hroom
        exact congrArg Prod.snd heq ▸ hle
      full := fun h _ ↦ h
      last := fun h _ _ ↦ h
      cut := fun h _ _ _ ↦ h
      next := fun _ _ hroom _ _ _ ↦ hroom }
  obtain ⟨-, ⟨hlimit, -⟩, -⟩ := validate_eq_ok.mp hvalid
  rw [search_eq hvalid] at hpage
  refine rule.page ?_ hpage
  exact hlimit

/-- Over chunks that can be read, and whenever the budget runs out, a query that is not refused is
answered with a page within its limit; its lines are stored ones that the query asks for, and lines
and cursor are beyond the cursor of the query. -/
theorem search_sound (contents : store.Contents) (budget : SearchBudget) (query : LogQuery J)
    (spent : ℕ → Bool) :
    (∃ e, query.validate = .error e ∧ store.search budget query spent = some (.error e)) ∨
    ∃ page, store.search budget query spent = some (.ok page) ∧ page.lines.length ≤ query.limit ∧
      (∀ r ∈ page.lines, r ∈ contents.expected query) ∧
      ∀ b, query.before = some b →
        (∀ r ∈ page.lines, r.key < b) ∧ ∀ next, page.nextCursor = some next → next < b := by
  cases hvalid : query.validate with
  | error e => exact .inl ⟨e, rfl, by rw [search, hvalid]⟩
  | ok =>
    obtain ⟨page, hpage⟩ := search_ok contents budget hvalid spent
    refine .inr ⟨page, hpage, length_search hvalid hpage, fun r hr ↦ ?_, fun b hb ↦ ?_⟩
    · obtain ⟨c, hc, hfound, -⟩ := mem_search contents hvalid hpage r hr
      obtain ⟨hsource, hconcerns⟩ := mem_considered.mp hc
      obtain ⟨hr, hpass⟩ := mem_filter.mp (drop_subset _ _ (mem_records_of_found hfound).1)
      exact mem_flatMap.mpr ⟨c, mem_filter.mpr ⟨hsource, ((concerns_iff ..).mp hconcerns).1⟩,
        mem_filter.mpr ⟨hr, (passes_compile.mp hpass).1⟩⟩
    · have hlines := lt_of_mem_page hvalid hb hpage contents
      refine ⟨hlines, fun next hnext ↦ ?_⟩
      rcases nextCursor_search hvalid hpage hnext with ⟨r, hr, rfl⟩ | ⟨e, he, rfl⟩
      · exact hlines r hr
      · refine resumeCursor_lt (he.trans_le ?_)
        simp [LineFilter.compile, hb]

def sealedStore : ChunkStore ℕ :=
  let world := step plainService emptyWorld (.sealChunk webIdentity [hello] false none [])
  { tiedStore ['a'] with manifests := world.manifests, objects := world.objects }

def helloChunk : EncodedChunk :=
  chunkOf plainCodecs (bodyOf plainCodecs [hello]) (footerOf plainPlatform.tables plainPlatform.xxh3
    plainCodecs webIdentity [hello] false)

theorem sealed_rows : ∀ m ∈ sealedStore.manifests.liveRows,
    (¬ m.formatVersion < 2 ∧ sealedStore.objects.lookup m.storageKey = some helloChunk.bytes ∧
      m.footerOffset = some helloChunk.trailer.footerOffset ∧
      m.footerLen = some helloChunk.trailer.footerLen) ∧
    m.labels.startedAt ≤ m.labels.endedAt ∧ ∀ line ∈ [hello].zipIdx.map lineAt,
      m.labels.levelMask.testBit (levelIndex line.level) = true := by
  decide +kernel

def sealedContents : sealedStore.Contents where
  lines _ := [hello].zipIdx.map lineAt
  bloom _ := helloChunk.footer.bloom
  holds m hm := by
    obtain ⟨⟨hversion, hobject, hoffset, hlen⟩, -⟩ := sealed_rows m hm
    exact .v2 hversion storable_hello (by decide +kernel) rfl hobject hoffset hlen
  nonempty _ _ := List.cons_ne_nil _ _
  ordered m hm := (sealed_rows m hm).2.1
  levels m hm := (sealed_rows m hm).2.2

theorem search_sound_sealed :
    let query : LogQuery ℕ := { everything 0 10 none with limit := 2 }
    ∃ page, sealedStore.search .default query (fun _ ↦ false) = some (.ok page) ∧
      page.lines.map LogLineRecord.message = [['a'], ['h', 'i']] ∧
        ∀ r ∈ page.lines, r ∈ sealedContents.expected query := by
  intro query
  have hfound : ((sealedStore.search .default query (fun _ ↦ false)).bind Except.toOption).map
      (·.lines.map LogLineRecord.message) = some [['a'], ['h', 'i']] := by
    decide +kernel
  rcases search_sound sealedContents .default query (fun _ ↦ false) with
    ⟨e, hrefused, -⟩ | ⟨page, hpage, -, hlines, -⟩
  · cases hrefused
  · rw [hpage] at hfound
    exact ⟨page, hpage, Option.some.inj hfound, hlines⟩

end Temps.LogAggregator.Store.ChunkStore
