import Temps.LogAggregator.Store.Readable

namespace Temps.LogAggregator.Store.ChunkStore

open Lib.Keyset Lib.Unicode Lib.Utf8 LogAggregator.Types Chunk ManifestRepo TextFilter List

variable {J : Type} {store : ChunkStore J} {contents : store.Contents} {budget : SearchBudget}
  {query : LogQuery J}

theorem validate_eq_ok : query.validate = .ok () ↔
    query.startTime < query.endTime ∧ (0 < query.limit ∧ query.limit ≤ maxPageSize) ∧
      (∀ text, query.text = some text → (encode text).length ≤ 1024) ∧
        ¬ (LogQuery.oversized query.envs || LogQuery.oversized query.services ||
          LogQuery.oversized query.containerIds) ∧
            ¬ (1000 < query.selected ∨ 100 < query.nodeIds.length) := by
  have htext : ¬ (query.text.any fun text ↦ decide (1024 < (encode text).length)) ↔
      ∀ text, query.text = some text → (encode text).length ≤ 1024 := by
    simp [Option.any_eq_false]
  have hlimit : ¬ (query.limit = 0 ∨ maxPageSize < query.limit) ↔
      0 < query.limit ∧ query.limit ≤ maxPageSize := by
    omega
  have htime : ¬ query.endTime ≤ query.startTime ↔ query.startTime < query.endTime := not_le
  simp only [LogQuery.validate, Lib.Fallible.guard_eq_ok, htext, hlimit, htime, and_true]

def stopAt (query : LogQuery J) (cursor : Option LogLineKey) : ℤ :=
  (cursor.map fun b ↦ min query.endTime b.timestamp).getD query.endTime

def Contents.below (contents : store.Contents) (query : LogQuery J) (cursor : Option LogLineKey) :
    List (LogLineRecord J) :=
  (contents.expected query).filter fun r ↦ cursor.all (r.key < ·)

def Contents.ahead (contents : store.Contents) (query : LogQuery J) (cursor : Option LogLineKey) :
    ℕ :=
  (contents.below query cursor).length +
    (Contents.sources store).countP fun c ↦ c.endedAt < stopAt query cursor

variable {cursor : Option LogLineKey} {rest : List (LogLineRecord J)} {r : LogLineRecord J}

theorem stopAt_le {next : LogLineKey} (h : ∀ b, cursor = some b → next ≤ b) :
    stopAt query (some next) ≤ stopAt query cursor := by
  cases cursor with
  | none => exact min_le_left ..
  | some b => exact min_le_min le_rfl (LogLineKey.timestamp_le (h b rfl))

theorem below_filter {next : LogLineKey} (h : ∀ b, cursor = some b → next ≤ b) :
    (contents.below query cursor).filter (fun r ↦ r.key < next) =
      contents.below query (some next) := by
  rw [Contents.below, filter_filter]
  refine filter_congr fun r _ ↦ ?_
  rw [Bool.eq_iff_iff, Bool.and_eq_true, Option.all_eq_true]
  simp only [decide_eq_true_eq, Option.all_some]
  exact ⟨fun ⟨hlt, _⟩ ↦ hlt, fun hlt ↦ ⟨hlt, fun b hb ↦ hlt.trans_le (h b hb)⟩⟩

theorem countP_lt {α : Type} {p q : α → Bool} {l : List α} (h : ∀ a ∈ l, p a → q a)
    {a : α} (ha : a ∈ l) (hq : q a) (hp : p a = false) : l.countP p < l.countP q := by
  have hboth : l.countP p = (l.filter q).countP p := by
    rw [countP_filter]
    refine countP_congr fun a ha ↦ ?_
    rw [Bool.and_eq_true]
    exact ⟨fun hp ↦ ⟨hp, h a ha hp⟩, And.left⟩
  rw [hboth, countP_eq_length_filter (p := q)]
  exact countP_lt_length_iff.mpr ⟨a, mem_filter.mpr ⟨ha, hq⟩, hp⟩

theorem mem_below :
    r ∈ contents.below query cursor ↔
      r ∈ contents.expected query ∧ ∀ b, cursor = some b → r.key < b := by
  rw [Contents.below, mem_filter, Option.all_eq_true]
  simp

theorem mem_all_of_expected (h : r ∈ contents.expected query) : r ∈ contents.all := by
  obtain ⟨c, hc, hr⟩ := mem_flatMap.mp h
  exact mem_flatMap.mpr ⟨c, (mem_filter.mp hc).1, (mem_filter.mp hr).1⟩

theorem resumeCursor_lt {e : ℤ} {key : LogLineKey} (h : e < key.timestamp) : resumeCursor e < key :=
  LogLineKey.lt_iff.mpr (.inl h)

theorem below_next {next : LogLineKey} {lines : List (LogLineRecord J)}
    (hsplits : Splits LogLineRecord.key (contents.below query cursor) lines rest)
    (hbefore : ∀ b, cursor = some b → next ≤ b) (hlines : ∀ a ∈ lines, next ≤ a.key)
    (hrest : ∀ b ∈ rest, b.key < next)
    (hless : lines ≠ [] ∨ ∃ c ∈ Contents.sources store, c.endedAt < stopAt query cursor ∧
      stopAt query (some next) ≤ c.endedAt) :
    (contents.below query (some next)).Perm rest ∧
      contents.ahead query (some next) < contents.ahead query cursor := by
  have hperm : (contents.below query (some next)).Perm rest :=
    below_filter hbefore ▸ hsplits.filter_lt hlines hrest
  have hstop : ∀ c ∈ Contents.sources store, decide (c.endedAt < stopAt query (some next)) →
      decide (c.endedAt < stopAt query cursor) := by
    intro c _ hlt
    rw [decide_eq_true_eq] at hlt ⊢
    exact hlt.trans_le (stopAt_le hbefore)
  have hlen := hsplits.perm.length_eq
  rw [length_append] at hlen
  refine ⟨hperm, ?_⟩
  rw [Contents.ahead, Contents.ahead, hperm.length_eq]
  rcases hless with hne | ⟨c, hc, hlt, hle⟩
  · have hpos := length_pos_iff.mpr hne
    have hcount := countP_mono_left hstop
    omega
  · have hcount := countP_lt hstop hc (decide_eq_true hlt) (decide_eq_false (not_lt.mpr hle))
    omega

theorem Readable.next (h : Readable contents) {page : LogPage J}
    (hanswers : Answers (store.considered { query with before := cursor }
        (store.compiled { query with before := cursor }))
      (stopAt query cursor) (contents.below query cursor) page rest) :
    (page.nextCursor = none ∧ rest = []) ∨ ∃ next, page.nextCursor = some next ∧
      (contents.below query (some next)).Perm rest ∧
        contents.ahead query (some next) < contents.ahead query cursor := by
  cases hanswers with
  | last hsplits hcursor => exact .inl ⟨hcursor, rfl⟩
  | @full _ last hsplits hlast hcursor =>
    have hmem : last ∈ page.lines := mem_of_getLast? hlast
    have hbefore : ∀ b, cursor = some b → last.key ≤ b := fun b hb ↦
      ((mem_below.mp (hsplits.perm.subset (mem_append_left _ hmem))).2 b hb).le
    exact .inr ⟨last.key, hcursor, below_next hsplits hbefore (hsplits.descends.last_le hlast)
      (hsplits.newer last hmem) (.inl (ne_nil_of_mem hmem))⟩
  | @cut _ c hsplits hc hstop hcursor hpage hrest =>
    have hsource := (mem_considered.mp hc).1
    have hbefore : ∀ b, cursor = some b → resumeCursor c.endedAt ≤ b := by
      rintro b rfl
      exact (resumeCursor_lt (hstop.trans_le (min_le_right ..))).le
    refine .inr ⟨resumeCursor c.endedAt, hcursor, below_next hsplits hbefore
      (fun a ha ↦ (resumeCursor_lt (hpage a ha)).le) (fun b hb ↦ ?_)
      (.inr ⟨c, hsource, hstop, min_le_right ..⟩)⟩
    rcases (hrest b hb).lt_or_eq with hlt | heq
    · exact LogLineKey.lt_iff.mpr (.inl hlt)
    · have hb' := (mem_below.mp (hsplits.perm.subset (mem_append_right _ hb))).1
      exact h.resumes c hsource b (mem_all_of_expected hb') heq

theorem Readable.paged (h : Readable contents) (budget : SearchBudget)
    (hvalid : query.validate = .ok ()) (overBudget : ℕ → ℕ → Bool) (page : ℕ)
    (cursor : Option LogLineKey) :
    ∃ pages, Paged store budget query overBudget page cursor pages ∧
      (pages.flatMap LogPage.lines).Perm (contents.below query cursor) ∧
        Descends LogLineRecord.key (pages.flatMap LogPage.lines) := by
  induction hn : contents.ahead query cursor using Nat.strong_induction_on
    generalizing page cursor with
  | _ n ih =>
    have hvalid' : ({ query with before := cursor } : LogQuery J).validate = .ok () := hvalid
    obtain ⟨-, ⟨hlimit, -⟩, htext, -⟩ := validate_eq_ok.mp hvalid'
    obtain ⟨found, rest, hsearch, hanswers⟩ :=
      h.search_answers htext budget hvalid' hlimit (overBudget page)
    replace hanswers := hanswers.of_perm h.lines_perm
    have hsplits : Splits LogLineRecord.key (contents.below query cursor) found.lines rest := by
      cases hanswers <;> assumption
    rcases h.next hanswers with ⟨hnone, rfl⟩ | ⟨next, hnext, hperm, hless⟩
    · refine ⟨[found], .last hsearch hnone, ?_⟩
      simpa using hsplits.append (.refl _) .nil
    · obtain ⟨pages, hpages, hlines, hdescends⟩ := ih _ (hn ▸ hless) (page + 1) (some next) rfl
      refine ⟨found :: pages, .more hsearch hnext hpages, ?_⟩
      exact hsplits.append (hlines.trans hperm) hdescends

variable {page : LogPage J} {overBudget : ℕ → Bool}

variable (contents) in
section

variable (hvalid : query.validate = .ok ())
  (hpage : store.search budget query overBudget = some (.ok page))
include hvalid hpage

theorem mem_search :
    ∀ r ∈ page.lines, ∃ c ∈ store.considered query (store.compiled query),
      r ∈ contents.found (store.compiled query) c ∧ (budget.parallel = 1 →
        (∀ round, overBudget round) → (store.compiled query).stop ≤ c.endedAt) := by
  let P (r : LogLineRecord J) : Prop := ∃ c ∈ store.considered query (store.compiled query),
    r ∈ contents.found (store.compiled query) c ∧ (budget.parallel = 1 →
      (∀ round, overBudget round) → (store.compiled query).stop ≤ c.endedAt)
  let I (walk : Walk) (pending finals : List (LogLineRecord J)) : Prop :=
    (∃ rest, store.Fetched query (store.compiled query) walk rest ∧
      ∀ c ∈ unread walk rest, c ∈ store.considered query (store.compiled query)) ∧
        ∀ r ∈ finals ++ pending, P r
  have rule : Rounds store budget query (store.compiled query) overBudget I I
      (fun page ↦ ∀ r ∈ page.lines, P r) :=
    { promote := by
        rintro walk pending finals ⟨⟨rest, hfetched, hunread⟩, hlines⟩
        obtain ⟨rest', hrefill, hsame, -⟩ := hfetched.refill budget
        refine ⟨⟨rest', hrefill, hsame ▸ hunread⟩, ?_⟩
        rwa [promote_append]
      full := fun h _ r hr ↦ h.2 r (mem_append_left _ hr)
      last := fun h _ _ r hr ↦ h.2 r (mem_append_left _ hr)
      cut := fun h _ _ _ r hr ↦ h.2 r (mem_append_left _ hr)
      next := by
        rintro walk pending finals e pending' round ⟨⟨rest, hfetched, hunread⟩, hlines⟩ - he hcut
          hcollect
        obtain ⟨hnext, hperm⟩ := hfetched.popMany budget.parallel
        have hpopped : ∀ c ∈ (walk.popMany budget.parallel).1,
            c ∈ store.considered query (store.compiled query) := fun c hc ↦
          hunread c (hperm.symm.subset (mem_append_left _ hc))
        refine ⟨⟨rest, hnext, fun c hc ↦
          hunread c (hperm.symm.subset (mem_append_right _ hc))⟩, fun r hr ↦ ?_⟩
        rw [collect_scan fun c hc ↦ contents.scan_eq (mem_considered.mp (hpopped c hc)).1 _]
          at hcollect
        cases hcollect
        rcases mem_append.mp hr with hold | hpending
        · exact hlines r (mem_append_left _ hold)
        · rcases mem_append.mp ((foldl_push _).subset hpending) with hold | hfound
          · exact hlines r (mem_append_right _ hold)
          · obtain ⟨c, hc, hrc⟩ := mem_flatMap.mp hfound
            refine ⟨c, hpopped c hc, hrc, fun hone hover ↦ ?_⟩
            obtain ⟨first, next, -, rfl, hmany⟩ := popMany_one he
            rw [hone, hmany, mem_singleton] at hc
            rw [hover, Bool.true_and, decide_eq_false_iff_not, not_lt] at hcut
            exact hc ▸ hcut }
  rw [search_eq hvalid] at hpage
  refine rule.page ?_ hpage
  exact ⟨⟨_, fetched_start store query (store.compiled query), fun _ hc ↦ hc⟩, by simp⟩

theorem nextCursor_search {next : LogLineKey}
    (hnext : page.nextCursor = some next) : (∃ r ∈ page.lines, r.key = next) ∨
      ∃ h, h < (store.compiled query).stop ∧ resumeCursor h = next := by
  have rule : Rounds store budget query (store.compiled query) overBudget (fun _ _ _ ↦ True)
      (fun _ _ _ ↦ True) (fun page ↦ ∀ next, page.nextCursor = some next →
        (∃ r ∈ page.lines, r.key = next) ∨
          ∃ h, h < (store.compiled query).stop ∧ resumeCursor h = next) :=
    { promote := fun _ ↦ trivial
      full := by
        intro walk pending finals _ _ next hnext
        obtain ⟨last, hlast, hkey⟩ := Option.map_eq_some_iff.mp hnext
        exact .inl ⟨last, mem_of_getLast? hlast, hkey⟩
      last := fun _ _ _ next hnext ↦ by cases hnext
      cut := fun _ _ _ hstop next hnext ↦ .inr ⟨_, hstop, Option.some.inj hnext⟩
      next := fun _ _ _ _ _ _ ↦ trivial }
  rw [search_eq hvalid] at hpage
  exact rule.page trivial hpage next hnext

end

theorem held_back {c : Candidate} (hvalid : query.validate = .ok ()) (hparallel : budget.parallel = 1)
    (hover : ∀ round, overBudget round) (hc : c ∈ store.considered query (store.compiled query))
    (hstop : c.endedAt < (store.compiled query).stop)
    (hpage : store.search budget query overBudget = some (.ok page)) :
    (∀ r ∈ page.lines, c.endedAt < r.timestamp) ∧ ∃ next, page.nextCursor = some next ∧
      (c.endedAt < next.timestamp ∨ next = resumeCursor c.endedAt) := by
  let I (walk : Walk) (_pending finals : List (LogLineRecord J)) : Prop :=
    (∃ rest, store.Fetched query (store.compiled query) walk rest ∧ c ∈ unread walk rest) ∧
      finals.length < query.limit ∧ ∀ r ∈ finals, c.endedAt < r.timestamp
  let M (walk : Walk) (_pending finals : List (LogLineRecord J)) : Prop :=
    (∃ rest, store.Fetched query (store.compiled query) walk rest ∧
      (walk.sealed = [] → rest = []) ∧ c ∈ unread walk rest) ∧
      ∀ r ∈ finals, c.endedAt < r.timestamp
  obtain ⟨-, ⟨hlimit, -⟩, -⟩ := validate_eq_ok.mp hvalid
  have rule : Rounds store budget query (store.compiled query) overBudget I M
      (fun page ↦ (∀ r ∈ page.lines, c.endedAt < r.timestamp) ∧
        ∃ next, page.nextCursor = some next ∧
          (c.endedAt < next.timestamp ∨ next = resumeCursor c.endedAt)) :=
    { promote := by
        rintro walk pending finals ⟨⟨rest, hfetched, hunread⟩, hroom, hfinals⟩
        obtain ⟨rest', hrefill, hsame, hready⟩ := hfetched.refill budget
        rw [← hsame] at hunread
        obtain ⟨moved, waiting, heq, -, hmoved, -, -⟩ := promote_spec query.limit
          (store.refill budget query (store.compiled query) walk).nextEndedAt pending finals hroom
        dsimp only
        rw [heq]
        refine ⟨⟨rest', hrefill, hready, hunread⟩, fun r hr ↦ ?_⟩
        rcases mem_append.mp hr with hold | hnew
        · exact hfinals r hold
        · obtain ⟨e, he, hle⟩ := hrefill.exists_next hready hunread
          exact hle.trans_lt (hmoved r hnew e he)
      full := by
        rintro walk pending finals ⟨-, hfinals⟩ hfull
        have hne : finals ≠ [] := ne_nil_of_length_pos (hlimit.trans_le hfull)
        have hlast := List.getLast?_eq_getLast_of_ne_nil hne
        refine ⟨hfinals, (finals.getLast hne).key, ?_, .inl ?_⟩
        · rw [hlast]
          rfl
        · exact hfinals _ (getLast_mem hne)
      last := by
        rintro walk pending finals ⟨⟨rest, hfetched, hready, hunread⟩, -⟩ - hnone
        obtain ⟨e, he, -⟩ := hfetched.exists_next hready hunread
        exact nomatch hnone.symm.trans he
      cut := by
        rintro walk pending finals e ⟨⟨rest, hfetched, hready, hunread⟩, hfinals⟩ - he -
        refine ⟨hfinals, resumeCursor e, rfl, ?_⟩
        rcases (hfetched.unread_le hready he _ hunread).lt_or_eq with hlt | heq
        · exact .inl hlt
        · exact .inr (congrArg resumeCursor heq).symm
      next := by
        rintro walk pending finals e pending' round ⟨⟨rest, hfetched, -, hunread⟩, hfinals⟩ hroom he
          hcut -
        rw [hover, Bool.true_and, decide_eq_false_iff_not] at hcut
        obtain ⟨first, next, hpop, rfl, hmany⟩ := popMany_one he
        obtain ⟨hnext, hperm⟩ := hfetched.pop hpop
        rw [hparallel, hmany]
        refine ⟨⟨rest, hnext, ?_⟩, hroom, hfinals⟩
        refine (mem_cons.mp (hperm.subset hunread)).resolve_left fun hsame ↦ hcut ?_
        exact hsame ▸ hstop }
  rw [search_eq hvalid] at hpage
  refine rule.page ?_ hpage
  exact ⟨⟨_, fetched_start store query (store.compiled query), hc⟩, hlimit, by simp⟩

end Temps.LogAggregator.Store.ChunkStore
