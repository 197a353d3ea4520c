import Temps.Lib.Keyset
import Temps.LogAggregator.Store.CandidateWalk

namespace Temps.LogAggregator.Store.ChunkStore

open Lib.Keyset LogAggregator.Types ManifestRepo List

variable {J : Type} {store : ChunkStore J} {budget : SearchBudget} {query : LogQuery J}
  {filter : LineFilter J} {overBudget : ℕ → Bool} {fuel round : ℕ}

section Heap

variable {pending : List (LogLineRecord J)}

theorem foldl_push (found : List (LogLineRecord J)) :
    (found.foldl push pending).Perm (pending ++ found) := by
  induction found generalizing pending with
  | nil => simp
  | cons r found ih =>
    refine ih.trans (((perm_orderedInsert _ r pending).append_right found).trans ?_)
    exact perm_middle.symm

theorem sorted_foldl_push (h : pending.Pairwise fun a b ↦ b.key ≤ a.key)
    (found : List (LogLineRecord J)) :
    (found.foldl push pending).Pairwise fun a b ↦ b.key ≤ a.key := by
  induction found generalizing pending with
  | nil => exact h
  | cons r found ih => exact ih (h.orderedInsert r _)

theorem collect_ok (founds : List (List (LogLineRecord J))) :
    collect pending (founds.map .ok) = .ok (founds.flatten.foldl push pending) := by
  induction founds generalizing pending with
  | nil => rfl
  | cons found founds ih => rw [map_cons, collect, ih, flatten_cons, foldl_append]

theorem promote_append (limit : ℕ) (horizon : Option ℤ) (pending finals : List (LogLineRecord J)) :
    (promote limit horizon pending finals).2 ++ (promote limit horizon pending finals).1 =
      finals ++ pending := by
  fun_induction promote limit horizon pending finals with
  | case1 | case4 => rfl
  | case2 => exact append_assoc ..
  | case3 _ _ _ _ _ ih => exact ih.trans (append_assoc ..)

theorem promote_spec (limit : ℕ) (horizon : Option ℤ) (pending finals : List (LogLineRecord J))
    (hroom : finals.length < limit) :
    ∃ moved rest, promote limit horizon pending finals = (rest, finals ++ moved) ∧
      pending = moved ++ rest ∧ (∀ a ∈ moved, ∀ h, horizon = some h → h < a.timestamp) ∧
      (finals ++ moved).length ≤ limit ∧
      ((finals ++ moved).length < limit → ∀ b ∈ rest.head?, ∃ h, horizon = some h ∧
        b.timestamp ≤ h) := by
  fun_induction promote limit horizon pending finals with
  | case1 => exact ⟨[], [], by simp, rfl, by simp, by simpa using hroom.le, by simp⟩
  | case2 top pending finals hfinal hfull =>
    have hlen : (finals ++ [top]).length = finals.length + 1 := length_append
    refine ⟨[top], pending, rfl, rfl, ?_, by omega, fun hlt ↦ by omega⟩
    simpa [Option.all_eq_true] using hfinal
  | case3 top pending finals hfinal hmore ih =>
    obtain ⟨moved, rest, heq, hsplit, hmoved, hle, hstop⟩ := ih (by simpa using hmore)
    rw [append_assoc] at heq hle hstop
    refine ⟨top :: moved, rest, heq, by rw [hsplit, cons_append], ?_, hle, hstop⟩
    exact forall_mem_cons.mpr ⟨by simpa [Option.all_eq_true] using hfinal, hmoved⟩
  | case4 top pending finals hopen =>
    refine ⟨[], top :: pending, by simp, rfl, by simp, by simpa using hroom.le, fun _ b hb ↦ ?_⟩
    cases hb
    simpa [Option.all_eq_true] using hopen

end Heap

section Rule

/-- The obligations of an invariant of the loop: `I` holds where a round begins, `M` after the
promotion, `Q` of the page. -/
structure Rounds (store : ChunkStore J) (budget : SearchBudget) (query : LogQuery J)
    (filter : LineFilter J) (overBudget : ℕ → Bool)
    (I M : Walk → List (LogLineRecord J) → List (LogLineRecord J) → Prop)
    (Q : LogPage J → Prop) : Prop where
  promote {walk pending finals} : I walk pending finals →
    let walk' := store.refill budget query filter walk
    let promoted := ChunkStore.promote query.limit walk'.nextEndedAt pending finals
    M walk' promoted.1 promoted.2
  full {walk pending finals} : M walk pending finals → query.limit ≤ finals.length →
    Q ⟨finals, finals.getLast?.map LogLineRecord.key, none⟩
  last {walk pending finals} : M walk pending finals → finals.length < query.limit →
    walk.nextEndedAt = none → Q ⟨finals, none, none⟩
  cut {walk pending finals h} : M walk pending finals → finals.length < query.limit →
    walk.nextEndedAt = some h → h < filter.stop → Q ⟨finals, some (resumeCursor h), some h⟩
  next {walk pending finals h pending'} (round : ℕ) : M walk pending finals →
    finals.length < query.limit → walk.nextEndedAt = some h →
    (overBudget round && h < filter.stop) = false →
    collect pending ((walk.popMany budget.parallel).1.map (store.scan filter)) = .ok pending' →
    I (walk.popMany budget.parallel).2 pending' finals

theorem Rounds.page {I M : Walk → List (LogLineRecord J) → List (LogLineRecord J) → Prop}
    {Q : LogPage J → Prop} (rule : Rounds store budget query filter overBudget I M Q)
    {walk : Walk} {pending finals : List (LogLineRecord J)} {page : LogPage J}
    (h : I walk pending finals)
    (hpage : store.searchLoop budget query filter overBudget fuel round walk pending finals =
      some (.ok page)) : Q page := by
  fun_induction searchLoop store budget query filter overBudget fuel round walk pending finals with
  | case1 | case6 => cases hpage
  | case2 =>
    cases hpage
    exact rule.full (rule.promote h) ‹_›
  | case3 _ _ _ _ _ _ _ _ hroom hnone =>
    cases hpage
    exact rule.last (rule.promote h) (not_le.mp hroom) hnone
  | case4 _ _ _ _ _ _ _ _ hroom _ hsome hover =>
    cases hpage
    rw [Bool.and_eq_true, decide_eq_true_eq] at hover
    exact rule.cut (rule.promote h) (not_le.mp hroom) hsome hover.2
  | case5 _ round _ _ _ _ _ _ hroom _ hsome hover _ _ hcollect ih =>
    refine ih (rule.next round (rule.promote h) (not_le.mp hroom) hsome ?_ hcollect) hpage
    simpa using hover

end Rule

variable {walk : Walk} {rest : List Manifest} {pending finals left : List (LogLineRecord J)}
  {sources : List Candidate} {linesOf topOf restOf : Candidate → List (LogLineRecord J)}

section Total

theorem collect_scan {popped : List Candidate}
    (hscan : ∀ c ∈ popped, store.scan filter c = .ok (topOf c)) :
    collect pending (popped.map (store.scan filter)) =
      .ok ((popped.flatMap topOf).foldl push pending) := by
  have hmap : popped.map (store.scan filter) = (popped.map topOf).map .ok := by
    rw [map_map]
    exact map_congr_left hscan
  rw [hmap, collect_ok, flatMap_def]

variable (budget) in
theorem popMany_ne_nil {e : ℤ} (he : walk.nextEndedAt = some e) :
    (walk.popMany budget.parallel).1 ≠ [] := by
  obtain ⟨n, hn⟩ := Nat.exists_eq_succ_of_ne_zero budget.parallel_pos.ne'
  rw [nextEndedAt_pop, Option.map_eq_some_iff] at he
  obtain ⟨popped, hpop, -⟩ := he
  rw [hn, Walk.popMany, hpop]
  exact cons_ne_nil _ _

theorem searchLoop_ok (h : store.Fetched query filter walk rest)
    (hscan : ∀ c ∈ unread walk rest, store.scan filter c = .ok (topOf c))
    (hfuel : (unread walk rest).length < fuel) :
    ∃ page, store.searchLoop budget query filter overBudget fuel round walk pending finals =
      some (.ok page) := by
  induction fuel generalizing round walk rest pending finals with
  | zero => cases hfuel
  | succ fuel ih =>
    obtain ⟨rest', hrefill, hsame, -⟩ := h.refill budget
    rw [← hsame] at hscan hfuel
    rw [searchLoop]
    dsimp only
    split
    · exact ⟨_, rfl⟩
    split
    · exact ⟨_, rfl⟩
    case h_2 e he =>
      split
      · exact ⟨_, rfl⟩
      obtain ⟨hnext, hperm⟩ := hrefill.popMany budget.parallel
      have hpopped := length_pos_iff.mpr (popMany_ne_nil budget he)
      have hlen := hperm.length_eq
      rw [length_append] at hlen
      rw [collect_scan fun c hc ↦ hscan c (hperm.symm.subset (mem_append_left _ hc))]
      exact ih hnext (fun c hc ↦ hscan c (hperm.symm.subset (mem_append_right _ hc))) (by omega)

end Total

/-- What the scans of the candidates find of the lines that these have for a query. -/
structure Scanned (store : ChunkStore J) (limit : ℕ) (filter : LineFilter J)
    (sources : List Candidate) (linesOf topOf restOf : Candidate → List (LogLineRecord J)) :
    Prop where
  keys : ((sources.flatMap linesOf).map LogLineRecord.key).Nodup
  scan : ∀ c ∈ sources, store.scan filter c = .ok (topOf c)
  newest : ∀ c ∈ sources, Newest LogLineRecord.key limit (linesOf c) (topOf c) (restOf c)
  bound : ∀ c ∈ sources, ∀ r ∈ linesOf c, r.timestamp ≤ c.endedAt

/-- The page that a search gives of the lines, and what it leaves to the next one. -/
inductive Answers (sources : List Candidate) (stop : ℤ) (lines : List (LogLineRecord J)) :
    LogPage J → List (LogLineRecord J) → Prop
  | full {page : LogPage J} {rest : List (LogLineRecord J)} {last : LogLineRecord J}
      (hsplits : Splits LogLineRecord.key lines page.lines rest)
      (hlast : page.lines.getLast? = some last) (hcursor : page.nextCursor = some last.key) :
      Answers sources stop lines page rest
  | last {page : LogPage J} (hsplits : Splits LogLineRecord.key lines page.lines [])
      (hcursor : page.nextCursor = none) : Answers sources stop lines page []
  | cut {page : LogPage J} {rest : List (LogLineRecord J)} {c : Candidate}
      (hsplits : Splits LogLineRecord.key lines page.lines rest) (hc : c ∈ sources)
      (hstop : c.endedAt < stop) (hcursor : page.nextCursor = some (resumeCursor c.endedAt))
      (hpage : ∀ a ∈ page.lines, c.endedAt < a.timestamp)
      (hrest : ∀ b ∈ rest, b.timestamp ≤ c.endedAt) : Answers sources stop lines page rest

theorem Answers.of_perm {stop : ℤ} {lines lines' : List (LogLineRecord J)} {page : LogPage J}
    {rest : List (LogLineRecord J)} (h : Answers sources stop lines page rest)
    (hperm : lines.Perm lines') : Answers sources stop lines' page rest := by
  cases h with
  | full hsplits hlast hcursor => exact .full (hsplits.of_perm hperm) hlast hcursor
  | last hsplits hcursor => exact .last (hsplits.of_perm hperm) hcursor
  | cut hsplits hc hstop hcursor hpage hrest =>
    exact .cut (hsplits.of_perm hperm) hc hstop hcursor hpage hrest

structure Progress (store : ChunkStore J) (query : LogQuery J) (filter : LineFilter J)
    (sources : List Candidate) (linesOf : Candidate → List (LogLineRecord J)) (walk : Walk)
    (rest : List Manifest) (pending finals left : List (LogLineRecord J)) : Prop where
  fetched : store.Fetched query filter walk rest
  unread : ∀ c ∈ unread walk rest, c ∈ sources
  walked : Walked LogLineRecord.key LogLineKey.timestamp Candidate.endedAt linesOf query.limit
    (sources.flatMap linesOf) (ChunkStore.unread walk rest) pending finals left
  sorted : pending.Pairwise fun a b ↦ b.key ≤ a.key

theorem timestamp_mono ⦃a b : LogLineKey⦄ (h : a ≤ b) : a.timestamp ≤ b.timestamp :=
  LogLineKey.timestamp_le h

theorem Progress.descends
    (h : Progress store query filter sources linesOf walk rest pending finals left)
    (hscanned : store.Scanned query.limit filter sources linesOf topOf restOf) :
    Descends LogLineRecord.key pending := by
  have hall := (h.walked.perm.map LogLineRecord.key).nodup_iff.mpr hscanned.keys
  have hkeys : (pending.map LogLineRecord.key).Nodup := by
    refine hall.sublist (List.Sublist.map _ ?_)
    simp only [append_assoc]
    exact (sublist_append_left ..).trans (sublist_append_right ..)
  rw [List.Nodup, pairwise_map] at hkeys
  exact (h.sorted.and hkeys).imp fun ⟨hle, hne⟩ ↦ lt_of_le_of_ne hle hne.symm

variable (budget) in
theorem Progress.refill
    (h : Progress store query filter sources linesOf walk rest pending finals left) :
    ∃ rest', Progress store query filter sources linesOf (store.refill budget query filter walk)
        rest' pending finals left ∧
      ((store.refill budget query filter walk).sealed = [] → rest' = []) := by
  obtain ⟨rest', hfetched, hsame, hready⟩ := h.fetched.refill budget
  exact ⟨rest', ⟨hfetched, hsame ▸ h.unread, hsame ▸ h.walked, h.sorted⟩, hready⟩

section

variable (hscanned : store.Scanned query.limit filter sources linesOf topOf restOf)
include hscanned

theorem Progress.promote {moved : List (LogLineRecord J)}
    (h : Progress store query filter sources linesOf walk rest (moved ++ pending) finals left)
    (hready : walk.sealed = [] → rest = [])
    (hmoved : ∀ a ∈ moved, ∀ e, walk.nextEndedAt = some e → e < a.timestamp) :
    Progress store query filter sources linesOf walk rest pending (finals ++ moved) left := by
  refine { h with
    walked := h.walked.promote (h.descends hscanned) fun a ha c hc ↦ ?_
    sorted := (pairwise_append.mp h.sorted).2.1 }
  obtain ⟨e, he, hle⟩ := h.fetched.exists_next hready hc
  exact hle.trans_lt (hmoved a ha e he)

theorem Progress.next
    (h : Progress store query filter sources linesOf walk rest pending finals left)
    (hlines : (sources.flatMap linesOf).Nodup) (n : ℕ) :
    Progress store query filter sources linesOf (walk.popMany n).2 rest
      (((walk.popMany n).1.flatMap topOf).foldl push pending) finals
      (left ++ (walk.popMany n).1.flatMap restOf) := by
  obtain ⟨hfetched, hperm⟩ := h.fetched.popMany n
  have hpopped : ∀ c ∈ (walk.popMany n).1, c ∈ sources := fun c hc ↦
    h.unread c (hperm.symm.subset (mem_append_left _ hc))
  refine ⟨hfetched, fun c hc ↦ h.unread c (hperm.symm.subset (mem_append_right _ hc)), ?_,
    sorted_foldl_push h.sorted _⟩
  exact (h.walked.of_perm hperm).read timestamp_mono (fun c hc ↦ hscanned.bound c (hpopped c hc))
    hlines (fun c hc ↦ hscanned.newest c (hpopped c hc)) (foldl_push _)

theorem rounds_answers (hlimit : 0 < query.limit) :
    Rounds store budget query filter overBudget
      (fun walk pending finals ↦ finals.length < query.limit ∧ ∃ rest left,
        Progress store query filter sources linesOf walk rest pending finals left)
      (fun walk pending finals ↦ finals.length ≤ query.limit ∧
        (finals.length < query.limit → ∀ b ∈ pending, ∃ e, walk.nextEndedAt = some e ∧
          b.timestamp ≤ e) ∧ ∃ rest left, (walk.sealed = [] → rest = []) ∧
            Progress store query filter sources linesOf walk rest pending finals left)
      (fun page ↦ ∃ rest, Answers sources filter.stop (sources.flatMap linesOf) page rest) where
  promote := by
    rintro walk pending finals ⟨hroom, rest, left, h⟩
    obtain ⟨rest', hrefill, hready⟩ := h.refill budget
    obtain ⟨moved, waiting, heq, rfl, hmoved, hle, hstop⟩ := promote_spec query.limit
      (store.refill budget query filter walk).nextEndedAt pending finals hroom
    dsimp only
    rw [heq]
    have hpromoted := hrefill.promote hscanned hready hmoved
    refine ⟨hle, fun hlt b hb ↦ ?_, rest', left, hready, hpromoted⟩
    cases waiting with
    | nil => cases hb
    | cons top waiting =>
      obtain ⟨e, he, htop⟩ := hstop hlt top rfl
      refine ⟨e, he, le_trans ?_ htop⟩
      rcases mem_cons.mp hb with rfl | hb
      · exact le_rfl
      · exact timestamp_mono ((pairwise_cons.mp hpromoted.sorted).1 b hb)
  full := by
    rintro walk pending finals ⟨hle, -, rest, left, -, h⟩ hfull
    have hne : finals ≠ [] := ne_nil_of_length_pos (hlimit.trans_le hfull)
    have hlast := List.getLast?_eq_getLast_of_ne_nil hne
    refine ⟨_, .full (h.walked.splits_full timestamp_mono (fun c hc ↦ hscanned.bound c
      (h.unread c hc)) (hle.antisymm hfull)) hlast ?_⟩
    rw [hlast]
    rfl
  last := by
    rintro walk pending finals ⟨-, hwaiting, rest, left, hready, h⟩ hroom hnone
    have hpending : pending = [] := by
      refine eq_nil_iff_forall_not_mem.mpr fun b hb ↦ ?_
      obtain ⟨e, he, -⟩ := hwaiting hroom b hb
      rw [hnone] at he
      cases he
    have hwalked := h.walked
    rw [unread_eq_nil hready hnone, hpending] at hwalked
    exact ⟨[], .last (hwalked.splits_last hroom) rfl⟩
  cut := by
    rintro walk pending finals e ⟨-, hwaiting, rest, left, hready, h⟩ hroom he hstop
    obtain ⟨popped, hpop, rfl⟩ : ∃ popped, walk.pop = some popped ∧ popped.1.endedAt = e := by
      rwa [nextEndedAt_pop, Option.map_eq_some_iff] at he
    have hc : popped.1 ∈ unread walk rest := (h.fetched.pop hpop).2.symm.subset (mem_cons_self ..)
    have hpending : ∀ b ∈ pending, b.timestamp ≤ popped.1.endedAt := fun b hb ↦ by
      obtain ⟨e, he', hb⟩ := hwaiting hroom b hb
      rw [he] at he'
      cases he'
      exact hb
    have hfinals : ∀ a ∈ finals, popped.1.endedAt < a.timestamp := fun a ha ↦
      h.walked.final a ha popped.1 hc
    obtain ⟨hsplits, hrest⟩ := h.walked.splits_partial timestamp_mono
      (fun c hc ↦ hscanned.bound c (h.unread c hc)) hroom
      (h.fetched.unread_le hready he) hpending hfinals
    exact ⟨_, .cut hsplits (h.unread _ hc) hstop rfl hfinals hrest⟩
  next := by
    rintro walk pending finals e pending' round ⟨-, -, rest, left, -, h⟩ hroom he - hcollect
    have hpopped : ∀ c ∈ (walk.popMany budget.parallel).1, c ∈ sources := fun c hc ↦
      h.unread c ((h.fetched.popMany budget.parallel).2.symm.subset (mem_append_left _ hc))
    rw [collect_scan fun c hc ↦ hscanned.scan c (hpopped c hc)] at hcollect
    cases hcollect
    exact ⟨hroom, rest, _, h.next hscanned (List.Nodup.of_map _ hscanned.keys) budget.parallel⟩

end

theorem searchLoop_answers (hlimit : 0 < query.limit)
    (hscanned : store.Scanned query.limit filter (store.considered query filter) linesOf topOf
      restOf) {page : LogPage J}
    (hpage : store.searchLoop budget query filter overBudget fuel 0
      ⟨store.headCandidates query filter, [], false, none⟩ [] [] = some (.ok page)) :
    ∃ rest, Answers (store.considered query filter) filter.stop
      ((store.considered query filter).flatMap linesOf) page rest := by
  have hstart : Progress store query filter (store.considered query filter) linesOf
      ⟨store.headCandidates query filter, [], false, none⟩ (store.planned query filter) [] [] [] :=
    ⟨fetched_start store query filter, fun _ hc ↦ hc, walked_start _, .nil⟩
  refine (rounds_answers hscanned hlimit).page ?_ hpage
  exact ⟨hlimit, _, _, hstart⟩

end Temps.LogAggregator.Store.ChunkStore
