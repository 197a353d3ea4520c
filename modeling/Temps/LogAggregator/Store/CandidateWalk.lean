import Temps.LogAggregator.Store.ChunkStore

namespace Temps.LogAggregator.Store

open LogAggregator.Types Chunk ManifestRepo List

variable {J : Type}

section RowOrder

def Manifest.cursor (m : Manifest) : ManifestCursor := ⟨m.labels.endedAt, m.id⟩

def later (m m' : Manifest) : Prop := cursorCondition (Manifest.cursor m) m' = true

variable {m m' : Manifest}

theorem cursorCondition_iff {after : ManifestCursor} :
    cursorCondition after m ↔ m.labels.endedAt < after.endedAt ∨
      m.labels.endedAt = after.endedAt ∧ m.id < after.id := by
  simp [cursorCondition]

theorem later_iff : later m m' ↔ m'.labels.endedAt < m.labels.endedAt ∨
    m'.labels.endedAt = m.labels.endedAt ∧ m'.id < m.id := cursorCondition_iff

theorem later_asymm (h : later m m') : ¬ later m' m := by
  rw [later_iff] at h ⊢
  omega

instance : IsTrans Manifest newerRow := ⟨fun a b c hab hbc ↦ by
  rw [newerRow] at hab hbc ⊢
  omega⟩

instance : Std.Total newerRow := ⟨fun a b ↦ by
  rw [newerRow, newerRow]
  omega⟩

theorem later_of_newerRow (h : newerRow m m') (hid : m.id ≠ m'.id) : later m m' := by
  rw [newerRow] at h
  rw [later_iff]
  omega

theorem newerRow_of_later (h : later m m') : newerRow m m' := by
  rw [later_iff] at h
  rw [newerRow]
  omega

end RowOrder

namespace ChunkStore

variable (store : ChunkStore J) (budget : SearchBudget) (query : LogQuery J) (filter : LineFilter J)

def planned : List Manifest :=
  (store.manifests.rows.filter
    (buildConditions { query with endTime := filter.stop })).insertionSort newerRow

variable {store budget query filter}

theorem mem_planned {m : Manifest} : m ∈ store.planned query filter ↔
    m ∈ store.manifests.rows ∧ buildConditions { query with endTime := filter.stop } m := by
  rw [planned, mem_insertionSort, mem_filter]

variable (store query filter) in
theorem planned_later : (store.planned query filter).Pairwise later := by
  have hids : (store.planned query filter).Pairwise fun m m' ↦ m.id ≠ m'.id := by
    rw [← pairwise_map]
    refine ((perm_insertionSort _ _).map _).nodup_iff.mpr ?_
    exact store.manifests.ids_nodup.sublist (filter_sublist.map _)
  exact ((pairwise_insertionSort newerRow _).and hids).imp
    fun ⟨hnewer, hid⟩ ↦ later_of_newerRow hnewer hid

section

variable {given rest : List Manifest} (h : given ++ rest = store.planned query filter)
include h

theorem filter_planned :
    (store.planned query filter).filter
      (fun m ↦ (given.getLast?.map Manifest.cursor).all (cursorCondition · m)) = rest := by
  have hlater := planned_later store query filter
  rw [← h] at hlater ⊢
  rcases eq_nil_or_concat' given with rfl | ⟨front, last, rfl⟩
  · simp
  · obtain ⟨hgiven, -, hacross⟩ := pairwise_append.mp hlater
    obtain ⟨-, -, hlast⟩ := pairwise_append.mp hgiven
    have hnone : ∀ m ∈ front ++ [last], ¬ later last m := by
      intro m hm hlm
      rcases mem_append.mp hm with hfront | hself
      · exact later_asymm hlm (hlast m hfront last (by simp))
      · rw [mem_singleton.mp hself] at hlm
        exact later_asymm hlm hlm
    have hall : ∀ m ∈ rest, later last m := fun m hm ↦ hacross last (by simp) m hm
    rw [filter_append, List.getLast?_concat]
    have hfirst : (front ++ [last]).filter (fun m ↦ cursorCondition (Manifest.cursor last) m) =
        [] := filter_eq_nil_iff.mpr hnone
    have hsecond : rest.filter (fun m ↦ cursorCondition (Manifest.cursor last) m) = rest :=
      filter_eq_self.mpr hall
    simp only [Option.map_some, Option.all_some, hfirst, hsecond, nil_append]

theorem sealedBatch_eq :
    store.sealedBatch budget query filter (given.getLast?.map Manifest.cursor) =
      rest.take budget.batch := by
  have hrest : (rest.Pairwise later) := by
    have hlater := planned_later store query filter
    rw [← h] at hlater
    exact (pairwise_append.mp hlater).2.1
  have hperm : ((store.manifests.rows.filter fun m ↦
      buildConditions { query with endTime := filter.stop } m &&
        (given.getLast?.map Manifest.cursor).all (cursorCondition · m)).insertionSort
          newerRow).Perm rest := by
    refine (perm_insertionSort ..).trans ?_
    rw [← filter_planned h]
    refine .trans (.of_eq ?_) ((perm_insertionSort newerRow _).symm.filter _)
    rw [filter_filter]
    exact filter_congr fun m _ ↦ Bool.and_comm ..
  rw [sealedBatch, candidates]
  congr 1
  refine hperm.eq_of_pairwise ?_ (pairwise_insertionSort newerRow _)
    (hrest.imp newerRow_of_later)
  intro m m' hm hm' hnewer hnewer'
  refine inj_on_of_nodup_map store.manifests.ids_nodup ?_ ?_ ?_
  · exact (mem_planned.mp (h ▸ mem_append_right _ (hperm.subset hm))).1
  · exact (mem_planned.mp (h ▸ mem_append_right _ hm')).1
  · rw [newerRow] at hnewer hnewer'
    omega

end

/-- How far a walk has come: `rest` is what the planner has not given yet. -/
structure Fetched (store : ChunkStore J) (query : LogQuery J) (filter : LineFilter J) (walk : Walk)
    (rest : List Manifest) : Prop where
  heads : walk.heads.Pairwise fun l l' ↦ l'.endedAt ≤ l.endedAt
  rows : ∃ given, given ++ (walk.sealed ++ rest) = store.planned query filter ∧
    walk.sealedCursor = given.getLast?.map Manifest.cursor
  exhausted : walk.sealedExhausted = true → rest = []

def unread (walk : Walk) (rest : List Manifest) : List Candidate :=
  walk.heads.map .head ++ (walk.sealed ++ rest).map .sealed

variable (store query filter) in
theorem fetched_start : store.Fetched query filter
    ⟨store.headCandidates query filter, [], false, none⟩ (store.planned query filter) where
  heads := pairwise_insertionSort ..
  rows := ⟨[], rfl, rfl⟩
  exhausted := nofun

def considered (store : ChunkStore J) (query : LogQuery J) (filter : LineFilter J) :
    List Candidate :=
  (store.headCandidates query filter).map .head ++ (store.planned query filter).map .sealed

variable {walk next : Walk} {rest : List Manifest} {c : Candidate}

variable (budget) in
theorem nextEndedAt_none (h : walk.nextEndedAt = none) : walk.heads = [] ∧ walk.sealed = [] := by
  rw [Walk.nextEndedAt] at h
  cases hheads : walk.heads with
  | nil => cases hsealed : walk.sealed with
    | nil => exact ⟨rfl, rfl⟩
    | cons m ms => simp [hheads, hsealed] at h
  | cons l ls => cases hsealed : walk.sealed with
    | nil | cons m ms => simp [hheads, hsealed] at h

theorem nextEndedAt_pop (walk : Walk) :
    walk.nextEndedAt = walk.pop.map fun popped ↦ popped.1.endedAt := by
  cases hheads : walk.heads with
  | nil => cases hsealed : walk.sealed with
    | nil => simp [Walk.nextEndedAt, Walk.pop, Walk.takeHead, hheads, hsealed]
    | cons m ms => simp [Walk.nextEndedAt, Walk.pop, Walk.takeHead, hheads, hsealed,
        Candidate.endedAt, Candidate.labels]
  | cons l ls => cases hsealed : walk.sealed with
    | nil => simp [Walk.nextEndedAt, Walk.pop, Walk.takeHead, hheads, hsealed,
        Candidate.endedAt, Candidate.labels]
    | cons m ms =>
      by_cases hle : m.labels.endedAt ≤ l.endedAt
      · simp [Walk.nextEndedAt, Walk.pop, Walk.takeHead, hheads, hsealed, hle,
          Candidate.endedAt, Candidate.labels]
      · simp [Walk.nextEndedAt, Walk.pop, Walk.takeHead, hheads, hsealed, hle,
          Candidate.endedAt, Candidate.labels, (not_le.mp hle).le]

theorem popMany_one {e : ℤ} (he : walk.nextEndedAt = some e) : ∃ c next,
    walk.pop = some (c, next) ∧ c.endedAt = e ∧ walk.popMany 1 = ([c], next) := by
  rw [nextEndedAt_pop, Option.map_eq_some_iff] at he
  obtain ⟨⟨c, next⟩, hpop, hend⟩ := he
  refine ⟨c, next, hpop, hend, ?_⟩
  rw [Walk.popMany, hpop]
  rfl

section

variable {e : ℤ}

theorem le_of_head? {α : Type} {f : α → ℤ} {l : List α} (h : l.Pairwise fun a b ↦ f b ≤ f a)
    (hhead : ∀ a ∈ l.head?, f a ≤ e) : ∀ a ∈ l, f a ≤ e := by
  cases l with
  | nil => exact nofun
  | cons front l =>
    have hfront := hhead front rfl
    exact forall_mem_cons.mpr ⟨hfront, fun a ha ↦ ((pairwise_cons.mp h).1 a ha).trans hfront⟩

theorem head?_le_nextEndedAt (he : walk.nextEndedAt = some e) :
    (∀ l ∈ walk.heads.head?, l.endedAt ≤ e) ∧ ∀ m ∈ walk.sealed.head?, m.labels.endedAt ≤ e := by
  rw [Walk.nextEndedAt] at he
  generalize walk.heads.head? = head, walk.sealed.head? = row at he
  cases head with
  | none | some l => cases row with
    | none | some m => cases he <;> simp

end

section

variable (hready : walk.sealed = [] → rest = [])
include hready

theorem unread_eq_nil (he : walk.nextEndedAt = none) : unread walk rest = [] := by
  obtain ⟨hheads, hsealed⟩ := nextEndedAt_none he
  simp [unread, hheads, hsealed, hready hsealed]

variable (h : store.Fetched query filter walk rest)
include h

theorem Fetched.unread_le {e : ℤ} (he : walk.nextEndedAt = some e) :
    ∀ c ∈ unread walk rest, c.endedAt ≤ e := by
  obtain ⟨hheads, hsealed⟩ := head?_le_nextEndedAt he
  obtain ⟨given, hgiven, -⟩ := h.rows
  have hlater := planned_later store query filter
  rw [← hgiven] at hlater
  have hsorted : (walk.sealed ++ rest).Pairwise fun m m' ↦ m'.labels.endedAt ≤ m.labels.endedAt :=
    (pairwise_append.mp hlater).2.1.imp fun hl ↦ by
      have := later_iff.mp hl
      omega
  refine forall_mem_append.mpr ⟨forall_mem_map.mpr (le_of_head? h.heads hheads),
    forall_mem_map.mpr (le_of_head? hsorted ?_)⟩
  cases hs : walk.sealed with
  | nil => simp [hready hs]
  | cons m ms => simpa [hs, Candidate.endedAt, Candidate.labels] using hsealed

theorem Fetched.exists_next (hc : c ∈ unread walk rest) :
    ∃ e, walk.nextEndedAt = some e ∧ c.endedAt ≤ e := by
  cases he : walk.nextEndedAt with
  | none =>
    rw [unread_eq_nil hready he] at hc
    cases hc
  | some e => exact ⟨e, rfl, h.unread_le hready he c hc⟩

end

variable (h : store.Fetched query filter walk rest)
include h

variable (budget) in
theorem Fetched.refill :
    ∃ rest', store.Fetched query filter (store.refill budget query filter walk) rest' ∧
      unread (store.refill budget query filter walk) rest' = unread walk rest ∧
      ((store.refill budget query filter walk).sealed = [] → rest' = []) := by
  rw [ChunkStore.refill]
  split
  · rename_i hempty
    rw [Bool.and_eq_true, List.isEmpty_iff] at hempty
    obtain ⟨given, hgiven, hcursor⟩ := h.rows
    rw [hempty.1, nil_append] at hgiven
    rw [hcursor, sealedBatch_eq hgiven]
    dsimp only
    have hsplit := take_append_drop budget.batch rest
    have hdrained : (rest.take budget.batch).length < budget.batch →
        rest.drop budget.batch = [] := fun hlt ↦ by
      rw [length_take] at hlt
      exact drop_eq_nil_of_le (by omega)
    refine ⟨rest.drop budget.batch, ⟨h.heads, ⟨given, ?_, rfl⟩, ?_⟩, ?_, fun hnil ↦ ?_⟩
    · simpa only [hsplit] using hgiven
    · simpa using hdrained
    · simp only [unread, hsplit, hempty.1, nil_append]
    · refine hdrained ?_
      rw [hnil]
      exact budget.batch_pos
  · rename_i hready
    refine ⟨rest, h, rfl, fun hnil ↦ h.exhausted ?_⟩
    simpa [hnil] using hready

theorem Fetched.pop (hpop : walk.pop = some (c, next)) : store.Fetched query filter next rest ∧
      (unread walk rest).Perm (c :: unread next rest) := by
  rw [Walk.pop] at hpop
  split at hpop
  · cases hheads : walk.heads with
    | nil => simp [hheads] at hpop
    | cons l ls =>
      simp only [hheads] at hpop
      cases hpop
      have hsorted := h.heads
      rw [hheads] at hsorted
      refine ⟨⟨(pairwise_cons.mp hsorted).2, h.rows, h.exhausted⟩, ?_⟩
      simp [unread, hheads]
  · cases hsealed : walk.sealed with
    | nil => simp [hsealed] at hpop
    | cons m ms =>
      simp only [hsealed] at hpop
      cases hpop
      obtain ⟨given, hgiven, -⟩ := h.rows
      refine ⟨⟨h.heads, ⟨given ++ [m], ?_, ?_⟩, h.exhausted⟩, ?_⟩
      · rw [← hgiven, hsealed]
        simp
      · simp [Manifest.cursor]
      · simp only [unread, hsealed]
        exact perm_middle

theorem Fetched.popMany (n : ℕ) :
    store.Fetched query filter (walk.popMany n).2 rest ∧
      (unread walk rest).Perm ((walk.popMany n).1 ++ unread (walk.popMany n).2 rest) := by
  induction n generalizing walk with
  | zero => exact ⟨h, .refl _⟩
  | succ n ih =>
    rw [Walk.popMany]
    cases hpop : walk.pop with
    | none => exact ⟨h, .refl _⟩
    | some popped =>
      obtain ⟨hnext, hperm⟩ := h.pop hpop
      obtain ⟨hfetched, hmore⟩ := ih hnext
      exact ⟨hfetched, hperm.trans (hmore.cons _)⟩

end ChunkStore

end Temps.LogAggregator.Store
