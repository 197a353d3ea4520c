import Temps.Deployments.NodeScheduler

namespace Temps.Deployments

open Lib.Rounds List

variable {L : Type} {sc : Scores L} {c : NodeScheduler L} {reads : Reads L}
  {request : ReplicaPlacementRequest} {pool : List (PoolEntry L)} {scores : List L} {size n : ℕ}
  {used : Finset ℕ}

theorem best_mem (sc : Scores L) {p : L × ℕ → Bool} (h : ∃ i < scores.length, ∀ score, p (score, i)) :
    ∃ score best, ((minBy sc.order (scores.zipIdx.filter p)).map Prod.snd).getD 0 = best ∧
      best < scores.length ∧ p (score, best) := by
  obtain ⟨i, hi, hp⟩ := h
  have hplace : (scores[i], i) ∈ scores.zipIdx :=
    mk_mem_zipIdx_iff_getElem?.mpr (List.getElem?_eq_getElem hi)
  have hne : scores.zipIdx.filter p ≠ [] := ne_nil_of_mem (mem_filter.mpr ⟨hplace, hp _⟩)
  obtain ⟨⟨score, best⟩, hmem, hmin⟩ : ∃ a ∈ scores.zipIdx.filter p,
      minBy sc.order (scores.zipIdx.filter p) = some a := minBy_mem hne
  obtain ⟨hmem, hfree⟩ := mem_filter.mp hmem
  refine ⟨score, best, by rw [hmin]; rfl, ?_, hfree⟩
  exact (List.getElem?_eq_some_iff.mp (mk_mem_zipIdx_iff_getElem?.mp hmem)).1

theorem scheduleLeastLoadedFrom_length : (scheduleLeastLoadedFrom sc size n scores).length = n := by
  induction n generalizing scores with
  | zero => rfl
  | succ n ih => rw [scheduleLeastLoadedFrom, length_cons, ih]

theorem scheduleLeastLoadedFrom_lt (hpos : 0 < scores.length) :
    ∀ i ∈ scheduleLeastLoadedFrom sc size n scores, i < scores.length := by
  induction n generalizing scores with
  | zero => exact fun i hi ↦ by cases hi
  | succ n ih =>
    obtain ⟨_, best, hbest, hlt, -⟩ := best_mem sc (p := fun _ ↦ true) ⟨0, hpos, fun _ ↦ rfl⟩
    rw [filter_true] at hbest
    rw [scheduleLeastLoadedFrom, hbest, forall_mem_cons]
    refine ⟨hlt, fun i hi ↦ ?_⟩
    have hi := ih (by rwa [length_modify]) i hi
    rwa [length_modify] at hi

theorem scheduleAntiAffinityLeastLoadedFrom_length {usedCount : ℕ} :
    (scheduleAntiAffinityLeastLoadedFrom sc size n scores used usedCount).length = n := by
  induction n generalizing scores used usedCount with
  | zero => rfl
  | succ n ih => rw [scheduleAntiAffinityLeastLoadedFrom, length_cons, ih]

theorem scheduleAntiAffinityLeastLoadedFrom_spread (hsize : scores.length = size) (hpos : 0 < size)
    (hused : used ⊆ Finset.range size) :
    Spread size used (scheduleAntiAffinityLeastLoadedFrom sc size n scores used used.card) := by
  induction n generalizing scores used with
  | zero => exact .done used
  | succ n ih =>
    have hpick : ∀ free : Finset ℕ, free ⊆ Finset.range size → free.card < size →
        Spread size free (scheduleAntiAffinityLeastLoadedFrom sc size (n + 1) scores free
          free.card) := by
      intro free hfree hcard
      have hopen : ∃ i < scores.length, i ∉ free := by
        by_contra hnone
        simp only [not_exists, not_and, not_not] at hnone
        have hall : Finset.range size ⊆ free := fun i hi ↦ hnone i (hsize ▸ Finset.mem_range.mp hi)
        have := Finset.card_le_card hall
        rw [Finset.card_range] at this
        omega
      obtain ⟨i, hi, hopen⟩ := hopen
      obtain ⟨_, best, hbest, hlt, hnew⟩ :=
        best_mem sc (p := fun x ↦ decide (x.2 ∉ free)) ⟨i, hi, fun _ ↦ decide_eq_true hopen⟩
      have hnew : best ∉ free := of_decide_eq_true hnew
      have hlt : best < size := hsize ▸ hlt
      rw [scheduleAntiAffinityLeastLoadedFrom, if_neg (Nat.not_le.mpr hcard),
        if_neg (Nat.not_le.mpr hcard), hbest, ← Finset.card_insert_of_notMem hnew]
      refine .pick hlt hnew (ih (by rwa [length_modify]) ?_)
      exact Finset.insert_subset (Finset.mem_range.mpr hlt) hfree
    by_cases hfull : size ≤ used.card
    · have hall : used = Finset.range size :=
        Finset.eq_of_subset_of_card_le hused (by rwa [Finset.card_range])
      have hnext := hpick ∅ (Finset.empty_subset _) hpos
      have hsame : scheduleAntiAffinityLeastLoadedFrom sc size (n + 1) scores used used.card =
          scheduleAntiAffinityLeastLoadedFrom sc size (n + 1) scores ∅ 0 := by
        simp only [scheduleAntiAffinityLeastLoadedFrom, if_pos hfull, ite_self]
      rw [hsame, hall]
      exact .reset hnext
    · exact hpick used hused (Nat.lt_of_not_le hfull)

theorem poolScores_length : (poolScores sc pool).length = pool.length := length_map _

theorem schedulePlaces_length :
    (schedulePlaces c reads request pool).length = request.replicaCount := by
  simp only [schedulePlaces, scheduleAntiAffinityRoundRobin, scheduleAntiAffinityLeastLoaded,
    scheduleRoundRobin, scheduleLeastLoaded]
  split <;> split <;> try split
  all_goals simp only [length_map, length_range, scheduleLeastLoadedFrom_length,
    scheduleAntiAffinityLeastLoadedFrom_length]

theorem schedulePlaces_spread (hanti : request.antiAffinity) (hsize : 1 < pool.length) :
    Spread pool.length ∅ (schedulePlaces c reads request pool) := by
  have hpos : 0 < pool.length := Nat.lt_of_succ_lt hsize
  have hrobin : Spread pool.length ∅
      (scheduleAntiAffinityRoundRobin pool.length request.replicaCount) := by
    have h := spread_mod (n := request.replicaCount) hpos 0
    rwa [← range_eq_range'] at h
  have hloaded : Spread pool.length ∅
      (scheduleAntiAffinityLeastLoaded c.scores pool request.replicaCount) :=
    scheduleAntiAffinityLeastLoadedFrom_spread poolScores_length hpos (Finset.empty_subset _)
  rw [schedulePlaces, if_pos (by simp [hanti, hsize])]
  split
  · exact hrobin
  · split
    · exact hloaded
    · exact hrobin

theorem schedulePlaces_lt (hpos : 0 < pool.length) :
    ∀ i ∈ schedulePlaces c reads request pool, i < pool.length := by
  have hrobin : ∀ i ∈ scheduleRoundRobin reads.counter pool.length request.replicaCount,
      i < pool.length := by
    intro i hi
    obtain ⟨k, -, rfl⟩ := mem_map.mp hi
    exact Nat.mod_lt _ hpos
  have hloaded : ∀ i ∈ scheduleLeastLoaded c.scores pool request.replicaCount, i < pool.length := by
    intro i hi
    have hlt := scheduleLeastLoadedFrom_lt (by rwa [poolScores_length]) i hi
    rwa [poolScores_length] at hlt
  by_cases hspread : request.antiAffinity ∧ 1 < pool.length
  · exact (schedulePlaces_spread hspread.1 hspread.2).lt
  · rw [schedulePlaces, if_neg (by simpa using hspread)]
    split
    · exact hrobin
    · split
      · exact hloaded
      · exact hrobin

end Temps.Deployments
