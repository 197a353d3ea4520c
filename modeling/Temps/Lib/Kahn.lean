import Mathlib.Algebra.BigOperators.Group.Finset.Piecewise
import Mathlib.Algebra.Ring.Nat

namespace Temps.Lib.Kahn

open List Function Option

variable {α : Type*}

/-- Every node lies in the batch after the last of its dependencies. -/
structure Layered (deps : α → List α) (order : List (List α)) : Prop where
  nonempty : ∀ batch ∈ order, batch ≠ []
  earlier : ∀ k batch, order[k]? = some batch → ∀ j ∈ batch, ∀ d ∈ deps j,
    d ∈ (order.take k).flatten
  reached : ∀ k batch, order[k + 1]? = some batch → ∀ j ∈ batch, ∃ d ∈ deps j,
    d ∉ (order.take k).flatten

variable {deps : α → List α} {queue l : List α} {order : List (List α)}

namespace Layered

theorem snoc (h : Layered deps order) (hne : queue ≠ [])
    (hdone : ∀ j ∈ queue, ∀ d ∈ deps j, d ∈ order.flatten)
    (hlate : order ≠ [] → ∀ j ∈ queue, ∃ d ∈ deps j, d ∉ order.dropLast.flatten) :
    Layered deps (order ++ [queue]) := by
  have hcases : ∀ {k batch}, (order ++ [queue])[k]? = some batch →
      k < order.length ∧ order[k]? = some batch ∨ k = order.length ∧ batch = queue := by
    intro k batch hk
    rw [List.getElem?_append] at hk
    split at hk
    case isTrue hlt => exact .inl ⟨hlt, hk⟩
    case isFalse hge =>
      rw [List.getElem?_singleton] at hk
      obtain ⟨h0, hk⟩ := ite_none_right_eq_some.mp hk
      exact .inr ⟨by omega, (some.inj hk).symm⟩
  refine ⟨?_, ?_, ?_⟩
  · exact forall_mem_append.mpr ⟨h.nonempty, forall_mem_singleton.mpr hne⟩
  · intro k batch hk
    rcases hcases hk with ⟨hlt, hk⟩ | ⟨rfl, rfl⟩
    · rw [take_append_of_le_length (by omega)]
      exact h.earlier k batch hk
    · rw [take_left]
      exact hdone
  · intro k batch hk
    rcases hcases hk with ⟨hlt, hk⟩ | ⟨hlen, rfl⟩
    · rw [take_append_of_le_length (by omega)]
      exact h.reached k batch hk
    · have hlast : order.take k = order.dropLast := by rw [dropLast_eq_take, ← hlen]; rfl
      rw [take_append_of_le_length (by omega), hlast]
      exact hlate (length_pos_iff.mp (by omega))

theorem mem_take {k : ℕ} {d : α} : d ∈ (order.take k).flatten ↔
    ∃ k' < k, ∃ batch, order[k']? = some batch ∧ d ∈ batch := by
  rw [mem_flatten]
  constructor
  · intro ⟨batch, hb, hd⟩
    obtain ⟨k', hk'⟩ := mem_iff_getElem?.mp hb
    rw [List.getElem?_take] at hk'
    obtain ⟨hlt, hk'⟩ := ite_none_right_eq_some.mp hk'
    exact ⟨k', hlt, batch, hk', hd⟩
  · intro ⟨k', hlt, batch, hk', hd⟩
    refine ⟨batch, mem_iff_getElem?.mpr ⟨k', ?_⟩, hd⟩
    rw [List.getElem?_take, if_pos hlt, hk']

variable {k : ℕ} {batch : List α} {j : α} (h : Layered deps order) (hk : order[k]? = some batch)
  (hj : j ∈ batch)
include h hk hj

theorem chain_le (hl : List.IsChain (fun i d ↦ d ∈ deps i) (j :: l)) : l.length ≤ k := by
  induction l generalizing k batch j with
  | nil => exact Nat.zero_le k
  | cons d l ih =>
    obtain ⟨hd, hl⟩ := isChain_cons_cons.mp hl
    obtain ⟨k', hlt, batch', hk', hd'⟩ := mem_take.mp (h.earlier k batch hk j hj d hd)
    have := ih hk' hd' hl
    rw [length_cons]
    omega

theorem exists_chain : ∃ l, List.IsChain (fun i d ↦ d ∈ deps i) (j :: l) ∧ l.length = k := by
  induction k generalizing batch j with
  | zero => exact ⟨[], List.IsChain.singleton j, rfl⟩
  | succ k ih =>
    obtain ⟨d, hd, hlate⟩ := h.reached k batch hk j hj
    obtain ⟨k', hlt, batch', hk', hd'⟩ := mem_take.mp (h.earlier _ batch hk j hj d hd)
    obtain rfl : k' = k := by
      by_contra hne
      exact hlate (mem_take.mpr ⟨k', by omega, batch', hk', hd'⟩)
    obtain ⟨l, hl, hlen⟩ := ih hk' hd'
    exact ⟨d :: l, isChain_cons_cons.mpr ⟨hd, hl⟩, by rw [length_cons, hlen]⟩

theorem descends {i : α} (hji : Relation.TransGen (fun i d ↦ d ∈ deps i) j i) :
    ∃ k' < k, ∃ batch', order[k']? = some batch' ∧ i ∈ batch' := by
  induction hji with
  | single hd => exact mem_take.mp (h.earlier k batch hk j hj _ hd)
  | tail _ hd ih =>
    obtain ⟨k₁, hlt₁, batch₁, hk₁, hj⟩ := ih
    obtain ⟨k₂, hlt₂, batch₂, hk₂, hd⟩ := mem_take.mp (h.earlier k₁ batch₁ hk₁ _ hj _ hd)
    exact ⟨k₂, by omega, batch₂, hk₂, hd⟩

theorem irrefl : ¬ Relation.TransGen (fun i d ↦ d ∈ deps i) j j := by
  induction k using Nat.strongRecOn generalizing batch with
  | _ k ih =>
    intro hjj
    obtain ⟨k', hlt, batch', hk', hj'⟩ := h.descends hk hj hjj
    exact ih k' hlt hk' hj' hjj

end Layered

variable [DecidableEq α] {j : α}

def wrappingPred : ℕ → ℕ
  | 0 => 2 ^ 64 - 1
  | d + 1 => d

/-- Take one incoming edge of `j` away; `j` joins the queue when that was its last one. -/
def release (s : (α → Option ℕ) × List α) (j : α) : (α → Option ℕ) × List α :=
  match s.1 j with
  | none => s
  | some d =>
    let d' := wrappingPred d
    (Function.update s.1 j (some d'), if d' = 0 then s.2 ++ [j] else s.2)

def levels (dependents : α → List α) : ℕ → (α → Option ℕ) → List α → List (List α) → List (List α)
  | 0, _, _, order => order
  | fuel + 1, degree, queue, order =>
    if queue = [] then order
    else
      let s := (queue.flatMap dependents).foldl release (degree, [])
      levels dependents fuel s.1 s.2 (order ++ [queue])

/-- Every edge of `es` is taken from a node that still has one. -/
def Guarded (s : (α → Option ℕ) × List α) : List α → Prop
  | [] => True
  | j :: es => s.1 j ≠ some 0 ∧ Guarded (release s j) es

/-- No in-degree wraps around while the levels are computed. -/
def NoUnderflow (dependents : α → List α) : ℕ → (α → Option ℕ) → List α → Prop
  | 0, _, _ => True
  | fuel + 1, degree, queue => queue ≠ [] →
    let s := (queue.flatMap dependents).foldl release (degree, [])
    Guarded (degree, []) (queue.flatMap dependents) ∧ NoUnderflow dependents fuel s.1 s.2

/-- The in-degrees and the queue after the edges `es` have been taken away from nodes that have
`m j` edges in all. -/
structure Released (m : α → ℕ) (nodes : List α) (before es : List α)
    (s : (α → Option ℕ) × List α) : Prop where
  degree : ∀ j ∈ nodes, s.1 j = some (m j - (before ++ es).count j)
  queue_nodup : s.2.Nodup
  mem_queue : ∀ j, j ∈ s.2 ↔ j ∈ nodes ∧ before.count j < m j ∧ (before ++ es).count j = m j

section

variable {m : α → ℕ} {nodes before es : List α} {s : (α → Option ℕ) × List α}
  (h : Released m nodes before es s)
include h

theorem release_step (hj : j ∈ nodes) (hroom : (before ++ es).count j < m j) :
    Released m nodes before (es ++ [j]) (release s j) := by
  have hd := h.degree j hj
  have hcount : ∀ i, (before ++ (es ++ [j])).count i =
      (before ++ es).count i + if j = i then 1 else 0 := by
    intro i
    rw [← append_assoc, count_append, count_singleton]
    simp only [beq_iff_eq]
  obtain ⟨d, hd'⟩ : ∃ d, m j - (before ++ es).count j = d + 1 :=
    ⟨m j - (before ++ es).count j - 1, by omega⟩
  rw [hd'] at hd
  have hrel : release s j = (update s.1 j (some d), if d = 0 then s.2 ++ [j] else s.2) := by
    simp only [release, hd]
    rfl
  have hfresh : j ∉ s.2 := by
    intro hm
    have := ((h.mem_queue j).mp hm).2.2
    omega
  rw [hrel]
  refine ⟨fun i hi ↦ ?_, ?_, fun i ↦ ?_⟩
  · by_cases he : j = i
    · subst he
      simp only [update_self, hcount, if_true]
      congr 1
      omega
    · simp only [update_of_ne (Ne.symm he), h.degree i hi, hcount, if_neg he, Nat.add_zero]
  · split
    · rw [nodup_append]
      exact ⟨h.queue_nodup, nodup_singleton j, by rintro a ha b hb rfl; simp_all⟩
    · exact h.queue_nodup
  · have hb : before.count j ≤ (before ++ es).count j := by
      rw [count_append]
      omega
    have hi := h.mem_queue i
    rw [hcount i]
    by_cases he : j = i
    · subst he
      simp only [if_pos]
      by_cases h0 : d = 0
      · simp only [h0, if_true, mem_append, mem_singleton, or_true, true_iff]
        exact ⟨hj, by omega, by omega⟩
      · simp only [h0, if_false, hfresh, false_iff]
        omega
    · have hne : i ≠ j := Ne.symm he
      split
      · simpa [hne] using hi
      · exact hi

theorem release_fold {rest : List α} (hnodes : ∀ j ∈ rest, j ∈ nodes)
    (hbound : ∀ j, (before ++ (es ++ rest)).count j ≤ m j) :
    Released m nodes before (es ++ rest) (rest.foldl release s) ∧ Guarded s rest := by
  induction rest generalizing es s with
  | nil => exact ⟨by simpa using h, trivial⟩
  | cons j rest ih =>
    have hj := hnodes j (by simp)
    have hroom : (before ++ es).count j < m j := by
      have hb := hbound j
      simp only [count_append, count_cons_self] at hb ⊢
      omega
    obtain ⟨hrest, hguard⟩ := ih (release_step h hj hroom) (fun i hi ↦ hnodes i (by simp [hi]))
      (by simpa using hbound)
    refine ⟨by simpa using hrest, ?_, hguard⟩
    rw [h.degree j hj, ne_eq, some.injEq]
    omega

end

/-- A graph given twice: `deps` lists the edges into a node, `dependents` those out of it. -/
structure Graph (nodes : List α) (deps dependents : α → List α) : Prop where
  nodes_nodup : nodes.Nodup
  counts : ∀ i ∈ nodes, ∀ j ∈ nodes, (dependents i).count j = (deps j).count i
  dependents_mem : ∀ i ∈ nodes, ∀ j ∈ dependents i, j ∈ nodes

variable {nodes : List α} {dependents : α → List α}

theorem sum_count (hl : l.Nodup) (ds : List α) :
    (l.map fun i ↦ ds.count i).sum = (ds.filter (· ∈ l)).length := by
  have hcard := Multiset.sum_count_eq_card (s := l.toFinset) (m := (ds.filter (· ∈ l) : Multiset α))
    fun a ha ↦ by simpa using (mem_filter.mp ha).2
  rw [← sum_toFinset _ hl, ← Multiset.coe_card, ← hcard]
  refine Finset.sum_congr rfl fun i hi ↦ ?_
  rw [Multiset.coe_count, count_filter (by simpa using hi)]

/-- Between two levels: `finished` has been processed, `queue` holds the nodes all of whose
dependencies are finished, and the degrees count the dependencies still missing. -/
structure Levelled (nodes : List α) (deps dependents : α → List α) (finished queue : List α)
    (degree : α → Option ℕ) : Prop where
  nodup : (finished ++ queue).Nodup
  mem : ∀ j, j ∈ finished ++ queue ↔
    j ∈ nodes ∧ (finished.flatMap dependents).count j = (deps j).length
  degree : ∀ j ∈ nodes,
    degree j = some ((deps j).length - (finished.flatMap dependents).count j)

variable {finished : List α} {degree : α → Option ℕ}

theorem Levelled.subperm (h : Levelled nodes deps dependents finished queue degree) :
    (finished ++ queue).Subperm nodes :=
  subperm_of_subset h.nodup fun j hj ↦ ((h.mem j).mp hj).1

theorem Levelled.perm_nodes (h : Levelled nodes deps dependents finished [] degree)
    (hlen : finished.length = nodes.length) : finished.Perm nodes := by
  have hsub := h.subperm
  rw [append_nil] at hsub
  exact hsub.perm_of_length_le (by omega)

variable (g : Graph nodes deps dependents)
include g

section

variable {l : List α} (hmem : ∀ i ∈ l, i ∈ nodes)
include hmem

theorem Graph.count_flatMap (hj : j ∈ nodes) :
    (l.flatMap dependents).count j = (l.map fun i ↦ (deps j).count i).sum := by
  rw [List.count_flatMap]
  exact congrArg sum (map_congr_left fun i hi ↦ g.counts i (hmem i hi) j hj)

variable (hl : l.Nodup)
include hl

theorem Graph.count_le (j : α) : (l.flatMap dependents).count j ≤ (deps j).length := by
  by_cases hj : j ∈ nodes
  · rw [g.count_flatMap hmem hj, sum_count hl]
    exact length_filter_le _ _
  · have hno : j ∉ l.flatMap dependents := by
      intro h
      obtain ⟨i, hi, hji⟩ := mem_flatMap.mp h
      exact hj (g.dependents_mem i (hmem i hi) j hji)
    rw [count_eq_zero_of_not_mem hno]
    exact Nat.zero_le _

theorem Graph.count_eq_iff (hj : j ∈ nodes) :
    (l.flatMap dependents).count j = (deps j).length ↔ ∀ d ∈ deps j, d ∈ l := by
  rw [g.count_flatMap hmem hj, sum_count hl, length_filter_eq_length_iff]
  simp only [decide_eq_true_eq]

end

section

variable (h : Levelled nodes deps dependents finished queue degree)
include h

theorem Levelled.mem_iff : j ∈ finished ++ queue ↔ j ∈ nodes ∧ ∀ d ∈ deps j, d ∈ finished := by
  have hmem : ∀ i ∈ finished, i ∈ nodes := fun i hi ↦ ((h.mem i).mp (by simp [hi])).1
  rw [h.mem j]
  exact and_congr_right fun hj ↦ g.count_eq_iff hmem (nodup_append.mp h.nodup).1 hj

theorem Levelled.step :
    Levelled nodes deps dependents (finished ++ queue)
      ((queue.flatMap dependents).foldl release (degree, [])).2
      ((queue.flatMap dependents).foldl release (degree, [])).1 ∧
      Guarded (degree, []) (queue.flatMap dependents) := by
  have hmem : ∀ i ∈ finished ++ queue, i ∈ nodes := fun i hi ↦ ((h.mem i).mp hi).1
  have hflat : (finished ++ queue).flatMap dependents =
      finished.flatMap dependents ++ queue.flatMap dependents := flatMap_append
  have hle := g.count_le hmem h.nodup
  have hstart : Released (fun j ↦ (deps j).length) nodes (finished.flatMap dependents) []
      (degree, []) := by
    refine ⟨fun j hj ↦ ?_, nodup_nil, fun j ↦ ?_⟩
    · rw [append_nil]
      exact h.degree j hj
    · simp only [not_mem_nil, append_nil, false_iff]
      omega
  have hedges : ∀ j ∈ queue.flatMap dependents, j ∈ nodes := by
    intro j hj
    obtain ⟨i, hi, hji⟩ := mem_flatMap.mp hj
    exact g.dependents_mem i (hmem i (by simp [hi])) j hji
  obtain ⟨hfold, hguard⟩ := release_fold hstart hedges
    (fun j ↦ by rw [nil_append, ← hflat]; exact hle j)
  rw [nil_append] at hfold
  refine ⟨⟨?_, fun j ↦ ?_, fun j hj ↦ ?_⟩, hguard⟩
  · rw [nodup_append]
    refine ⟨h.nodup, hfold.queue_nodup, ?_⟩
    intro a ha b hb hab
    have h1 := ((h.mem a).mp ha).2
    have h2 := ((hfold.mem_queue b).mp hb).2.1
    rw [← hab] at h2
    omega
  · have hm := h.mem j
    have hq := hfold.mem_queue j
    have hj := hle j
    rw [mem_append, hm, hq, hflat]
    rw [hflat, count_append] at hj
    rw [count_append, ← and_or_left]
    exact and_congr_right fun _ ↦ by omega
  · rw [hfold.degree j hj, hflat]

end

theorem levels_spec (fuel : ℕ) (order : List (List α))
    (h : Levelled nodes deps dependents order.flatten queue degree) (hlayers : Layered deps order)
    (hlate : order ≠ [] → ∀ j ∈ queue, ∃ d ∈ deps j, d ∉ order.dropLast.flatten)
    (hfuel : nodes.length < fuel + order.flatten.length) :
    (∃ degree', Levelled nodes deps dependents
      (levels dependents fuel degree queue order).flatten [] degree') ∧
      Layered deps (levels dependents fuel degree queue order) ∧
      NoUnderflow dependents fuel degree queue := by
  induction fuel generalizing degree queue order with
  | zero =>
    have := h.subperm.length_le
    rw [length_append] at this
    omega
  | succ fuel ih =>
    rw [levels]
    by_cases hq : queue = []
    · rw [if_pos hq]
      exact ⟨⟨degree, hq ▸ h⟩, hlayers, absurd hq⟩
    · rw [if_neg hq]
      have hpos := length_pos_iff.mpr hq
      have hflat : (order ++ [queue]).flatten = order.flatten ++ queue := by simp
      obtain ⟨hstep, hguard⟩ := h.step g
      have hdone : ∀ j ∈ queue, ∀ d ∈ deps j, d ∈ order.flatten :=
        fun j hj ↦ ((h.mem_iff g).mp (mem_append_right _ hj)).2
      have hlate' : ∀ j ∈ ((queue.flatMap dependents).foldl release (degree, [])).2,
          ∃ d ∈ deps j, d ∉ (order ++ [queue]).dropLast.flatten := by
        intro j hj
        rw [dropLast_concat]
        by_contra hall
        push Not at hall
        have hmem := ((hstep.mem_iff g).mp (mem_append_right _ hj)).1
        have hold := (h.mem_iff g).mpr ⟨hmem, hall⟩
        exact (nodup_append.mp hstep.nodup).2.2 j hold j hj rfl
      obtain ⟨hlevels, hlayers', hno⟩ := ih (order ++ [queue]) (hflat ▸ hstep)
        (hlayers.snoc hq hdone hlate) (fun _ ↦ hlate')
        (by rw [hflat, length_append]; omega)
      exact ⟨hlevels, hlayers', fun _ ↦ ⟨hguard, hno⟩⟩

theorem Levelled.perm_of_rank (h : Levelled nodes deps dependents finished [] degree) (rank : α → ℕ)
    (hrank : ∀ i, ∀ d ∈ deps i, d ∈ nodes ∧ rank d < rank i) : finished.Perm nodes := by
  have hn := h.nodup
  have hm := fun i ↦ h.mem_iff g (j := i)
  simp only [append_nil] at hn hm
  have hall : ∀ i ∈ nodes, i ∈ finished := by
    intro i
    induction i using (measure rank).wf.induction with
    | _ i ih => exact fun hi ↦ (hm i).mpr ⟨hi, fun d hd ↦ ih d (hrank i d hd).2 (hrank i d hd).1⟩
  rw [perm_ext_iff_of_nodup hn g.nodes_nodup]
  exact fun i ↦ ⟨fun hi ↦ ((hm i).mp hi).1, hall i⟩

end Temps.Lib.Kahn
