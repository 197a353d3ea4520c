import Mathlib.Data.List.Sort

namespace Temps.Lib.Pages

open List

variable {α K : Type*} [LinearOrder K] (key : α → K) (rows : List α)

def beyond (c : K) : List α := rows.filter fun a ↦ c < key a

def byKey (l : List α) : List α := l.insertionSort fun a b ↦ key a ≤ key b

def page (n : ℕ) (c : K) : List α := (byKey key (beyond key rows c)).take n

variable {key rows} {n : ℕ} {c c' : K} {a last : α} {l : List α}

theorem byKey_perm (l : List α) : (byKey key l).Perm l := perm_insertionSort _ l

theorem byKey_sorted (l : List α) : (byKey key l).Pairwise fun a b ↦ key a ≤ key b :=
  pairwise_insertionSort _ l

theorem mem_beyond : a ∈ beyond key rows c ↔ a ∈ rows ∧ c < key a := by
  simp [beyond]

theorem beyond_beyond (h : c ≤ c') :
    (beyond key rows c).filter (fun a ↦ c' < key a) = beyond key rows c' := by
  rw [beyond, filter_filter]
  refine filter_congr fun a _ ↦ ?_
  by_cases ha : c' < key a
  · simp [h.trans_lt ha]
  · simp [ha]

theorem mem_of_mem_page (h : a ∈ page key rows n c) : a ∈ rows ∧ c < key a :=
  mem_beyond.mp ((byKey_perm _).subset (mem_of_mem_take h))

theorem page_sorted : (page key rows n c).Pairwise fun a b ↦ key a ≤ key b :=
  (byKey_sorted _).sublist (take_sublist n _)

theorem page_length_le : (page key rows n c).length ≤ n := length_take_le n _

theorem page_perm_of_short (h : (page key rows n c).length < n) :
    (page key rows n c).Perm (beyond key rows c) := by
  have hlen : (byKey key (beyond key rows c)).length ≤ n := by
    rw [page, length_take] at h
    omega
  rw [page, take_of_length_le hlen]
  exact byKey_perm _

theorem page_eq_nil (hn : 0 < n) (h : page key rows n c = []) : beyond key rows c = [] := by
  have hperm : (page key rows n c).Perm (beyond key rows c) := page_perm_of_short (by simpa [h])
  rw [h] at hperm
  exact hperm.nil_eq.symm

theorem le_last (hl : l.Pairwise fun a b ↦ key a ≤ key b) (hlast : l.getLast? = some last)
    (ha : a ∈ l) : key a ≤ key last := by
  obtain ⟨front, rfl⟩ := List.getLast?_eq_some_iff.mp hlast
  rcases mem_append.mp ha with ha | ha
  · exact (pairwise_append.mp hl).2.2 a ha last (mem_singleton_self last)
  · rw [mem_singleton.mp ha]

theorem beyond_last_length_lt (hlast : (page key rows n c).getLast? = some last) :
    (beyond key rows (key last)).length < (beyond key rows c).length := by
  have hmem := mem_of_getLast? hlast
  obtain ⟨hrow, hlt⟩ := mem_of_mem_page hmem
  rw [← beyond_beyond hlt.le]
  refine length_filter_lt_length_iff_exists.mpr ⟨last, mem_beyond.mpr ⟨hrow, hlt⟩, ?_⟩
  simp

theorem mem_page_or_beyond (halone : ∀ b ∈ rows, key b = key a → b = a) (ha : a ∈ beyond key rows c)
    (hlast : (page key rows n c).getLast? = some last) :
    a ∈ page key rows n c ∨ key last < key a := by
  have hmem := mem_of_getLast? hlast
  have hsorted : (byKey key (beyond key rows c)).Pairwise fun a b ↦ key a ≤ key b := byKey_sorted _
  have ha' : a ∈ byKey key (beyond key rows c) := (byKey_perm _).symm.subset ha
  rw [← take_append_drop n (byKey key (beyond key rows c))] at hsorted ha'
  rcases mem_append.mp ha' with htake | hdrop
  · exact .inl htake
  · have hle : key last ≤ key a := (pairwise_append.mp hsorted).2.2 last hmem a hdrop
    rcases hle.lt_or_eq with hlt | heq
    · exact .inr hlt
    · exact .inl (halone last (mem_of_mem_page hmem).1 heq ▸ hmem)

theorem page_nodup (h : rows.Nodup) : (page key rows n c).Nodup :=
  (((byKey_perm _).nodup_iff).mpr (h.filter _)).sublist (take_sublist n _)

theorem le_last_of_short (h : (page key rows n c).length < n)
    (hlast : (page key rows n c).getLast? = some last) (ha : a ∈ rows) : key a ≤ key last := by
  rcases le_or_gt (key a) c with hle | hlt
  · exact hle.trans (mem_of_mem_page (mem_of_getLast? hlast)).2.le
  · exact le_last page_sorted hlast ((page_perm_of_short h).symm.subset (mem_beyond.mpr ⟨ha, hlt⟩))

variable {β : Type*} {f : β → α} {source : List β}

theorem page_map : (page (key ∘ f) source n c).map f = page key (source.map f) n c := by
  have hsort (l : List β) : (byKey (key ∘ f) l).map f = byKey key (l.map f) :=
    map_insertionSort _ _ f l fun _ _ _ _ ↦ Iff.rfl
  rw [page, page, map_take, hsort, beyond, beyond, filter_map]
  rfl

end Temps.Lib.Pages
