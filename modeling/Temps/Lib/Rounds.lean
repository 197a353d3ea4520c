import Mathlib.Data.Finset.Card

namespace Temps.Lib.Rounds

open List

variable {α : Type}

def minBy (cmp : α → α → Ordering) : List α → Option α
  | [] => none
  | a :: rest => some (rest.foldl (fun best x ↦ if cmp best x = .gt then x else best) a)

theorem foldl_best_mem (cmp : α → α → Ordering) (rest : List α) (a : α) :
    rest.foldl (fun best x ↦ if cmp best x = .gt then x else best) a ∈ a :: rest := by
  refine foldlRecOn (motive := (· ∈ a :: rest)) rest _ mem_cons_self fun best hbest x hx ↦ ?_
  split
  · exact mem_cons_of_mem a hx
  · exact hbest

variable {l otherwise : List α} {i : ℕ} {p : α → Bool}

theorem minBy_mem {cmp : α → α → Ordering} (h : l ≠ []) : ∃ a ∈ l, minBy cmp l = some a := by
  cases l with
  | nil => exact absurd rfl h
  | cons a rest => exact ⟨_, foldl_best_mem cmp rest a, rfl⟩

def preferring (p : α → Bool) (l otherwise : List α) : List α :=
  if (l.filter p).isEmpty then otherwise else l.filter p

theorem preferring_map {β : Type} (f : α → β) (p : β → Bool) (l otherwise : List α) :
    preferring p (l.map f) (otherwise.map f) = (preferring (p ∘ f) l otherwise).map f := by
  rw [preferring, preferring, filter_map, isEmpty_map]
  split <;> rfl

theorem preferring_sublist {whole : List α} (hl : l.Sublist whole) (ho : otherwise.Sublist whole) :
    (preferring p l otherwise).Sublist whole := by
  rw [preferring]
  split
  · exact ho
  · exact filter_sublist.trans hl

theorem preferring_ne_nil (ho : otherwise ≠ []) : preferring p l otherwise ≠ [] := by
  rw [preferring]
  split
  · exact ho
  · exact mt List.isEmpty_iff.mpr ‹_›

theorem mem_preferring {a : α} :
    a ∈ preferring p l otherwise ↔ a ∈ l ∧ p a ∨ a ∈ otherwise ∧ ∀ b ∈ l, p b = false := by
  rw [preferring]
  by_cases hnone : ∀ b ∈ l, p b = false
  · have hempty : l.filter p = [] := filter_eq_nil_iff.mpr fun b hb ↦ by simp [hnone b hb]
    rw [hempty]
    refine ⟨fun h ↦ .inr ⟨h, hnone⟩, ?_⟩
    rintro (⟨ha, hp⟩ | ⟨ha, -⟩)
    · rw [hnone a ha] at hp
      cases hp
    · exact ha
  · have hsome : l.filter p ≠ [] := fun h ↦ hnone fun b hb ↦ by
      simpa using filter_eq_nil_iff.mp h b hb
    rw [if_neg (mt List.isEmpty_iff.mp hsome), mem_filter]
    exact ⟨.inl, fun h ↦ h.resolve_right fun h ↦ hnone h.2⟩

/-- Picks among `0, …, m - 1` that use every place once before a new round begins; the set holds the
places already used in the current round. -/
inductive Spread (m : ℕ) : Finset ℕ → List ℕ → Prop
  | done (used : Finset ℕ) : Spread m used []
  | pick {used : Finset ℕ} {i : ℕ} {rest : List ℕ} (hlt : i < m) (hfree : i ∉ used)
      (h : Spread m (insert i used) rest) : Spread m used (i :: rest)
  | reset {picks : List ℕ} (h : Spread m ∅ picks) : Spread m (Finset.range m) picks

variable {m n : ℕ} {used : Finset ℕ} {picks : List ℕ}

def mark (used : Finset ℕ) (i : ℕ) : ℕ := if i ∈ used then 1 else 0

theorem mark_insert (hfree : i ∉ used) (j : ℕ) :
    mark (insert i used) j = mark used j + if i = j then 1 else 0 := by
  by_cases hij : i = j
  · subst hij
    simp [mark, hfree]
  · simp [mark, hij, Ne.symm hij]

theorem Spread.tally (h : Spread m used picks) (hused : used ⊆ Finset.range m) :
    ∃ c left, left ⊆ Finset.range m ∧ (∀ i < m, picks.count i + mark used i = c + mark left i) ∧
      picks.length + used.card = c * m + left.card := by
  induction h with
  | done used => exact ⟨0, used, hused, fun i _ ↦ by simp, by simp⟩
  | @pick used i rest hlt hfree _ ih =>
    obtain ⟨c, left, hleft, hcount, hlength⟩ :=
      ih (Finset.insert_subset (Finset.mem_range.mpr hlt) hused)
    refine ⟨c, left, hleft, fun j hj ↦ ?_, ?_⟩
    · have hj := hcount j hj
      rw [mark_insert hfree] at hj
      simp only [count_cons, beq_iff_eq]
      omega
    · rw [Finset.card_insert_of_notMem hfree] at hlength
      rw [length_cons]
      omega
  | reset _ ih =>
    obtain ⟨c, left, hleft, hcount, hlength⟩ := ih (Finset.empty_subset _)
    refine ⟨c + 1, left, hleft, fun j hj ↦ ?_, ?_⟩
    · have hbefore := hcount j hj
      simp only [mark, Finset.notMem_empty, if_false, Finset.mem_range, hj, if_true] at hbefore ⊢
      omega
    · rw [Finset.card_empty] at hlength
      rw [Finset.card_range, Nat.succ_mul]
      omega

theorem Spread.lt (h : Spread m used picks) : ∀ i ∈ picks, i < m := by
  induction h with
  | done used => simp
  | pick hlt _ _ ih => exact forall_mem_cons.mpr ⟨hlt, ih⟩
  | reset _ ih => exact ih

theorem Spread.balanced (h : Spread m ∅ picks) {j : ℕ} (hi : i < m) (hj : j < m) :
    picks.count i ≤ picks.count j + 1 := by
  obtain ⟨c, left, -, hcount, -⟩ := h.tally (Finset.empty_subset _)
  have hi := hcount i hi
  have hj := hcount j hj
  have hmark : mark left i ≤ 1 := by
    unfold mark
    split <;> omega
  simp only [mark, Finset.notMem_empty] at hi hj hmark
  omega

theorem Spread.all_picked (h : Spread m ∅ picks) (hlength : m ≤ picks.length) (hi : i < m) :
    i ∈ picks := by
  obtain ⟨c, left, hleft, hcount, htotal⟩ := h.tally (Finset.empty_subset _)
  have hi' := hcount i hi
  rw [← count_pos_iff]
  simp only [mark, Finset.notMem_empty, if_false] at hi'
  rcases c.eq_zero_or_pos with rfl | hc
  · have hfull : left = Finset.range m :=
      Finset.eq_of_subset_of_card_le hleft (by rw [Finset.card_range]; omega)
    simp only [hfull, Finset.mem_range, hi, if_true] at hi'
    omega
  · omega

theorem spread_mod (hm : 0 < m) (k : ℕ) :
    Spread m (Finset.range (k % m)) ((List.range' k n).map (· % m)) := by
  induction n generalizing k with
  | zero => exact .done _
  | succ n ih =>
    have hlt : k % m < m := Nat.mod_lt k hm
    refine .pick hlt (by simp) ?_
    rw [← Finset.range_add_one]
    have hnext := ih (k + 1)
    rw [← Nat.mod_add_mod] at hnext
    by_cases hlast : k % m + 1 = m
    · rw [hlast, Nat.mod_self] at hnext
      rw [hlast]
      exact .reset hnext
    · rwa [Nat.mod_eq_of_lt (by omega)] at hnext

def pickFrom (l : List α) (picks : List ℕ) : List α := picks.filterMap (l[·]?)

variable {l : List α} {a : α}

theorem pickFrom_length (h : ∀ i ∈ picks, i < l.length) :
    (pickFrom l picks).length = picks.length :=
  filterMap_length_eq_length.mpr fun i hi ↦ by simp [h i hi]

theorem mem_pickFrom : a ∈ pickFrom l picks ↔ ∃ i ∈ picks, l[i]? = some a :=
  mem_filterMap

theorem count_pickFrom [DecidableEq α] (hl : l.Nodup) (ha : l[i]? = some a) :
    (pickFrom l picks).count a = picks.count i := by
  have hsame : ∀ j, l[j]? = some a ↔ j = i := by
    intro j
    refine ⟨fun hj ↦ ?_, fun hj ↦ hj ▸ ha⟩
    obtain ⟨hi, rfl⟩ := List.getElem?_eq_some_iff.mp ha
    obtain ⟨hj, hsame⟩ := List.getElem?_eq_some_iff.mp hj
    exact (hl.getElem_inj_iff).mp hsame
  rw [pickFrom, List.count, countP_filterMap]
  refine countP_congr fun j _ ↦ ?_
  rw [beq_iff_eq, ← hsame j]
  cases l[j]? <;> simp

end Temps.Lib.Rounds
