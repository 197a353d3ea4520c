import Mathlib.Data.List.DropRight
import Mathlib.Data.List.Infix

namespace Temps.Lib.Fields

open List

variable {α : Type*} {p : α → Bool} {xs ys t ks hs bs as a : List α}

/-- `t` is bounded on the left by the end of `a`, which is empty or ends in a separator. -/
def ClosedLeft (p : α → Bool) (a : List α) : Prop := ∃ a' d, a = a' ++ [d] ∧ p d = true

def ClosedRight (p : α → Bool) (b : List α) : Prop := ∃ d b', b = d :: b' ∧ p d = true

/-- Where a field stands in the list that was split: the fields before and after it tell on which
sides it is bounded by separators. -/
structure FieldAt (p : α → Bool) (ys front : List (α)) (t : List α) (before after : List (List α))
    (back : List α) : Prop where
  split : ys = front ++ t ++ back
  free : ∀ c ∈ t, p c = false
  first : before = [] → front = []
  last : after = [] → back = []
  left : before ≠ [] → ClosedLeft p front
  right : after ≠ [] → ClosedRight p back

theorem ClosedLeft.append (xs : List α) (h : ClosedLeft p a) : ClosedLeft p (xs ++ a) := by
  obtain ⟨a', d, rfl, hd⟩ := h
  exact ⟨xs ++ a', d, (append_assoc ..).symm, hd⟩

/-- A list is one field, or its first field ends at a separator. -/
theorem splitOnP_cases (p : α → Bool) (ys : List α) :
    (∀ c ∈ ys, p c = false) ∧ ys.splitOnP p = [ys] ∨
      ∃ xs d rest, ys = xs ++ d :: rest ∧ (∀ c ∈ xs, p c = false) ∧ p d ∧
        ys.splitOnP p = xs :: rest.splitOnP p := by
  cases hfind : ys.find? p with
  | none =>
    have hfree : ∀ c ∈ ys, p c = false := by simpa using find?_eq_none.mp hfind
    exact .inl ⟨hfree, splitOnP_eq_singleton hfree⟩
  | some d =>
    obtain ⟨hd, xs, rest, rfl, hxs⟩ := find?_eq_some_iff_append.mp hfind
    have hfree : ∀ c ∈ xs, p c = false := by simpa using hxs
    refine .inr ⟨xs, d, rest, rfl, hfree, hd, ?_⟩
    rw [splitOnP_append_cons _ _ hd, splitOnP_eq_singleton hfree, singleton_append]

theorem fieldAt_of_splitOnP (before : List (List α)) {after : List (List α)}
    (h : ys.splitOnP p = before ++ t :: after) :
    ∃ front back, FieldAt p ys front t before after back := by
  induction before generalizing ys with
  | nil =>
    obtain ⟨hfree, hone⟩ | ⟨xs, d, rest, rfl, hfree, hd, hsplit⟩ := splitOnP_cases p ys
    · obtain ⟨rfl, rfl⟩ := cons.inj (hone.symm.trans h)
      exact ⟨[], [], by simp, hfree, fun _ ↦ rfl, fun _ ↦ rfl, absurd rfl, absurd rfl⟩
    · obtain ⟨rfl, rfl⟩ := cons.inj (hsplit.symm.trans h)
      exact ⟨[], d :: rest, by simp, hfree, fun _ ↦ rfl, fun hnil ↦ (splitOnP_ne_nil _ _ hnil).elim,
        absurd rfl, fun _ ↦ ⟨d, rest, rfl, hd⟩⟩
  | cons f fs ih =>
    obtain ⟨hfree, hone⟩ | ⟨xs, d, rest, rfl, hfree, hd, hsplit⟩ := splitOnP_cases p ys
    · have hnil := (cons.inj (hone.symm.trans h)).2
      simp at hnil
    · obtain ⟨front, back, hat⟩ := ih (cons.inj (hsplit.symm.trans h)).2
      refine ⟨xs ++ d :: front, back, by simp [hat.split], hat.free, nofun, hat.last, fun _ ↦ ?_,
        hat.right⟩
      by_cases hfs : fs = []
      · exact hat.first hfs ▸ ⟨xs, d, rfl, hd⟩
      · exact append_cons _ d front ▸ (hat.left hfs).append _

theorem mem_splitOnP {b : List α} (ht : ∀ c ∈ t, p c = false) (ha : a = [] ∨ ClosedLeft p a)
    (hb : b = [] ∨ ClosedRight p b) : t ∈ (a ++ t ++ b).splitOnP p := by
  have hright : t ∈ (t ++ b).splitOnP p := by
    rcases hb with rfl | ⟨d, b', rfl, hd⟩
    · rw [append_nil, splitOnP_eq_singleton ht]
      simp
    · rw [splitOnP_append_cons _ _ hd, splitOnP_eq_singleton ht]
      simp
  rcases ha with rfl | ⟨a', d, rfl, hd⟩
  · simpa using hright
  · rw [append_assoc, append_assoc, singleton_append, splitOnP_append_cons _ _ hd]
    simp [hright]

section Separator

variable {β : Type} [DecidableEq β] {x : β} {l s : List β}

theorem subset_of_mem_splitOn (h : s ∈ l.splitOn x) : s ⊆ l := by
  obtain ⟨before, after, hsplit⟩ := append_of_mem h
  obtain ⟨front, back, hat⟩ := fieldAt_of_splitOnP before hsplit
  intro c hc
  rw [hat.split]
  exact mem_append_left _ (mem_append_right _ hc)

theorem not_mem_of_mem_splitOn (h : s ∈ l.splitOn x) : x ∉ s := by
  obtain ⟨before, after, hsplit⟩ := append_of_mem h
  obtain ⟨front, back, hat⟩ := fieldAt_of_splitOnP before hsplit
  intro hx
  have := hat.free x hx
  simp at this

omit [DecidableEq β] in
theorem intercalate_append_last (init : List (List β)) (last s : List β) :
    [x].intercalate (init ++ [last ++ s]) = [x].intercalate (init ++ [last]) ++ s := by
  induction init with
  | nil => simp
  | cons a init ih =>
    rw [cons_append, cons_append, intercalate_cons_of_ne_nil (by simp),
      intercalate_cons_of_ne_nil (by simp), ih, append_assoc _ _ s]

theorem splitOn_append_free {init : List (List β)} {last : List β}
    (h : l.splitOn x = init ++ [last]) (hs : x ∉ s) : (l ++ s).splitOn x = init ++ [last ++ s] := by
  obtain ⟨hinit, hlast⟩ := forall_mem_append.mp fun field hfield ↦
    not_mem_of_mem_splitOn (l := l) (x := x) (h ▸ hfield)
  have hl : l = [x].intercalate (init ++ [last]) := by rw [← h, intercalate_splitOn]
  rw [hl, ← intercalate_append_last, splitOn_intercalate x _ (by simp)]
  refine forall_mem_append.mpr ⟨hinit, forall_mem_singleton.mpr ?_⟩
  rw [mem_append, not_or]
  exact ⟨hlast last (by simp), hs⟩

end Separator

def windows3 : List α → List (List α)
  | a :: b :: c :: rest => [a, b, c] :: windows3 (b :: c :: rest)
  | _ => []

theorem append_sep_inj {c : α} (ha : c ∉ as) (hb : c ∉ bs)
    (h : as ++ c :: hs = bs ++ c :: ks) : as = bs ∧ hs = ks := by
  rcases append_eq_append_iff.mp h with ⟨m, rfl, hm⟩ | ⟨m, rfl, hm⟩
  all_goals
    cases m with
    | nil =>
      obtain ⟨-, rfl⟩ := cons.inj hm
      exact ⟨by simp, rfl⟩
    | cons b m =>
      obtain ⟨rfl, -⟩ := cons.inj hm
      simp at ha hb

theorem last_sep_inj {c : α} (hh : c ∉ hs) (hk : c ∉ ks)
    (h : as ++ c :: hs = bs ++ c :: ks) : hs = ks := by
  have hrev : hs.reverse ++ c :: as.reverse = ks.reverse ++ c :: bs.reverse := by
    simpa using congrArg List.reverse h
  have hfront := (append_sep_inj (by simpa using hh) (by simpa using hk) hrev).1
  exact reverse_injective hfront

end Temps.Lib.Fields
