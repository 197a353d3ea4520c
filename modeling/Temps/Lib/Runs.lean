import Mathlib.Data.List.DropRight
import Mathlib.Data.List.Infix

namespace Temps.Lib.Runs

open List

variable {α : Type*} {s : α} {l m a a' b b' : List α}

def Spaced (s : α) (l : List α) : Prop := ¬ [s, s] <:+: l

/-- What stands between double separators: not empty, no two separators in a row, and none at
either end. -/
structure Word (s : α) (l : List α) : Prop where
  ne_nil : l ≠ []
  spaced : Spaced s l
  head : ∀ x ∈ l.head?, x ≠ s
  last : ∀ x ∈ l.getLast?, x ≠ s

theorem Spaced.of_isInfix (h : Spaced s m) (hl : l <:+: m) : Spaced s l :=
  fun hs ↦ h (hs.trans hl)

theorem spaced_nil : Spaced s [] := by simp [Spaced]

theorem spaced_cons {x : α} (h : Spaced s l) (hx : x = s → ∀ y ∈ l.head?, y ≠ s) :
    Spaced s (x :: l) := by
  intro hs
  rcases infix_cons_iff.mp hs with hp | hi
  · obtain ⟨t, ht⟩ := hp
    obtain ⟨rfl, rfl⟩ : s = x ∧ s :: t = l := by simpa using ht
    exact hx rfl s (by simp) rfl
  · exact h hi

theorem spaced_append (ha : Spaced s a) (hb : Spaced s b)
    (hjoin : (∀ x ∈ a.getLast?, x ≠ s) ∨ ∀ y ∈ b.head?, y ≠ s) : Spaced s (a ++ b) := by
  induction a with
  | nil => simpa using hb
  | cons x a ih =>
    have ha' : Spaced s a := ha.of_isInfix (suffix_cons x a).isInfix
    cases a with
    | nil =>
      refine spaced_cons hb fun hx ↦ hjoin.resolve_left fun hlast ↦ ?_
      exact hlast x (by simp) hx
    | cons y a =>
      refine spaced_cons (ih ha' (hjoin.imp_left fun hlast ↦ by simpa using hlast)) ?_
      rintro rfl z hz
      obtain rfl : y = z := by simpa using hz
      rintro rfl
      exact ha ⟨[], a, rfl⟩

theorem word_of_not_mem (hne : l ≠ []) (h : s ∉ l) : Word s l where
  ne_nil := hne
  spaced := fun hs ↦ h (hs.subset (by simp))
  head := fun _ hx hxs ↦ h (hxs ▸ mem_of_mem_head? hx)
  last := fun _ hx hxs ↦ h (hxs ▸ mem_of_mem_getLast? hx)

theorem not_spaced_join (a b : List α) : ¬ Spaced s (a ++ s :: s :: b) :=
  fun h ↦ h ⟨a, b, by simp⟩

theorem double_sep_inj (ha : Word s a) (ha' : Word s a') (h : a ++ s :: s :: b = a' ++ s :: s :: b') :
    a = a' ∧ b = b' := by
  -- the longer of the two fronts would hold the other's separator or end in its first half
  have key : ∀ {a a' b b' : List α}, Word s a' → a ++ s :: s :: b = a' ++ s :: s :: b' →
      a'.length ≤ a.length := by
    intro a a' b b' ha' h
    by_contra hlt
    obtain ⟨t, rfl⟩ : a <+: a' := prefix_of_prefix_length_le ⟨_, h⟩ (prefix_append _ _) (by omega)
    match t, h with
    | [], _ => simp at hlt
    | [x], h =>
      obtain ⟨rfl, -⟩ : s = x ∧ _ := by simpa using h
      exact ha'.last s (by simp) rfl
    | x :: y :: t, h =>
      obtain ⟨rfl, rfl, -⟩ : s = x ∧ s = y ∧ _ := by simpa using h
      exact not_spaced_join a t ha'.spaced
  have hlen : a.length = a'.length := le_antisymm (key ha h.symm) (key ha' h)
  obtain ⟨rfl, hb⟩ := append_inj h hlen
  exact ⟨rfl, by simpa using hb⟩

variable [DecidableEq α] {n : ℕ}

def trimEnd (s : α) (l : List α) : List α := l.rdropWhile (· = s)

def cut (s : α) (n : ℕ) (l : List α) : List α := trimEnd s (l.take n)

theorem trimEnd_last (l : List α) : ∀ x ∈ (trimEnd s l).getLast?, x ≠ s := by
  intro x hx
  have hne : trimEnd s l ≠ [] := by
    intro h
    simp [h] at hx
  have hlast : (trimEnd s l).getLast hne = x :=
    Option.some.inj ((List.getLast?_eq_some_getLast hne).symm.trans hx)
  simpa [trimEnd, ← hlast] using rdropWhile_last_not (· = s) l hne

theorem trimEnd_isPrefix (l : List α) : trimEnd s l <+: l := rdropWhile_prefix _ l

theorem trimEnd_of_last (h : ∀ x ∈ l.getLast?, x ≠ s) : trimEnd s l = l := by
  rw [trimEnd, rdropWhile_eq_self_iff]
  intro hl
  simpa using h _ (List.getLast?_eq_some_getLast hl)

theorem trimEnd_concat (a : List α) : trimEnd s (a ++ [s]) = trimEnd s a :=
  rdropWhile_concat_pos _ _ _ (by simp)

theorem trimEnd_append (a : List α) (hb : trimEnd s b ≠ []) :
    trimEnd s (a ++ b) = a ++ trimEnd s b := by
  induction b using List.reverseRecOn with
  | nil => simp [trimEnd] at hb
  | append_singleton b x ih =>
    rw [← append_assoc]
    by_cases hx : x = s
    · rw [hx, trimEnd_concat] at hb ⊢
      rw [trimEnd_concat, ih hb]
    · have hkeep : ∀ c : List α, trimEnd s (c ++ [x]) = c ++ [x] :=
        fun c ↦ rdropWhile_concat_neg _ _ _ (by simpa using hx)
      rw [hkeep, hkeep, append_assoc]

theorem trimEnd_cons {x : α} (hx : x ≠ s) (l : List α) : trimEnd s (x :: l) = x :: trimEnd s l := by
  induction l using List.reverseRecOn with
  | nil => simp [trimEnd, rdropWhile_singleton, hx]
  | append_singleton l y ih =>
    rw [← cons_append]
    simp only [trimEnd, rdropWhile_concat]
    split
    · exact ih
    · rfl

theorem Word.cut (h : Word s l) (hn : 0 < n) : Word s (cut s n l) := by
  have hpre : Runs.cut s n l <+: l := (trimEnd_isPrefix _).trans <| take_prefix n l
  obtain ⟨x, l', rfl⟩ := exists_cons_of_ne_nil h.ne_nil
  have hx : x ≠ s := h.head x rfl
  obtain ⟨k, rfl⟩ := Nat.exists_eq_succ_of_ne_zero hn.ne'
  have hcons : Runs.cut s (k + 1) (x :: l') = x :: trimEnd s (l'.take k) := by
    rw [Runs.cut, take_succ_cons, trimEnd_cons hx]
  refine ⟨by simp [hcons], h.spaced.of_isInfix hpre.isInfix, ?_, trimEnd_last _⟩
  simpa [hcons] using hx

theorem Word.cut_length (l : List α) : (Runs.cut s n l).length ≤ n :=
  (trimEnd_isPrefix _).length_le.trans (length_take_le n l)

theorem cut_join_early (ha : Word s a) (b : List α) (hn : n ≤ a.length + 2) :
    cut s n (a ++ s :: s :: b) = cut s n a := by
  rw [cut, take_append, cut]
  obtain hle | hlt := le_or_gt n a.length
  · rw [Nat.sub_eq_zero_of_le hle, take_zero, append_nil]
  · rw [take_of_length_le hlt.le, trimEnd_of_last ha.last]
    obtain h1 | h2 : n - a.length = 1 ∨ n - a.length = 2 := by omega
    · rw [h1, take_succ_cons, take_zero, trimEnd_concat, trimEnd_of_last ha.last]
    · rw [h2, take_succ_cons, take_succ_cons, take_zero, append_cons, trimEnd_concat,
        trimEnd_concat, trimEnd_of_last ha.last]

theorem cut_join_late (hb : Word s b) (hn : a.length + 2 < n) :
    cut s n (a ++ s :: s :: b) = a ++ s :: s :: cut s (n - a.length - 2) b := by
  obtain ⟨k, rfl⟩ := Nat.exists_eq_add_of_lt hn
  have hcut : cut s (k + 1) b ≠ [] := (hb.cut (Nat.succ_pos k)).ne_nil
  have htake : (a ++ s :: s :: b).take (a.length + 2 + k + 1) = (a ++ [s, s]) ++ b.take (k + 1) := by
    rw [show a.length + 2 + k + 1 = a.length + (k + 3) by omega, take_append]
    simp
  rw [cut, htake, trimEnd_append _ hcut, show a.length + 2 + k + 1 - a.length - 2 = k + 1 by omega]
  simp [cut]

end Temps.Lib.Runs
