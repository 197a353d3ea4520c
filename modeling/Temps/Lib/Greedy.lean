import Mathlib.Data.List.Infix
import Mathlib.Data.List.Nodup

namespace Temps.Lib.Greedy

open List

variable {α σ : Type} {l : List α}

/-- How the load of a batch starts with its first item and grows with every other one. -/
structure Scale (α σ : Type) where
  start : α → σ
  add : σ → α → σ

namespace Scale

variable (m : Scale α σ) (exceeds : σ → α → Bool) {b : List α}

/-- The items that join a batch of load `s`, and those that are left. -/
def fill : σ → List α → List α × List α
  | _, [] => ([], [])
  | s, a :: as =>
    if exceeds s a then ([], a :: as) else (a :: (fill (m.add s a) as).1, (fill (m.add s a) as).2)

def segmentsFrom : σ → List α → List α → List (List α)
  | _, batch, [] => [batch]
  | s, batch, a :: as =>
    if exceeds s a then batch :: segmentsFrom (m.start a) [a] as
    else segmentsFrom (m.add s a) (batch ++ [a]) as

def segments : List α → List (List α)
  | [] => []
  | a :: as => m.segmentsFrom exceeds (m.start a) [a] as

def Runs : σ → List α → Prop
  | _, [] => True
  | s, a :: as => exceeds s a = false ∧ Runs (m.add s a) as

def Fits : List α → Prop
  | [] => False
  | a :: as => m.Runs exceeds (m.start a) as

def Closed : List α → List α → Prop
  | a :: as, r :: _ => exceeds (as.foldl m.add (m.start a)) r = true
  | _, _ => True

theorem fill_append (s : σ) (as : List α) : (m.fill exceeds s as).1 ++ (m.fill exceeds s as).2 = as := by
  induction as generalizing s with
  | nil => rfl
  | cons a as ih =>
    rw [fill]
    split
    · rfl
    · rw [cons_append, ih]

theorem fill_eq_iff (s : σ) (as rest : List α) :
    m.fill exceeds s (as ++ rest) = (as, rest) ↔
      m.Runs exceeds s as ∧ ∀ r ∈ rest.head?, exceeds (as.foldl m.add s) r := by
  induction as generalizing s with
  | nil =>
    cases rest with
    | nil => simp [fill, Runs]
    | cons r rest =>
      cases h : exceeds s r <;> simp [fill, Runs]
  | cons a as ih =>
    cases h : exceeds s a with
    | true => simp [fill, Runs, h]
    | false =>
      have hrest := ih (m.add s a)
      simp only [cons_append, fill, h, Bool.false_eq_true, if_false, Prod.mk.injEq,
        cons.injEq, true_and, Runs, foldl_cons]
      rw [← hrest, Prod.ext_iff]

theorem closed_iff (a : α) (as rest : List α) :
    m.Closed exceeds (a :: as) rest ↔ ∀ r ∈ rest.head?, exceeds (as.foldl m.add (m.start a)) r := by
  cases rest <;> simp [Closed]

theorem segmentsFrom_eq (s : σ) (batch as : List α) :
    m.segmentsFrom exceeds s batch as =
      (batch ++ (m.fill exceeds s as).1) :: m.segments exceeds (m.fill exceeds s as).2 := by
  induction as generalizing s batch with
  | nil => simp [segmentsFrom, fill, segments]
  | cons a as ih =>
    cases h : exceeds s a <;> simp [segmentsFrom, fill, h, ih, segments]

theorem segments_cons (a : α) (as : List α) :
    m.segments exceeds (a :: as) =
      (a :: (m.fill exceeds (m.start a) as).1) :: m.segments exceeds
        (m.fill exceeds (m.start a) as).2 :=
  segmentsFrom_eq m exceeds _ _ _

theorem segments_induction {motive : List α → Prop} (nil : motive [])
    (cons : ∀ a as, motive (m.fill exceeds (m.start a) as).2 → motive (a :: as)) (l : List α) :
    motive l := by
  induction hn : l.length using Nat.strong_induction_on generalizing l with
  | _ n ih =>
    cases l with
    | nil => exact nil
    | cons a as =>
      have hlen := congrArg List.length (fill_append m exceeds (m.start a) as)
      rw [length_append] at hlen
      rw [length_cons] at hn
      exact cons a as (ih _ (by omega) _ rfl)

theorem flatten_segments (l : List α) : (m.segments exceeds l).flatten = l := by
  induction l using segments_induction m exceeds with
  | nil => rfl
  | cons a as ih => rw [segments_cons, flatten_cons, ih, cons_append, fill_append]

theorem ne_nil_of_mem_segments (h : b ∈ m.segments exceeds l) : b ≠ [] := by
  induction l using segments_induction m exceeds with
  | nil => cases h
  | cons a as ih =>
    rw [segments_cons, mem_cons] at h
    rcases h with rfl | h
    · exact cons_ne_nil _ _
    · exact ih h

variable {m exceeds} {exceeds' : σ → α → Bool}

theorem fill_eq_fill_iff (exceeds exceeds' : σ → α → Bool) (a : α) (as : List α) :
    m.fill exceeds' (m.start a) as = m.fill exceeds (m.start a) as ↔
      m.Fits exceeds' (a :: (m.fill exceeds (m.start a) as).1) ∧
        m.Closed exceeds' (a :: (m.fill exceeds (m.start a) as).1)
          (m.fill exceeds (m.start a) as).2 := by
  have h := fill_eq_iff m exceeds' (m.start a) (m.fill exceeds (m.start a) as).1
    (m.fill exceeds (m.start a) as).2
  rw [fill_append] at h
  rw [closed_iff]
  exact h

theorem fill_eq_of_fst {s : σ} {as : List α}
    (h : (m.fill exceeds s as).1 = (m.fill exceeds' s as).1) :
    m.fill exceeds' s as = m.fill exceeds s as := by
  have happ := (fill_append m exceeds' s as).trans (fill_append m exceeds s as).symm
  rw [h] at happ
  exact Prod.ext h.symm (append_cancel_left happ)

theorem mem_of_mem_segments (hb : b ∈ m.segments exceeds l) {a : α} (ha : a ∈ b) : a ∈ l := by
  rw [← flatten_segments m exceeds l]
  exact mem_flatten_of_mem hb ha

theorem take_prefix_iff (l : List α) (k : ℕ) :
    (m.segments exceeds l).take k <+: m.segments exceeds' l ↔
      ∀ front b back, m.segments exceeds l = front ++ b :: back → front.length < k →
        m.Fits exceeds' b ∧ m.Closed exceeds' b back.flatten := by
  induction l using segments_induction m exceeds generalizing k with
  | nil =>
    refine ⟨fun _ front b back h ↦ ?_, fun _ ↦ by simp [segments]⟩
    simp [segments] at h
  | cons a as ih =>
    cases k with
    | zero => simp
    | succ k =>
      have hfirst := fill_eq_fill_iff (m := m) exceeds exceeds' a as
      have hrest := flatten_segments m exceeds (m.fill exceeds (m.start a) as).2
      rw [segments_cons, segments_cons, take_succ_cons, cons_prefix_cons, cons.injEq]
      constructor
      · rintro ⟨⟨-, hbatch⟩, hpre⟩ front b back hsplit hk
        have hfill := fill_eq_of_fst hbatch
        rw [hfill] at hpre
        cases front with
        | nil =>
          obtain ⟨rfl, rfl⟩ := cons.inj hsplit
          rw [hrest]
          exact hfirst.mp hfill
        | cons f front =>
          refine (ih k).mp hpre front b back (cons.inj hsplit).2 ?_
          rw [length_cons] at hk
          omega
      · intro h
        have hhead := h [] _ _ rfl (Nat.succ_pos k)
        rw [hrest] at hhead
        rw [hfirst.mpr hhead]
        refine ⟨⟨rfl, rfl⟩, (ih k).mpr ?_⟩
        intro front b back hsplit hk
        refine h ((a :: (m.fill exceeds (m.start a) as).1) :: front) b back ?_ (Nat.succ_lt_succ hk)
        rw [hsplit, cons_append]

theorem subset_iff_prefix (hl : l.Nodup) (k : ℕ) :
    (∀ b ∈ (m.segments exceeds l).take k, b ∈ m.segments exceeds' l) ↔
      (m.segments exceeds l).take k <+: m.segments exceeds' l := by
  refine ⟨fun h ↦ ?_, fun h b hb ↦ h.subset hb⟩
  induction l using segments_induction m exceeds generalizing k with
  | nil => simp [segments]
  | cons a as ih =>
    cases k with
    | zero => simp
    | succ k =>
      have happ := fill_append m exceeds (m.start a) as
      have happ' := fill_append m exceeds' (m.start a) as
      rw [segments_cons m exceeds, segments_cons m exceeds', take_succ_cons, forall_mem_cons] at h
      rw [segments_cons m exceeds, segments_cons m exceeds', take_succ_cons]
      obtain ⟨ha, has⟩ := nodup_cons.mp hl
      rcases mem_cons.mp h.1 with hbatch | hlater
      · have hfill := fill_eq_of_fst (cons.inj hbatch).2
        rw [hfill] at h ⊢
        rw [← happ, nodup_append] at has
        rw [cons_prefix_cons]
        refine ⟨rfl, ih has.2.1 k ?_⟩
        intro b hb
        refine (mem_cons.mp (h.2 b hb)).resolve_left ?_
        rintro rfl
        apply ha
        rw [← happ]
        have hmem := mem_of_mem_segments (mem_of_mem_take hb) mem_cons_self
        exact mem_append_right _ hmem
      · exfalso
        apply ha
        rw [← happ']
        exact mem_append_right _ (mem_of_mem_segments hlater mem_cons_self)

end Scale

theorem mem_take_iff {a : α} {k : ℕ} :
    a ∈ l.take k ↔ ∃ front back, l = front ++ a :: back ∧ front.length < k := by
  rw [mem_take_iff_getElem]
  constructor
  · rintro ⟨i, hi, rfl⟩
    refine ⟨l.take i, l.drop (i + 1), ?_, ?_⟩
    · rw [← drop_eq_getElem_cons, take_append_drop]
    · rw [length_take]
      omega
  · rintro ⟨front, back, rfl, hk⟩
    have hlt : front.length < (front ++ a :: back).length := by simp
    exact ⟨front.length, lt_min hk hlt, by simp⟩

end Temps.Lib.Greedy
