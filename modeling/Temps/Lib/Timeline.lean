import Mathlib.Data.List.Chain
import Mathlib.Order.Lattice

namespace Temps.Lib.Timeline

open List

variable {T M : Type*}

/-- A stretch of time spent in one mode; without an end it still lasts. -/
structure Stretch (T M : Type*) where
  start : T
  stop : Option T
  mode : M
deriving DecidableEq

abbrev Stretch.Open (a : Stretch T M) : Prop := a.stop = none

variable {l : List (Stretch T M)} {a b : Stretch T M}

def current (d : M) (l : List (Stretch T M)) : M :=
  match l.find? (·.stop.isNone) with
  | none => d
  | some a => a.mode

theorem any_open_closed (h : ∀ b ∈ l, b.stop ≠ none) : l.any (·.stop.isNone) = false := by
  simpa using h

section

variable [DecidableEq M] (now : T) (m : M)

def close (now : T) (m : M) (l : List (Stretch T M)) : List (Stretch T M) :=
  l.map fun a ↦ if a.stop = none ∧ a.mode ≠ m then { a with stop := some now } else a

def switch (now : T) (m : M) (l : List (Stretch T M)) : List (Stretch T M) :=
  if (close now m l).any (·.stop.isNone) then close now m l
  else close now m l ++ [⟨now, none, m⟩]

theorem switch_nil : switch now m [] = [⟨now, none, m⟩] := rfl

theorem close_closed (h : ∀ b ∈ l, b.stop ≠ none) : close now m l = l := by
  refine (map_congr_left fun b hb ↦ ?_).trans (map_id l)
  exact if_neg fun hc ↦ h b hb hc.1

end

section Order

variable [LE T]

/-- The next stretch begins where this one ends, in another mode. -/
structure Follows (a b : Stretch T M) : Prop where
  stop : a.stop = some b.start
  start_le : a.start ≤ b.start
  mode_ne : a.mode ≠ b.mode

/-- A history without gaps or overlaps whose last stretch still lasts. -/
structure Adjoins (l : List (Stretch T M)) : Prop where
  chain : l.IsChain Follows
  last : ∀ a ∈ l.getLast?, a.Open

theorem Adjoins.nil : Adjoins ([] : List (Stretch T M)) := ⟨.nil, nofun⟩

theorem Adjoins.singleton (t : T) (m : M) : Adjoins [⟨t, none, m⟩] := by
  refine ⟨.singleton _, fun a ha ↦ ?_⟩
  obtain rfl : (⟨t, none, m⟩ : Stretch T M) = a := by simpa using ha
  rfl

end Order

section Chain

variable [Preorder T] {pre post : List (Stretch T M)} {n : Stretch T M}

theorem stop_le_of_isChain (h : (pre ++ n :: post).IsChain Follows) (ha : a ∈ pre) :
    ∃ e ∈ a.stop, a.start ≤ e ∧ e ≤ n.start := by
  induction pre generalizing a with
  | nil => simp at ha
  | cons c pre ih =>
    obtain ⟨hhead, htail⟩ := isChain_cons.mp h
    rcases mem_cons.mp ha with rfl | ha
    · cases pre with
      | nil =>
        obtain ⟨hstop, hle, -⟩ := hhead n (by simp)
        exact ⟨n.start, hstop, hle, le_rfl⟩
      | cons b pre =>
        obtain ⟨hstop, hle, -⟩ := hhead b (by simp)
        obtain ⟨e, -, hbe, hen⟩ := ih htail mem_cons_self
        exact ⟨b.start, hstop, hle, hbe.trans hen⟩
    · exact ih htail ha

section

variable (h : Adjoins (l ++ [a]))
include h

theorem Adjoins.last_open : a.Open := h.last a (by simp)

theorem Adjoins.closed (hb : b ∈ l) : b.stop ≠ none := by
  obtain ⟨e, he, -⟩ := stop_le_of_isChain h.chain hb
  rw [he]
  exact Option.some_ne_none e

theorem Adjoins.filter_open : (l ++ [a]).filter (·.stop = none) = [a] := by
  have hnone : l.filter (·.stop = none) = [] :=
    filter_eq_nil_iff.mpr fun b hb hopen ↦ h.closed hb (of_decide_eq_true hopen)
  rw [filter_append, hnone, filter_singleton, decide_eq_true h.last_open]
  rfl

theorem find?_open : (l ++ [a]).find? (·.stop.isNone) = some a := by
  have hnone : l.find? (·.stop.isNone) = none := by
    simpa using fun b hb ↦ h.closed hb
  rw [List.find?_append, hnone]
  simp [h.last_open]

theorem current_snoc (d : M) : current d (l ++ [a]) = a.mode := by
  rw [current, find?_open h]

variable {m : M} (now : T)

theorem Adjoins.append (hnow : a.start ≤ now)
    (hm : a.mode ≠ m) : Adjoins (l ++ [{ a with stop := some now }] ++ [⟨now, none, m⟩]) where
  chain := by
    have hl := isChain_append.mp h.chain
    rw [append_assoc]
    refine isChain_append.mpr ⟨hl.1, ?_, fun x hx y hy ↦ ?_⟩
    · exact isChain_pair.mpr ⟨rfl, hnow, hm⟩
    · obtain rfl : { a with stop := some now } = y := by simpa using hy
      obtain ⟨hstop, hle, hne⟩ := hl.2.2 x hx a (by simp)
      exact ⟨hstop, hle, hne⟩
  last := by
    intro b hb
    obtain rfl : (⟨now, none, m⟩ : Stretch T M) = b := by simpa using hb
    rfl

variable [DecidableEq M]

theorem switch_same : switch now a.mode (l ++ [a]) = l ++ [a] := by
  have hclose : close now a.mode (l ++ [a]) = l ++ [a] := by
    unfold close
    rw [map_append, ← close, close_closed now a.mode fun b ↦ h.closed]
    simp
  rw [switch, hclose]
  simp [h.last_open]

theorem switch_other (hm : a.mode ≠ m) :
    switch now m (l ++ [a]) = l ++ [{ a with stop := some now }] ++ [⟨now, none, m⟩] := by
  have hclose : close now m (l ++ [a]) = l ++ [{ a with stop := some now }] := by
    unfold close
    rw [map_append, ← close, close_closed now m fun b ↦ h.closed]
    simp [h.last_open, hm]
  have hany : (l ++ [{ a with stop := some now }]).any (·.stop.isNone) = false := by
    rw [any_append, any_open_closed fun b ↦ h.closed]
    rfl
  rw [switch, hclose, hany]
  simp

end

variable [DecidableEq M] {now : T} (h : Adjoins l) (hnow : ∀ a ∈ l, a.start ≤ now)
include h hnow

theorem exists_switch (m : M) :
    ∃ l' a, switch now m l = l' ++ [a] ∧ a.mode = m ∧ Adjoins (l' ++ [a]) := by
  rcases eq_nil_or_concat l with rfl | ⟨l, a, rfl⟩
  · exact ⟨[], _, switch_nil now m, rfl, .singleton now m⟩
  · rw [concat_eq_append] at h hnow ⊢
    by_cases hm : a.mode = m
    · exact ⟨l, a, hm ▸ switch_same h now, hm, h⟩
    · exact ⟨_, _, switch_other h now hm, rfl, h.append now (hnow a (by simp)) hm⟩

theorem Adjoins.switch (m : M) : Adjoins (switch now m l) := by
  obtain ⟨l', a, heq, -, hnew⟩ := exists_switch h hnow m
  rw [heq]
  exact hnew

theorem current_switch (d m : M) : current d (Timeline.switch now m l) = m := by
  obtain ⟨l', a, heq, rfl, hnew⟩ := exists_switch h hnow m
  rw [heq]
  exact current_snoc hnew d

end Chain

section Switch

variable [DecidableEq M] {now : T}

theorem start_le_switch [Preorder T] {m : M} (hnow : ∀ a ∈ l, a.start ≤ now) :
    ∀ a ∈ Timeline.switch now m l, a.start ≤ now := by
  have hclose : ∀ a ∈ close now m l, a.start ≤ now := by
    intro a ha
    obtain ⟨b, hb, rfl⟩ := mem_map.mp ha
    split <;> exact hnow b hb
  intro a ha
  rw [Timeline.switch] at ha
  split at ha
  · exact hclose a ha
  · rcases mem_append.mp ha with ha | ha
    · exact hclose a ha
    · obtain rfl : a = ⟨now, none, m⟩ := by simpa using ha
      exact le_rfl

theorem head?_switch (now : T) (m : M) (l : List (Stretch T M)) (hne : l ≠ []) :
    (Timeline.switch now m l).head?.map Stretch.mode = l.head?.map Stretch.mode := by
  obtain ⟨a, l, rfl⟩ := exists_cons_of_ne_nil hne
  have hclose : (close now m (a :: l)).head?.map Stretch.mode = some a.mode := by
    simp only [close, map_cons]
    split <;> rfl
  rw [Timeline.switch]
  split
  · exact hclose
  · exact hclose

theorem switch_ne_nil (now : T) (m : M) (l : List (Stretch T M)) :
    Timeline.switch now m l ≠ [] := by
  rw [Timeline.switch]
  split
  case isTrue h => rintro hnil; rw [hnil] at h; simp at h
  case isFalse => simp

end Switch

variable [LinearOrder T] {l pre post : List (Stretch T M)} {a n : Stretch T M} {d m : M}
  {f t x : T}

/-- A stretch holds its first instant and not its last. -/
abbrev Stretch.Covers (a : Stretch T M) (t : T) : Prop := a.start ≤ t ∧ ∀ e ∈ a.stop, t < e

def modeAt (d : M) (l : List (Stretch T M)) (t : T) : M :=
  match l.find? fun a ↦ decide (a.Covers t) with
  | none => d
  | some a => a.mode

def Held (d : M) (l : List (Stretch T M)) (m : M) (f t : T) : Prop :=
  ∀ x, f ≤ x → x ≤ t → modeAt d l x = m

theorem exists_newest {ι : Type*} (start : ι → T) (l : List ι) (t : T) :
    (∀ a ∈ l, t < start a) ∨ ∃ pre n post, l = pre ++ n :: post ∧ start n ≤ t ∧
      ∀ b ∈ post.head?, t < start b := by
  induction l using List.reverseRecOn with
  | nil => exact .inl nofun
  | append_singleton l a ih =>
    by_cases ha : start a ≤ t
    · exact .inr ⟨l, a, [], rfl, ha, nofun⟩
    rcases ih with hall | ⟨pre, n, post, rfl, hn, hpost⟩
    · exact .inl (forall_mem_append.mpr ⟨hall, forall_mem_singleton.mpr (not_le.mp ha)⟩)
    · refine .inr ⟨pre, n, post ++ [a], by simp, hn, ?_⟩
      cases post with
      | nil =>
        rintro b hb
        obtain rfl : a = b := by simpa using hb
        exact not_le.mp ha
      | cons c post => exact hpost

theorem pairwise_start (h : l.IsChain Follows) : l.Pairwise fun a b ↦ a.start ≤ b.start :=
  isChain_iff_pairwise.mp (h.imp fun _ _ hab ↦ hab.start_le)

theorem start_lt_of_isChain (h : (pre ++ n :: post).IsChain Follows) (ha : a ∈ pre)
    (hne : a.stop ≠ some a.start) : a.start < n.start := by
  obtain ⟨e, he, hae, hen⟩ := stop_le_of_isChain h ha
  refine (lt_of_le_of_ne hae fun heq ↦ hne ?_).trans_le hen
  rw [heq]
  exact he

theorem head_start_le (h : (n :: post).IsChain Follows) : ∀ a ∈ n :: post, n.start ≤ a.start :=
  forall_mem_cons.mpr ⟨le_rfl, fun _ ↦ rel_of_pairwise_cons (pairwise_start h)⟩

theorem modeAt_newest (h : Adjoins (pre ++ n :: post)) (hx : n.start ≤ x)
    (hpost : ∀ b ∈ post.head?, x < b.start) : modeAt d (pre ++ n :: post) x = n.mode := by
  have hpre : pre.find? (fun a ↦ decide (a.Covers x)) = none := by
    rw [List.find?_eq_none]
    intro a ha hcov
    obtain ⟨e, he, -, hle⟩ := stop_le_of_isChain h.chain ha
    have hlt : x < e := (of_decide_eq_true hcov).2 e he
    exact absurd (hle.trans hx) (not_le.mpr hlt)
  have hn : n.Covers x := by
    refine ⟨hx, fun e he ↦ ?_⟩
    cases post with
    | nil => exact absurd he (by simp [h.last_open])
    | cons b post =>
      have hfollow : Follows n b := (isChain_append.mp h.chain).2.1.rel
      obtain rfl : b.start = e := by simpa [hfollow.stop] using he
      exact hpost b rfl
  have hfind : (n :: post).find? (fun a ↦ decide (a.Covers x)) = some n := by
    rw [List.find?_cons, decide_eq_true hn]
  rw [modeAt, List.find?_append, hpre, Option.none_or, hfind]

theorem modeAt_before (h : ∀ a ∈ l, x < a.start) : modeAt d l x = d := by
  have hnone : l.find? (fun a ↦ decide (a.Covers x)) = none := by
    rw [List.find?_eq_none]
    intro a ha hcov
    exact absurd (of_decide_eq_true hcov).1 (not_le.mpr (h a ha))
  rw [modeAt, hnone]

theorem modeAt_cons : modeAt d (a :: l) x = if a.Covers x then a.mode else modeAt d l x := by
  rw [modeAt, List.find?_cons]
  by_cases hx : a.Covers x
  · rw [if_pos hx, decide_eq_true hx]
  · rw [if_neg hx, decide_eq_false hx]
    rfl

theorem modeAt_close [DecidableEq M] {now : T} (hx : x < now) (hpost : ∀ b ∈ post, x < b.start) :
    modeAt d (close now m l ++ post) x = modeAt d l x := by
  induction l with
  | nil => exact modeAt_before hpost
  | cons a l ih =>
    rw [close, map_cons, cons_append, modeAt_cons, modeAt_cons, ← close, ih]
    by_cases hopen : a.stop = none ∧ a.mode ≠ m
    · simp [hopen, Stretch.Covers, hx]
    · rw [if_neg hopen]

theorem modeAt_switch [DecidableEq M] {now : T} (hx : x < now) :
    modeAt d (switch now m l) x = modeAt d l x := by
  rw [switch]
  split
  · rw [← append_nil (close now m l)]
    exact modeAt_close hx (by simp)
  · exact modeAt_close hx (forall_mem_singleton.mpr hx)

theorem modeAt_current (h : Adjoins l) (hx : ∀ a ∈ l, a.start ≤ x) :
    modeAt d l x = current d l := by
  rcases eq_nil_or_concat l with rfl | ⟨l, a, rfl⟩
  · rfl
  · rw [concat_eq_append] at h hx ⊢
    rw [current_snoc h]
    exact modeAt_newest h (hx a (by simp)) (by simp)

theorem held_iff (h : Adjoins (pre ++ n :: post)) (hne : ∀ a ∈ pre, a.stop ≠ some a.start)
    (hfirst : pre = [] → n.mode ≠ d) (hn : n.start ≤ t) (hpost : ∀ b ∈ post.head?, t < b.start)
    (hft : f ≤ t) : Held d (pre ++ n :: post) m f t ↔ n.mode = m ∧ n.start ≤ f := by
  constructor
  · intro hheld
    have hm : n.mode = m := by
      rw [← hheld t hft le_rfl, modeAt_newest h hn hpost]
    refine ⟨hm, le_of_not_gt fun hlt ↦ ?_⟩
    -- just before the newest stretch began another mode was in force
    rcases eq_nil_or_concat pre with rfl | ⟨pre, p, rfl⟩
    · refine hfirst rfl ?_
      rw [hm, ← hheld f le_rfl hft]
      exact modeAt_before fun a ha ↦ hlt.trans_le (head_start_le h.chain a ha)
    · rw [concat_eq_append, append_assoc] at h hheld
      have hfollow : Follows p n := (isChain_append.mp h.chain).2.1.rel
      have hp : p.start < n.start := by
        refine lt_of_le_of_ne hfollow.start_le fun heq ↦ hne p (by simp) ?_
        rw [hfollow.stop, heq]
      have hx : max f p.start < n.start := max_lt hlt hp
      refine hfollow.mode_ne ?_
      rw [hm, ← hheld (max f p.start) (le_max_left f _) (hx.le.trans hn)]
      exact (modeAt_newest h (le_max_right f _) fun b hb ↦ by
        obtain rfl : n = b := by simpa using hb
        exact hx).symm
  · rintro ⟨rfl, hf⟩ x hfx hxt
    exact modeAt_newest h (hf.trans hfx) fun b hb ↦ hxt.trans_lt (hpost b hb)

end Temps.Lib.Timeline
