import Mathlib.Data.List.Perm.Basic

namespace Temps.Lib.LastWriter

open List

variable {V : Type*}

/-- The content of a register after a list of snapshots has been written over it in order.
An absent snapshot leaves the register as it is. -/
def overwrite (a : Option V) (gs : List (Option V)) : Option V :=
  gs.foldl (fun acc g ↦ g.or acc) a

@[simp] theorem overwrite_nil (a : Option V) : overwrite a [] = a := rfl

@[simp] theorem overwrite_cons (a g : Option V) (gs : List (Option V)) :
    overwrite a (g :: gs) = overwrite (g.or a) gs := rfl

theorem overwrite_append (a : Option V) (gs hs : List (Option V)) :
    overwrite a (gs ++ hs) = overwrite (overwrite a gs) hs := by
  simp [overwrite]

variable {gs : List (Option V)} {a w : Option V}

theorem overwrite_stale (h : ∀ g ∈ gs, g = a) : overwrite a gs = a := by
  induction gs with
  | nil => rfl
  | cons g gs ih =>
    obtain rfl : g = a := h g (by simp)
    rw [overwrite_cons, Option.or_self]
    exact ih fun x hx ↦ h x (by simp [hx])

theorem overwrite_absent (h : ∀ g ∈ gs, g = none) : overwrite w gs = w := by
  induction gs with
  | nil => rfl
  | cons g gs ih =>
    rw [h g (by simp)]
    exact ih fun x hx ↦ h x (by simp [hx])

theorem overwrite_present {v : V} (hne : gs ≠ []) (h : ∀ g ∈ gs, g = some v) :
    overwrite w gs = some v := by
  cases gs with
  | nil => exact absurd rfl hne
  | cons g gs =>
    rw [h g (by simp)]
    exact overwrite_stale fun x hx ↦ h x (by simp [hx])

theorem overwrite_isSome (a : Option V) (gs : List (Option V)) :
    (overwrite a gs).isSome = (a.isSome || gs.any Option.isSome) := by
  induction gs generalizing a with
  | nil => simp
  | cons g gs ih =>
    rw [overwrite_cons, ih, Option.isSome_or, any_cons, Bool.or_comm g.isSome, Bool.or_assoc]

/-- `w` is the only snapshot of the list that differs from the register's old content. -/
def Sole (a : Option V) (gs : List (Option V)) (w : Option V) : Prop :=
  ∃ pre post, gs = pre ++ w :: post ∧ w ≠ a ∧ ∀ g ∈ pre ++ post, g = a

/-- No two snapshots of the list both differ from the register's old content. -/
def AtMostOne (a : Option V) (gs : List (Option V)) : Prop :=
  gs.Pairwise fun g h ↦ g = a ∨ h = a

theorem sole_survives_iff {pre post : List (Option V)} (hw : w ≠ a) (hpre : ∀ g ∈ pre, g = a)
    (hpost : ∀ g ∈ post, g = a) :
    overwrite a (pre ++ w :: post) = w ↔ a = none ∨ (post = [] ∧ w ≠ none) := by
  rw [overwrite_append, overwrite_stale hpre]
  cases a with
  | none => simp [overwrite_absent hpost]
  | some v =>
    cases post with
    | nil => cases w <;> simp
    | cons g gs => simpa [overwrite_present (by simp) hpost] using hw.symm

theorem sole_perm {hs : List (Option V)} (hp : gs.Perm hs) (h : Sole a gs w) : Sole a hs w := by
  obtain ⟨pre, post, rfl, hw, hrest⟩ := h
  have hm : w ∈ hs := hp.subset (by simp)
  obtain ⟨pre', post', rfl⟩ := append_of_mem hm
  refine ⟨pre', post', rfl, hw, fun g hg ↦ hrest g ?_⟩
  have hq : (pre ++ post).Perm (pre' ++ post') :=
    List.Perm.cons_inv ((perm_middle.symm.trans hp).trans perm_middle)
  exact hq.symm.subset hg

theorem stale_or_sole (h : AtMostOne a gs) : (∀ g ∈ gs, g = a) ∨ ∃ w, Sole a gs w := by
  induction gs with
  | nil => simp
  | cons g gs ih =>
    obtain ⟨hg, ht⟩ := pairwise_cons.mp h
    by_cases he : g = a
    · rcases ih ht with hs | ⟨w, pre, post, rfl, hw, hrest⟩
      · exact Or.inl (by simpa [he] using hs)
      · exact Or.inr ⟨w, g :: pre, post, rfl, hw, by simpa [he] using hrest⟩
    · exact Or.inr ⟨g, [], gs, rfl, he, fun x hx ↦ (hg x hx).resolve_left he⟩

/-- A lone update is harmless to reorder when the slot was empty, when the update is a removal,
or when there is nothing to reorder. -/
def Safe (a : Option V) (gs : List (Option V)) : Prop :=
  ∀ w, Sole a gs w → a = none ∨ w = none ∨ gs.length = 1

theorem overwrite_of_safe (h : Sole a gs w) (hs : a = none ∨ w = none ∨ gs.length = 1) :
    overwrite a gs = w.or a := by
  obtain ⟨pre, post, rfl, hw, hrest⟩ := h
  have hpre : ∀ g ∈ pre, g = a := fun g hg ↦ hrest g (by simp [hg])
  have hpost : ∀ g ∈ post, g = a := fun g hg ↦ hrest g (by simp [hg])
  rw [overwrite_append, overwrite_stale hpre]
  rcases hs with rfl | rfl | hl
  · exact overwrite_absent hpost
  · simpa using overwrite_stale hpost
  · obtain rfl : post = [] := length_eq_zero_iff.mp (by simp at hl; omega)
    rfl

theorem overwrite_perm {σ τ : List (Option V)} (h : AtMostOne a gs) (hsafe : Safe a gs)
    (hσ : σ.Perm gs) (hτ : τ.Perm gs) : overwrite a σ = overwrite a τ := by
  rcases stale_or_sole h with hs | ⟨w, hw⟩
  · rw [overwrite_stale fun g hg ↦ hs g (hσ.subset hg),
      overwrite_stale fun g hg ↦ hs g (hτ.subset hg)]
  · rw [overwrite_of_safe (sole_perm hσ.symm hw) (by simpa [hσ.length_eq] using hsafe w hw),
      overwrite_of_safe (sole_perm hτ.symm hw) (by simpa [hτ.length_eq] using hsafe w hw)]

end Temps.Lib.LastWriter
