import Mathlib.Logic.Function.Basic

namespace Temps.Lib.Custody

open Function

variable {δ P ι R : Type*} {holds : P → ι → Prop} {Held : P → ι → R → Prop} {Free : ι → R → Prop}
  {phases : δ → P} {items items' : ι → R}

structure Kept (holds : P → ι → Prop) (Held : P → ι → R → Prop) (Free : ι → R → Prop)
    (phases : δ → P) (items : ι → R) : Prop where
  unique : ∀ d e i, holds (phases d) i → holds (phases e) i → d = e
  held : ∀ d i, holds (phases d) i → Held (phases d) i (items i)
  free : ∀ i, (∀ d, ¬ holds (phases d) i) → Free i (items i)

variable (h : Kept holds Held Free phases items)
include h

theorem Kept.move [DecidableEq δ] {d : δ} {p : P}
    (hnew : ∀ i, holds p i → holds (phases d) i ∨ ∀ e, ¬ holds (phases e) i)
    (hframe : ∀ i, ¬ holds (phases d) i → ¬ holds p i → items' i = items i)
    (hheld : ∀ i, holds p i → Held p i (items' i))
    (hfree : ∀ i, holds (phases d) i → ¬ holds p i → Free i (items' i)) :
    Kept holds Held Free (update phases d p) items' := by
  have hother : ∀ {e i}, e ≠ d → holds (phases e) i → ¬ holds (phases d) i ∧ ¬ holds p i := by
    intro e i hne he
    have hd : ¬ holds (phases d) i := fun hd ↦ hne (h.unique e d i he hd)
    exact ⟨hd, fun hp ↦ (hnew i hp).elim hd fun hnone ↦ hnone e he⟩
  refine ⟨?_, ?_, ?_⟩
  · intro e e' i he he'
    rcases eq_or_ne e d with rfl | hne <;> rcases eq_or_ne e' e with rfl | hne'
    · rfl
    · rw [update_self] at he
      rw [update_of_ne hne'] at he'
      exact absurd he (hother hne' he').2
    · rfl
    · rw [update_of_ne hne] at he
      rcases eq_or_ne e' d with rfl | hne''
      · rw [update_self] at he'
        exact absurd he' (hother hne he).2
      · rw [update_of_ne hne''] at he'
        exact h.unique e e' i he he'
  · intro e i he
    rcases eq_or_ne e d with rfl | hne
    · rw [update_self] at he ⊢
      exact hheld i he
    · rw [update_of_ne hne] at he ⊢
      obtain ⟨hd, hp⟩ := hother hne he
      rw [hframe i hd hp]
      exact h.held e i he
  · intro i hnone
    have hp : ¬ holds p i := by
      have := hnone d
      rwa [update_self] at this
    by_cases hd : holds (phases d) i
    · exact hfree i hd hp
    · rw [hframe i hd hp]
      refine h.free i fun e he ↦ ?_
      rcases eq_or_ne e d with rfl | hne
      · exact hd he
      · exact hnone e (by rwa [update_of_ne hne])

theorem Kept.map
    (hheld : ∀ d i, holds (phases d) i → Held (phases d) i (items i) → Held (phases d) i (items' i))
    (hfree : ∀ i, (∀ d, ¬ holds (phases d) i) → Free i (items i) → Free i (items' i)) :
    Kept holds Held Free phases items' where
  unique := h.unique
  held := fun d i hd ↦ hheld d i hd (h.held d i hd)
  free := fun i hnone ↦ hfree i hnone (h.free i hnone)

theorem Kept.release {p : P} (hp : ∀ i, ¬ holds p i)
    (hheld : ∀ d i, holds (phases d) i → Free i (items' i))
    (hframe : ∀ i, (∀ d, ¬ holds (phases d) i) → items' i = items i) :
    Kept holds Held Free (fun _ : δ ↦ p) items' where
  unique := fun _ _ i hd _ ↦ absurd hd (hp i)
  held := fun _ i hd ↦ absurd hd (hp i)
  free := by
    intro i _
    by_cases hsome : ∃ d, holds (phases d) i
    · obtain ⟨d, hd⟩ := hsome
      exact hheld d i hd
    · have hnone : ∀ d, ¬ holds (phases d) i := not_exists.mp hsome
      rw [hframe i hnone]
      exact h.free i hnone

end Temps.Lib.Custody
