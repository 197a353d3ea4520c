import Mathlib.Data.List.Infix
import Mathlib.Logic.Relation

namespace Temps.Lib.Machine

open List

variable {σ α : Type*} {step : σ → α → Option σ} {admits : σ → α → Prop} {s t u : σ} {acts : List α}

/-- A step of the machine that is admitted in the state in which it is taken. -/
def Next (step : σ → α → Option σ) (admits : σ → α → Prop) (s t : σ) : Prop :=
  ∃ a, admits s a ∧ step s a = some t

def Reaches (step : σ → α → Option σ) (admits : σ → α → Prop) : σ → σ → Prop :=
  Relation.ReflTransGen (Next step admits)

def anything : σ → α → Prop := fun _ _ ↦ True

theorem Reaches.refl : Reaches step admits s s := Relation.ReflTransGen.refl

section

variable (h : Reaches step admits s t)
include h

theorem Reaches.trans (h' : Reaches step admits t u) :
    Reaches step admits s u := Relation.ReflTransGen.trans h h'

theorem Reaches.snoc {a : α} (ha : admits t a) (ht : step t a = some u) : Reaches step admits s u :=
  Relation.ReflTransGen.tail h ⟨a, ha, ht⟩

theorem Reaches.invariant {I : σ → Prop}
    (hstep : ∀ {s t a}, I s → admits s a → step s a = some t → I t) (hs : I s) : I t := by
  induction h with
  | refl => exact hs
  | tail _ hnext ih =>
    obtain ⟨a, ha, ht⟩ := hnext
    exact hstep ih ha ht

end

def exec (step : σ → α → Option σ) (passes : σ → α → Bool) : σ → List α → Option σ
  | s, [] => some s
  | s, a :: rest => if passes s a then (step s a).bind (exec step passes · rest) else none

theorem reaches_exec {passes : σ → α → Bool} (hpass : ∀ s a, passes s a → admits s a)
    (h : exec step passes s acts = some t) : Reaches step admits s t := by
  induction acts generalizing s with
  | nil =>
    obtain rfl : s = t := by simpa [exec] using h
    exact .refl
  | cons a rest ih =>
    rw [exec] at h
    split at h
    case isTrue hp =>
      obtain ⟨u, hu, hrest⟩ := Option.bind_eq_some_iff.mp h
      exact (Reaches.refl.snoc (hpass s a hp) hu).trans (ih hrest)
    case isFalse => exact nomatch h

theorem Reaches.run (h : Reaches step admits s t) (acts : List α) (ha : ∀ a ∈ acts, ∀ s, admits s a)
    (hu : exec step (fun _ _ ↦ true) t acts = some u) : Reaches step admits s u := by
  induction acts generalizing t with
  | nil => exact Option.some.inj hu ▸ h
  | cons a rest ih =>
    obtain ⟨hfirst, hrest⟩ := forall_mem_cons.mp ha
    obtain ⟨v, hv, hu⟩ := Option.bind_eq_some_iff.mp hu
    exact ih (h.snoc (hfirst t) hv) hrest hu

variable {next : σ → α → σ} {I P : σ → Prop} {C : σ → α → Prop}

theorem foldl_invariant (hstep : ∀ s a, I s → I (next s a)) (hs : I s) (acts : List α) :
    I (acts.foldl next s) := acts.foldlRecOn next hs fun s hs a _ ↦ hstep s a hs

/-- Each step of a run meets a condition in the state in which it is taken. -/
def Along (next : σ → α → σ) (C : σ → α → Prop) : σ → List α → Prop
  | _, [] => True
  | s, a :: acts => C s a ∧ Along next C (next s a) acts

instance decidableAlong [∀ s a, Decidable (C s a)] : ∀ s acts, Decidable (Along next C s acts)
  | _, [] => .isTrue trivial
  | s, a :: acts =>
    have := decidableAlong (next s a) acts
    inferInstanceAs (Decidable (C s a ∧ _))

theorem along_append {acts' : List α} : Along next C s (acts ++ acts') ↔
    Along next C s acts ∧ Along next C (acts.foldl next s) acts' := by
  induction acts generalizing s with
  | nil => exact (iff_of_eq (true_and _)).symm
  | cons a acts ih =>
    rw [cons_append, Along, Along, ih, and_assoc]
    rfl

theorem along_invariant (hstep : ∀ s a, I s → C s a → I (next s a)) (hs : I s)
    (h : Along next C s acts) : I (acts.foldl next s) := by
  induction acts generalizing s with
  | nil => exact hs
  | cons a acts ih => exact ih (hstep s a hs h.1) h.2

theorem along_iff (hI : ∀ s a, I s → I (next s a)) (hstep : ∀ s a, I s → P s → (P (next s a) ↔ C s a))
    (hIs : I s) (hPs : P s) (acts : List α) :
    (∀ front, front <+: acts → P (front.foldl next s)) ↔
      ∀ front a, front ++ [a] <+: acts → C (front.foldl next s) a := by
  have hinv (front : List α) : I (front.foldl next s) := foldl_invariant hI hIs front
  constructor
  · intro hall front a hfront
    have hP := hall front ((prefix_append front [a]).trans hfront)
    have hP' := hall (front ++ [a]) hfront
    rw [foldl_append] at hP'
    exact (hstep _ a (hinv front) hP).mp hP'
  · intro hall front hfront
    induction front using List.reverseRecOn with
    | nil => exact hPs
    | append_singleton front a ih =>
      have hP := ih ((prefix_append front [a]).trans hfront)
      rw [foldl_append]
      exact (hstep _ a (hinv front) hP).mpr (hall front a hfront)

end Temps.Lib.Machine
