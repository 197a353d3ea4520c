import Mathlib.Logic.Basic

namespace Temps.Lib.Fallible

variable {ε : Type*} {α β : Type} {p : α → Option Bool} {x : Except ε α} {l : List α}

theorem bind_eq_ok {f : α → Except ε β} {b : β} :
    x >>= f = .ok b ↔ ∃ a, x = .ok a ∧ f a = .ok b := by
  cases x with
  | error e =>
    constructor
    · intro h
      cases h
    · intro ⟨a, h, _⟩
      cases h
  | ok a =>
    constructor
    · intro h
      exact ⟨a, rfl, h⟩
    · intro ⟨a', h, hf⟩
      cases h
      exact hf

@[simp] theorem ok_bind (a : α) (f : α → Except ε β) : (Except.ok a >>= f) = f a := rfl

theorem map_eq_ok {f : α → β} {b : β} : x.map f = .ok b ↔ ∃ a, x = .ok a ∧ f a = b := by
  cases x with
  | error e => simp [Except.map]
  | ok a => simp [Except.map]

theorem ok_of_toOption {r : Except ε α} {a : α} (h : r.toOption = some a) : r = .ok a := by
  cases r with
  | error e => cases h
  | ok b => rw [Option.some.inj h]

theorem guard_eq_ok {p : Prop} [Decidable p] {e : ε} {a : α} :
    (if p then .error e else x) = .ok a ↔ ¬ p ∧ x = .ok a := by
  by_cases hp : p
  · rw [if_pos hp]
    exact ⟨nofun, fun h ↦ absurd hp h.1⟩
  · rw [if_neg hp]
    exact ⟨fun h ↦ ⟨hp, h⟩, And.right⟩

theorem allM_eq_some_true : l.allM p = some true ↔ ∀ a ∈ l, p a = some true := by
  induction l with
  | nil => exact ⟨nofun, fun _ ↦ rfl⟩
  | cons a l ih =>
    rw [List.forall_mem_cons, ← ih, List.allM]
    cases hp : p a with
    | none => simp
    | some b => cases b <;> simp

theorem allM_isSome (h : ∀ a ∈ l, (p a).isSome) : (l.allM p).isSome := by
  induction l with
  | nil => rfl
  | cons a l ih =>
    obtain ⟨ha, hl⟩ := List.forall_mem_cons.mp h
    obtain ⟨b, hb⟩ := Option.isSome_iff_exists.mp ha
    rw [List.allM, hb]
    cases b with
    | false => rfl
    | true => exact ih hl

end Temps.Lib.Fallible
