import Mathlib.Data.List.Basic

namespace Temps.Lib.Broadcast

variable {α : Type*} {depth next : ℕ} {log : List α} {a : α}

/-- What a receiver gets: nothing yet, a message, or the news that it is to go on further ahead. -/
inductive Received (α : Type*) where
  | pending
  | lagged (next : ℕ)
  | message (a : α)

def recv (depth : ℕ) (log : List α) (next : ℕ) : Received α :=
  if next + depth < log.length then .lagged (log.length - depth)
  else
    match log[next]? with
    | none => .pending
    | some a => .message a

theorem getElem?_of_recv (h : recv depth log next = .message a) : log[next]? = some a := by
  revert h
  fun_cases recv depth log next <;> rintro ⟨⟩
  assumption

theorem le_of_recv_lagged {next' : ℕ} (h : recv depth log next = .lagged next') :
    next' ≤ log.length := by
  rw [recv] at h
  split at h
  case isTrue =>
    cases h
    exact Nat.sub_le _ _
  case isFalse => split at h <;> cases h

end Temps.Lib.Broadcast
