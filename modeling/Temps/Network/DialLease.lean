import Mathlib.Algebra.Group.Nat.Defs
import Mathlib.Data.Int.Notation
import Mathlib.Logic.Function.Basic
import Temps.Lib.Machine

namespace Temps.Network.Pairing

open Lib.Machine Function

inductive Status
  | waiting | keyReceived | completed | expired | cancelled
deriving DecidableEq

structure NodePairing where
  status : Status
  dialingUntil : Option ℤ
deriving DecidableEq

/-- Nanoseconds; a lease that does not fit the clock's durations counts as half a minute. -/
def leaseSpan (lease : ℕ) : ℕ := if lease ≤ (2 ^ 63 - 1) * 10 ^ 6 then lease else 30 * 10 ^ 9

namespace NodePairing

/-- One conditional update at the time `now` and whether it took the row. There is no update at all
if the end of the lease lies after `latest`, the last instant of the clock. -/
def claim (latest : ℤ) (row : NodePairing) (now : ℤ) (lease : ℕ) : NodePairing × Bool :=
  if now + leaseSpan lease ≤ latest ∧ row.status = .waiting ∧ row.dialingUntil.all (· < now) then
    ({ row with dialingUntil := some (now + leaseSpan lease) }, true)
  else (row, false)

def release (row : NodePairing) : NodePairing := { row with dialingUntil := none }

end NodePairing

/-- A pairing and the dialers that were told they have it, with the ends of their leases. -/
structure Dialers where
  clock : ℤ
  row : NodePairing
  leases : ℕ → Option ℤ

inductive Act
  | tick (nanos : ℕ)
  | settle (status : Status)
  | claim (dialer : ℕ) (now : ℤ) (lease : ℕ)
  | release (dialer : ℕ)

namespace Dialers

variable {latest : ℤ} {s t : Dialers} {a : Act}

/-- A claim reaches the row at any time after it has looked at the clock, a release at any time
after the claim of its dialer. -/
def step (latest : ℤ) (s : Dialers) : Act → Option Dialers
  | .tick nanos => some { s with clock := s.clock + nanos }
  | .settle status => some { s with row := { s.row with status := status } }
  | .claim dialer now lease =>
    if now ≤ s.clock then
      match s.row.claim latest now lease with
      | (row, true) => some { s with
          row := row
          leases := Function.update s.leases dialer row.dialingUntil }
      | (_, false) => some s
    else none
  | .release dialer =>
    if (s.leases dialer).isSome then
      some { s with row := s.row.release, leases := Function.update s.leases dialer none }
    else none

/-- Nobody gives the pairing up while another dialer's lease runs. -/
def Orderly (s : Dialers) : Act → Prop
  | .release dialer => ∀ other ≠ dialer, ∀ stop ∈ s.leases other, stop < s.clock
  | _ => True

def Kept (s : Dialers) : Prop :=
  ∀ dialer, ∀ stop ∈ s.leases dialer, s.clock ≤ stop → s.row.dialingUntil = some stop

theorem Kept.claim_eq (h : Kept s) {dialer : ℕ} {stop now : ℤ} (hlease : stop ∈ s.leases dialer)
    (hlive : s.clock ≤ stop) (hnow : now ≤ s.clock) (latest : ℤ) (lease : ℕ) :
    s.row.claim latest now lease = (s.row, false) := by
  refine if_neg fun hfree ↦ ?_
  obtain ⟨-, -, hpast⟩ := hfree
  rw [h dialer stop hlease hlive, Option.all_some, decide_eq_true_eq] at hpast
  omega

theorem Kept.step (h : Kept s) (ha : Orderly s a) (hstep : s.step latest a = some t) : Kept t := by
  revert ha hstep
  fun_cases Dialers.step latest s a <;> intro ha hstep <;> cases hstep
  case case1.refl nanos =>
    intro dialer stop hstop hlive
    have hlive : s.clock + nanos ≤ stop := hlive
    exact h dialer stop hstop (by omega)
  case case2.refl => exact h
  case case3.refl dialer now lease hnow row hclaim =>
    intro other stop hstop hlive
    dsimp only at hstop
    by_cases he : other = dialer
    · rw [he, update_self] at hstop
      exact hstop
    · rw [update_of_ne he] at hstop
      rw [h.claim_eq hstop hlive hnow] at hclaim
      cases hclaim
  case case4.refl => exact h
  case case6.refl dialer _ =>
    intro other stop hstop hlive
    dsimp only at hstop hlive
    by_cases he : other = dialer
    · rw [he, update_self] at hstop
      cases hstop
    · rw [update_of_ne he] at hstop
      have := ha other he stop hstop
      omega

end Dialers

/-- While a dialer's lease runs, no claim succeeds: in every run in which a pairing is never given
up by one dialer during the lease of another. -/
theorem lease_exclusive (latest clock : ℤ) (row : NodePairing) {s : Dialers}
    (hrun : Reaches (Dialers.step latest) Dialers.Orderly ⟨clock, row, fun _ ↦ none⟩ s)
    {dialer : ℕ} {stop : ℤ} (hlease : s.leases dialer = some stop) (hlive : s.clock ≤ stop) :
    ∀ now ≤ s.clock, ∀ lease, s.row.claim latest now lease = (s.row, false) := by
  have hkept : Dialers.Kept s := hrun.invariant Dialers.Kept.step nofun
  exact fun now hnow lease ↦ hkept.claim_eq hlease hlive hnow latest lease

def undialed : Dialers := ⟨0, ⟨.waiting, none⟩, fun _ ↦ none⟩

def unreleased (_ : Dialers) : Act → Bool
  | .release _ => false
  | _ => true

theorem orderly_of_unreleased (s : Dialers) (a : Act) (h : unreleased s a) : s.Orderly a := by
  cases a with
  | release => cases h
  | _ => trivial

theorem first_lease_exclusive :
    ((exec (Dialers.step 100) unreleased undialed [.claim 0 0 10, .tick 9]).any fun s ↦
      s.clock = 9 && s.leases 0 = some 10) = true ∧
    ∀ s ∈ exec (Dialers.step 100) unreleased undialed [.claim 0 0 10, .tick 9],
      s.leases 0 = some 10 → s.clock ≤ 10 →
        ∀ now ≤ s.clock, ∀ lease, s.row.claim 100 now lease = (s.row, false) :=
  ⟨by decide +kernel, fun _ hs ↦ lease_exclusive 100 0 _ (reaches_exec orderly_of_unreleased hs)⟩

/-- Dialer 0 gives the pairing up after its lease has run out, while dialer 1 has it; dialer 2 then
gets it as well. -/
theorem late_release_shares :
    ((exec (Dialers.step 100) (fun _ _ ↦ true) undialed [.claim 0 0 10, .tick 11, .claim 1 11 10,
      .release 0, .tick 2, .claim 2 13 10]).any fun s ↦
        s.clock = 13 && s.leases 1 = some 21 && s.leases 2 = some 23) = true := by
  decide +kernel

end Temps.Network.Pairing
