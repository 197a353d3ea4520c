import Mathlib.Order.Nat
import Temps.Lib.Machine
import Temps.Routes.Moves

namespace Temps.Routes

open Lib.Machine List Option

namespace System

variable {environment deployment : ℕ} {s t : System} {a : Act} {claim old : Claim}

/-- The ACK was stored, or its handler found the generation not above that of its process, which
started as the `epoch`-th. -/
def Accepted (s : System) (epoch generation : ℕ) : Prop :=
  (epoch, generation) ∈ s.ackLog ∨
    ∃ ack ∈ s.acks, ack.accepted = some epoch ∧ ack.generation = generation

/-- What the numbers of the row, of the counter and of the claims have to do with one another. -/
structure Numbered (s : System) : Prop where
  counter_le : s.counter ≤ s.row
  counter_committed : s.counter = 0 ∨ s.counter ∈ s.committed
  nodup : s.committed.Nodup
  committed_le : ∀ value ∈ s.committed, value ≤ s.row
  claims_committed : ∀ claim ∈ s.claims, ∀ value, claim.phase = .committed value →
    value ∈ s.committed
  accepted_le : ∀ epoch generation, s.Accepted epoch generation → generation ≤ s.row
  claims_gt : ∀ epoch generation, s.Accepted epoch generation → epoch < s.epoch →
    ∀ claim ∈ s.claims, claim.owner ≠ none → ∀ value, claim.phase = .committed value →
      generation < value
  counter_gt : ∀ epoch generation, s.Accepted epoch generation → epoch < s.epoch →
    s.counter = 0 ∨ generation < s.counter

theorem row_lt_claimValue (row previous acked : ℕ) : row < claimValue row previous acked := by
  unfold claimValue
  omega

theorem forall_withClaim {P : Claim → Prop} {new : Claim} (hnew : P new)
    (hold : ∀ claim ∈ s.claims, P claim) : ∀ claim ∈ (s.withClaim old new).claims, P claim :=
  forall_mem_cons.mpr ⟨hnew, fun claim hclaim ↦ hold claim (mem_of_mem_erase hclaim)⟩

section

variable (h : Numbered s)
include h

namespace Numbered

theorem withClaim (hmem : old ∈ s.claims) (new : Claim)
    (hphase : ∀ value, new.phase = .committed value → old.phase = .committed value)
    (howner : new.owner ≠ none → old.owner ≠ none) : Numbered (s.withClaim old new) :=
  { h with
    claims_committed := forall_withClaim (fun value hvalue ↦
      h.claims_committed old hmem value (hphase value hvalue)) h.claims_committed
    claims_gt := fun epoch generation haccepted hlt ↦
      have hall := h.claims_gt epoch generation haccepted hlt
      forall_withClaim (fun hne value hvalue ↦
        hall old hmem (howner hne) value (hphase value hvalue)) hall }

theorem startClaim (owner : Owner) :
    Numbered { s with claims := ⟨some owner, s.counter, .started⟩ :: s.claims } :=
  { h with
    claims_committed := forall_mem_cons.mpr ⟨nofun, h.claims_committed⟩
    claims_gt := fun epoch generation haccepted hlt ↦
      forall_mem_cons.mpr ⟨nofun, h.claims_gt epoch generation haccepted hlt⟩ }

theorem dropClaim (claim : Claim) : Numbered (s.dropClaim claim) :=
  { h with
    claims_committed := fun c hc ↦ h.claims_committed c (mem_of_mem_erase hc)
    claims_gt := fun epoch generation haccepted hlt c hc ↦
      h.claims_gt epoch generation haccepted hlt c (mem_of_mem_erase hc) }

variable {value : ℕ}

theorem commit (hvalue : s.row < value) :
    Numbered (s.commitClaim claim value) where
  counter_le := h.counter_le.trans hvalue.le
  counter_committed := h.counter_committed.imp_right (mem_cons_of_mem _)
  nodup := nodup_cons.mpr
    ⟨fun hold ↦ absurd (h.committed_le value hold) (Nat.not_le.mpr hvalue), h.nodup⟩
  committed_le := forall_mem_cons.mpr
    ⟨Nat.le_refl value, fun v hv ↦ (h.committed_le v hv).trans hvalue.le⟩
  claims_committed := by
    refine forall_withClaim ?_ fun c hc v hv ↦ mem_cons_of_mem _ (h.claims_committed c hc v hv)
    rintro v ⟨⟩
    exact mem_cons_self
  accepted_le epoch generation haccepted :=
    (h.accepted_le epoch generation haccepted).trans hvalue.le
  claims_gt := by
    intro epoch generation haccepted hlt
    refine forall_withClaim ?_ (h.claims_gt epoch generation haccepted hlt)
    rintro - v ⟨⟩
    exact (h.accepted_le epoch generation haccepted).trans_lt hvalue
  counter_gt := h.counter_gt

theorem adopt (hvalue : value ∈ s.committed)
    (hgt : ∀ epoch generation, s.Accepted epoch generation → epoch < s.epoch → generation < value) :
    Numbered (s.adopt value) :=
  { h with
    counter_le := Nat.max_le.mpr ⟨h.counter_le, h.committed_le value hvalue⟩
    counter_committed := by
      rcases Nat.le_total s.counter value with hle | hle
      · have hcounter : (s.adopt value).counter = value := Nat.max_eq_right hle
        rw [hcounter]
        exact .inr hvalue
      · have hcounter : (s.adopt value).counter = s.counter := Nat.max_eq_left hle
        rw [hcounter]
        exact h.counter_committed
    counter_gt := fun epoch generation haccepted hlt ↦
      .inr ((hgt epoch generation haccepted hlt).trans_le (Nat.le_max_right ..)) }

theorem succeed (owner : Owner) : Numbered (s.succeed owner) := by
  cases owner with
  | reload =>
    simp only [System.succeed]
    split <;> exact { h with }
  | retry => exact { h with }

theorem giveUp (owner : Owner) : Numbered (s.giveUp owner) := by
  cases owner <;> exact { h with }

theorem claimStep (hmem : claim ∈ s.claims) (hmove : ClaimMove s claim t) : Numbered t := by
  cases hmove with
  | read => exact h.withClaim hmem _ nofun id
  | commit => exact h.commit (row_lt_claimValue ..)
  | adopt owner value howner hphase =>
    refine ((h.dropClaim claim).adopt (h.claims_committed claim hmem value hphase) ?_).succeed _
    intro epoch generation haccepted hlt
    exact h.claims_gt epoch generation haccepted hlt claim hmem (by simp [howner]) value hphase
  | fail owner =>
    exact (h.withClaim hmem { claim with owner := none } (fun _ ↦ id)
      fun hne ↦ absurd rfl hne).giveUp owner

theorem loadStep (hmove : LoadMove s t) : Numbered t := by
  cases hmove with
  | claim => exact { h.startClaim .reload with }
  | retry => exact { h.startClaim .retry with }
  | begin | fail | publish | send => exact { h with }

theorem of_accepted {acks : List Ack} {stored ackLog : List (ℕ × ℕ)}
    (hnew : ∀ epoch generation,
      ({ s with acks := acks, stored := stored, ackLog := ackLog } : System).Accepted epoch
        generation → s.Accepted epoch generation ∨ epoch = s.epoch ∧ generation ≤ s.counter) :
    Numbered { s with acks := acks, stored := stored, ackLog := ackLog } :=
  { h with
    accepted_le := fun epoch generation haccepted ↦ by
      rcases hnew epoch generation haccepted with hold | ⟨-, hle⟩
      · exact h.accepted_le epoch generation hold
      · exact hle.trans h.counter_le
    claims_gt := fun epoch generation haccepted hlt ↦ by
      rcases hnew epoch generation haccepted with hold | ⟨rfl, -⟩
      · exact h.claims_gt epoch generation hold hlt
      · exact absurd hlt (Nat.lt_irrefl _)
    counter_gt := fun epoch generation haccepted hlt ↦ by
      rcases hnew epoch generation haccepted with hold | ⟨rfl, -⟩
      · exact h.counter_gt epoch generation hold hlt
      · exact absurd hlt (Nat.lt_irrefl _) }

theorem ackStep {ack : Ack} (hmem : ack ∈ s.acks) (hmove : AckMove s ack t) : Numbered t := by
  have herase (epoch generation : ℕ)
      (haccepted : ({ s with acks := s.acks.erase ack } : System).Accepted epoch generation) :
      s.Accepted epoch generation :=
    haccepted.imp_right fun ⟨k, hk, hrest⟩ ↦ ⟨k, mem_of_mem_erase hk, hrest⟩
  cases hmove with
  | accept hle =>
    refine h.of_accepted fun epoch generation haccepted ↦ ?_
    rcases haccepted with hlog | ⟨k, hk, hepoch, hgeneration⟩
    · exact .inl (.inl hlog)
    · rcases mem_cons.mp hk with rfl | hold
      · exact .inr ⟨(some.inj hepoch).symm, hgeneration ▸ hle⟩
      · exact .inl (.inr ⟨k, mem_of_mem_erase hold, hepoch, hgeneration⟩)
  | store epoch' hepoch' =>
    refine h.of_accepted fun epoch generation haccepted ↦ .inl ?_
    rcases haccepted with hlog | hacks
    · rcases mem_cons.mp hlog with hnew | hold
      · obtain ⟨rfl, rfl⟩ := Prod.mk.inj hnew
        exact .inr ⟨ack, hmem, hepoch', rfl⟩
      · exact .inl hold
    · exact herase epoch generation (.inr hacks)
  | drop => exact h.of_accepted fun epoch generation hacc ↦ .inl (herase _ _ hacc)

theorem workerStep {node : ℕ} {act : WorkerAct} (hmove : WorkerMove s node act t) : Numbered t := by
  obtain ⟨worker, acks, rfl, hacks⟩ := hmove.eq
  have hkept : Numbered { s with acks := acks } := by
    refine h.of_accepted fun epoch generation haccepted ↦ .inl ?_
    refine haccepted.imp_right fun ⟨k, hk, hepoch, hgeneration⟩ ↦ ?_
    rcases hacks with rfl | rfl
    · exact ⟨k, hk, hepoch, hgeneration⟩
    · rcases mem_cons.mp hk with rfl | hold
      · exact nomatch hepoch
      · exact ⟨k, hold, hepoch, hgeneration⟩
  exact { hkept with }

theorem restarted : Numbered s.restarted where
  __ := h
  counter_le := Nat.zero_le _
  counter_committed := .inl rfl
  claims_committed := by
    intro claim hclaim value hvalue
    obtain ⟨old, hold, rfl⟩ := mem_map.mp hclaim
    exact h.claims_committed old hold value hvalue
  claims_gt := by
    intro epoch generation _ _ claim hclaim hne
    obtain ⟨old, -, rfl⟩ := mem_map.mp hclaim
    exact absurd rfl hne
  counter_gt := fun _ _ _ _ ↦ .inl rfl

theorem step (hstep : s.step environment deployment a = some t) : Numbered t := by
  cases step_move hstep with
  | aside => exact { h with }
  | load hmove => exact h.loadStep hmove
  | claim hmem hmove => exact h.claimStep hmem hmove
  | worker hmove => exact h.workerStep hmove
  | ack hmem hmove => exact h.ackStep hmem hmove
  | barrier hmove =>
    obtain ⟨_, _, _, _, -, rfl⟩ := hmove.eq
    exact { h with }
  | restart => exact h.restarted

end Numbered

end

theorem numbered_start (origin : Origin) (hrow : ∀ entry ∈ origin.stored, entry.2 ≤ origin.row) :
    Numbered origin.system where
  counter_le := Nat.zero_le _
  counter_committed := .inl rfl
  nodup := nodup_nil
  committed_le := nofun
  claims_committed := nofun
  accepted_le := by
    intro epoch generation haccepted
    rcases haccepted with hlog | ⟨_, hack, -⟩
    · obtain ⟨entry, hentry, heq⟩ := mem_map.mp hlog
      obtain ⟨-, rfl⟩ := Prod.mk.inj heq
      exact hrow entry hentry
    · exact absurd hack not_mem_nil
  claims_gt := fun _ _ _ _ ↦ nofun
  counter_gt := fun _ _ _ _ ↦ .inl rfl

@[simp] theorem succeed_counter (owner : Owner) : (s.succeed owner).counter = s.counter := by
  cases owner with
  | reload =>
    simp only [succeed]
    split <;> rfl
  | retry => rfl

@[simp] theorem giveUp_counter (owner : Owner) : (s.giveUp owner).counter = s.counter := by
  cases owner <;> rfl

theorem ClaimMove.counter_le (hmove : ClaimMove s claim t) : s.counter ≤ t.counter := by
  cases hmove with
  | adopt owner value =>
    rw [succeed_counter]
    exact Nat.le_max_left ..
  | fail owner =>
    rw [giveUp_counter]
    exact Nat.le_refl _
  | read | commit => exact Nat.le_refl _

theorem LoadMove.counter_eq (hmove : LoadMove s t) : t.counter = s.counter := by
  cases hmove <;> rfl

theorem step_counter (hstep : s.step environment deployment a = some t) (ha : a ≠ .restart) :
    s.counter ≤ t.counter := by
  cases step_move hstep with
  | aside => exact Nat.le_refl _
  | load hmove => exact hmove.counter_eq.ge
  | claim _ hmove => exact hmove.counter_le
  | worker hmove =>
    obtain ⟨_, _, rfl, -⟩ := hmove.eq
    exact Nat.le_refl _
  | ack _ hmove =>
    obtain ⟨_, _, _, rfl⟩ := hmove.eq
    exact Nat.le_refl _
  | barrier hmove =>
    obtain ⟨_, _, _, _, -, rfl⟩ := hmove.eq
    exact Nat.le_refl _
  | restart => exact absurd rfl ha

/-- In any run that starts with no stored ACK above the row: a published generation was committed,
no value was committed twice, the published generation does not go back within a process, it is
above every ACK that an earlier process accepted and that is stored, and a local process leaves the
row alone. -/
theorem generations_claimed_once (origin : Origin)
    (hrow : ∀ entry ∈ origin.stored, entry.2 ≤ origin.row)
    (h : Reaches (step environment deployment) anything origin.system s) :
    (s.counter = 0 ∨ s.counter ∈ s.committed) ∧ s.committed.Nodup ∧
      (∀ a t, s.step environment deployment a = some t → a ≠ .restart → s.counter ≤ t.counter) ∧
      (∀ epoch generation, (epoch, generation) ∈ s.ackLog → epoch < s.epoch →
        s.counter = 0 ∨ generation < s.counter) ∧
      ∀ process t, s.step environment deployment (.localAdvance process) = some t →
        t.row = s.row := by
  have hnumbered : Numbered s :=
    h.invariant (fun hs _ hstep ↦ hs.step hstep) (numbered_start origin hrow)
  refine ⟨hnumbered.counter_committed, hnumbered.nodup, fun a t ↦ step_counter, ?_, ?_⟩
  · intro epoch generation hlog
    exact hnumbered.counter_gt epoch generation (.inl hlog)
  · intro process t hstep
    cases hstep
    rfl

/-- A load, an ACK of its generation, a restart, and a load whose first claim commits without the
process learning it. -/
def claimRun : List Act :=
  reloadActs none 0 5 6 ++ pollActs 6 5 ++
    [.restart, .load (.begin none), .load (.publish false), .load .claim,
     .claim ⟨some .reload, 0, .started⟩ .read, .claim ⟨some .reload, 0, .read 6⟩ .commit,
     .claim ⟨some .reload, 0, .committed 7⟩ .fail, .load .retry,
     .claim ⟨some .retry, 0, .started⟩ .read, .claim ⟨some .retry, 0, .read 6⟩ .commit,
     .claim ⟨some .retry, 0, .committed 8⟩ .adopt]

theorem generations_claimed_once_run :
    ((exec (step 3 2) (fun _ _ ↦ true) sampleStart.system claimRun).any fun s ↦
      s.counter == 8 && s.ackLog.contains (1, 6) && s.epoch == 2) = true ∧
    ∀ s ∈ exec (step 3 2) (fun _ _ ↦ true) sampleStart.system claimRun,
      (1, 6) ∈ s.ackLog → 1 < s.epoch → s.counter = 0 ∨ 6 < s.counter :=
  ⟨by decide +kernel, fun _ hs ↦ (generations_claimed_once sampleStart.toOrigin
    sampleStart.stored_le (reaches_exec (fun _ _ _ ↦ trivial) hs)).2.2.2.1 1 6⟩

/-- A row that was set back to 100 after the worker had acknowledged 101. -/
def resetOrigin : Origin where
  version := 10
  currentDeployment := 1
  row := 100
  stored := [(1, 101)]
  active := [1]
  stores := fun _ ↦ ⟨101, 5, 9, false⟩
  disks := fun _ ↦ some ⟨101, 5, 9, false⟩

/-- The worker polls before the first load, and its ACK of the empty snapshot takes the place of the
stored one. -/
def pollBeforeLoad : List Act :=
  [.worker 1 .tick, .ack ⟨1, 101, none⟩ .judge, .worker 1 (.acked true), .worker 1 .generation,
   .worker 1 .build, .worker 1 (.deliver true), .ack ⟨1, 0, none⟩ .judge,
   .ack ⟨1, 0, some 1⟩ .store, .worker 1 (.acked true)] ++ reloadActs none 0 0 101

theorem acknowledged_generation_reissued :
    ((exec (step 3 2) (fun _ _ ↦ true) resetOrigin.system pollBeforeLoad).any fun s ↦
      s.ackLog.contains (0, 101) && s.epoch == 1 && s.counter == 101) = true := by
  decide +kernel

end System

end Temps.Routes
