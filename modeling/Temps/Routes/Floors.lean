import Temps.Routes.Generations

namespace Temps.Routes

open Lib.Machine List Function

def Reload.claims : Reload → ℕ
  | .claiming _ => 1
  | _ => 0

def Claim.numbers (claim : Claim) : List ℕ :=
  match claim.phase with
  | .started => [claim.previous]
  | .read acked => [claim.previous, acked]
  | .committed value => [claim.previous, value]

def Claim.ofReload (claim : Claim) : Bool := claim.owner == some .reload

namespace System

variable {environment deployment : ℕ} {s t : System} {a : Act}

/-- The claims follow the row one by one, and a value that is committed stands for what the table
has read by then. -/
structure Floored (s : System) : Prop where
  counter_le : s.counter ≤ s.row
  claims_le : ∀ claim ∈ s.claims, ∀ n ∈ claim.numbers, n ≤ s.row
  stored_le : ∀ entry ∈ s.stored, entry.2 ≤ s.row
  accepted_le : ∀ ack ∈ s.acks, ack.accepted ≠ none → ack.generation ≤ s.row
  floor_mono : ∀ i j, i ≤ j → j ≤ s.row → s.floor i ≤ s.floor j
  floor_le : ∀ i, i ≤ s.row → s.floor i ≤ s.table.readAt
  table_le : s.table.readAt ≤ s.version
  reading : ∀ event readAt, s.reload = .reading event readAt →
    s.table.readAt ≤ readAt ∧ readAt ≤ s.version
  reload_claims : s.claims.countP Claim.ofReload = s.reload.claims
  claimed : ∀ claim ∈ s.claims, claim.ofReload = true → ∀ value,
    claim.phase = .committed value → s.table.readAt ≤ s.floor value

theorem mem_numbers (claim : Claim) : claim.previous ∈ claim.numbers := by
  unfold Claim.numbers
  split <;> exact mem_cons_self

variable {claim : Claim} {acked value : ℕ} {reload : Reload}

theorem countP_erase (hmem : claim ∈ s.claims) :
    (s.claims.erase claim).countP Claim.ofReload + claim.ofReload.toNat =
      s.claims.countP Claim.ofReload := by
  rw [(perm_cons_erase hmem).countP_eq, countP_cons]
  cases claim.ofReload <;> rfl

theorem countP_withClaim {old new : Claim} (hmem : old ∈ s.claims)
    (hsame : new.ofReload = old.ofReload) :
    (s.withClaim old new).claims.countP Claim.ofReload = s.claims.countP Claim.ofReload := by
  rw [← countP_erase hmem, withClaim, countP_cons, hsame]
  cases old.ofReload <;> rfl

theorem Floored.read (h : Floored s) (hmem : claim ∈ s.claims) (hacked : acked ≤ s.row) :
    Floored (s.withClaim claim { claim with phase := .read acked }) :=
  { h with
    claims_le := forall_withClaim (forall_mem_cons.mpr
      ⟨h.claims_le claim hmem _ (mem_numbers claim), forall_mem_singleton.mpr hacked⟩) h.claims_le
    reload_claims := (countP_withClaim hmem rfl).trans h.reload_claims
    claimed := forall_withClaim nofun h.claimed }

theorem Floored.highestAck_le (h : Floored s) : s.highestAck ≤ s.row := by
  refine foldlRecOn (motive := (· ≤ s.row)) _ max (Nat.zero_le _) fun n hn x hx ↦ ?_
  obtain ⟨entry, hentry, rfl⟩ := mem_map.mp hx
  exact max_le hn (h.stored_le entry hentry)

theorem claimValue_eq {row previous : ℕ} (hprevious : previous ≤ row) (hacked : acked ≤ row) :
    claimValue row previous acked = row + 1 := by
  unfold claimValue
  omega

section Floor

variable {floor : ℕ → ℕ} {row top : ℕ}

theorem floor_update_old {i : ℕ} (hi : i ≤ row) : update floor (row + 1) top i = floor i :=
  update_of_ne (by omega) ..

theorem floor_update_le (hle : ∀ i, i ≤ row → floor i ≤ top) (i : ℕ) (hi : i ≤ row + 1) :
    update floor (row + 1) top i ≤ top := by
  rcases Nat.lt_or_ge row i with hlt | hge
  · obtain rfl : i = row + 1 := Nat.le_antisymm hi hlt
    rw [update_self]
  · rw [floor_update_old hge]
    exact hle i hge

theorem floor_update_mono (hmono : ∀ i j, i ≤ j → j ≤ row → floor i ≤ floor j)
    (hle : ∀ i, i ≤ row → floor i ≤ top) (i j : ℕ) (hij : i ≤ j) (hj : j ≤ row + 1) :
    update floor (row + 1) top i ≤ update floor (row + 1) top j := by
  rcases Nat.lt_or_ge row j with hlt | hge
  · obtain rfl : j = row + 1 := Nat.le_antisymm hj hlt
    rw [update_self]
    exact floor_update_le hle i hij
  · rw [floor_update_old hge, floor_update_old (hij.trans hge)]
    exact hmono i j hij hge

end Floor

theorem Floored.commit (h : Floored s) (hmem : claim ∈ s.claims) :
    Floored (s.commitClaim claim (s.row + 1)) where
  __ := h
  counter_le := h.counter_le.trans (Nat.le_succ _)
  claims_le := by
    refine forall_withClaim (forall_mem_cons.mpr ⟨?_, forall_mem_singleton.mpr le_rfl⟩)
      fun c hc n hn ↦ (h.claims_le c hc n hn).trans (Nat.le_succ _)
    exact (h.claims_le claim hmem _ (mem_numbers claim)).trans (Nat.le_succ _)
  stored_le entry hentry := (h.stored_le entry hentry).trans (Nat.le_succ _)
  accepted_le ack hack hne := (h.accepted_le ack hack hne).trans (Nat.le_succ _)
  floor_mono := floor_update_mono h.floor_mono h.floor_le
  floor_le := floor_update_le h.floor_le
  reload_claims := (countP_withClaim hmem rfl).trans h.reload_claims
  claimed := by
    refine forall_withClaim ?_ fun c hc hof value hvalue ↦ ?_
    · rintro - _ ⟨⟩
      exact (update_self (s.row + 1) s.table.readAt s.floor).ge
    · have hle := h.claims_le c hc value (by simp [Claim.numbers, hvalue])
      exact (h.claimed c hc hof value hvalue).trans (floor_update_old hle).ge

theorem Floored.adopt (h : Floored s) (hvalue : value ≤ s.row) : Floored (s.adopt value) :=
  { h with counter_le := Nat.max_le.mpr ⟨h.counter_le, hvalue⟩ }

theorem Floored.of_claims (h : Floored s) {claims : List Claim}
    (hclaims : ∀ c ∈ claims, ∃ old ∈ s.claims, c.previous = old.previous ∧ c.phase = old.phase ∧
      (c.ofReload → old.ofReload))
    (hcount : claims.countP Claim.ofReload = reload.claims)
    (hreading : ∀ event readAt, reload = .reading event readAt → s.reload = .reading event readAt) :
    Floored { s with claims := claims, reload := reload } :=
  { h with
    claims_le := by
      intro c hc n hn
      obtain ⟨old, hold, hprevious, hphase, -⟩ := hclaims c hc
      refine h.claims_le old hold n ?_
      rwa [Claim.numbers, ← hprevious, ← hphase]
    reading := fun event readAt hread ↦ h.reading event readAt (hreading event readAt hread)
    reload_claims := hcount
    claimed := by
      intro c hc hof value hvalue
      obtain ⟨old, hold, -, hphase, hof'⟩ := hclaims c hc
      exact h.claimed old hold (hof' hof) value (hphase ▸ hvalue) }

theorem reload_claims_le (reload : Reload) : reload.claims ≤ 1 := by
  cases reload <;> simp [Reload.claims]

section

variable (h : Floored s)
include h

namespace Floored

section

variable (hmem : claim ∈ s.claims) {owner : Owner}
include hmem

theorem count_reload (howner : claim.owner = some .reload) :
    (s.claims.erase claim).countP Claim.ofReload = 0 ∧ s.reload.claims = 1 := by
  have hcount := countP_erase hmem
  have hof : claim.ofReload := by simp [Claim.ofReload, howner]
  have hle := reload_claims_le s.reload
  rw [hof, h.reload_claims, Bool.toNat_true] at hcount
  omega

theorem adoptStep (howner : claim.owner = some owner) (hphase : claim.phase = .committed value) :
    Floored (((s.dropClaim claim).adopt value).succeed owner) := by
  have hvalue : value ≤ s.row := h.claims_le claim hmem value (by simp [Claim.numbers, hphase])
  have hclaims (c : Claim) (hc : c ∈ s.claims.erase claim) : ∃ old ∈ s.claims,
      c.previous = old.previous ∧ c.phase = old.phase ∧ (c.ofReload → old.ofReload) :=
    ⟨c, mem_of_mem_erase hc, rfl, rfl, id⟩
  cases owner with
  | reload =>
    have hdone : Floored { s with claims := s.claims.erase claim, reload := .idle } :=
      h.of_claims hclaims (h.count_reload hmem howner).1 nofun
    have hadopted := hdone.adopt hvalue
    simp only [System.succeed]
    split <;> exact { hadopted with }
  | retry =>
    have hcount := countP_erase hmem
    have hof : claim.ofReload = false := by simp [Claim.ofReload, howner]
    rw [hof] at hcount
    have hdone : Floored { s with claims := s.claims.erase claim, reload := s.reload } :=
      h.of_claims hclaims (hcount.trans h.reload_claims) fun _ _ ↦ id
    exact { hdone.adopt hvalue with }

theorem failStep (howner : claim.owner = some owner) :
    Floored ((s.withClaim claim { claim with owner := none }).giveUp owner) := by
  have hclaims : ∀ c ∈ { claim with owner := none } :: s.claims.erase claim, ∃ old ∈ s.claims,
      c.previous = old.previous ∧ c.phase = old.phase ∧ (c.ofReload → old.ofReload) :=
    forall_withClaim ⟨claim, hmem, rfl, rfl, nofun⟩ fun c hc ↦ ⟨c, hc, rfl, rfl, id⟩
  have hnone : Claim.ofReload { claim with owner := none } = false := rfl
  cases owner with
  | reload =>
    have hdone : Floored { s with
        claims := { claim with owner := none } :: s.claims.erase claim
        reload := .idle } := by
      refine h.of_claims hclaims ?_ nofun
      rw [countP_cons, (h.count_reload hmem howner).1]
      rfl
    exact { hdone with }
  | retry =>
    have hof : claim.ofReload = false := by simp [Claim.ofReload, howner]
    have hdone : Floored { s with
        claims := { claim with owner := none } :: s.claims.erase claim
        reload := s.reload } :=
      h.of_claims hclaims ((countP_withClaim hmem (hnone.trans hof.symm)).trans h.reload_claims)
        fun _ _ ↦ id
    exact { hdone with }

theorem commit_eq
    (hphase : claim.phase = .read acked) : claimValue s.row claim.previous acked = s.row + 1 :=
  claimValue_eq (h.claims_le claim hmem _ (mem_numbers claim))
    (h.claims_le claim hmem _ (by simp [Claim.numbers, hphase]))

theorem claimStep (hmove : ClaimMove s claim t) : Floored t := by
  cases hmove with
  | read => exact h.read hmem h.highestAck_le
  | commit acked hphase =>
    rw [h.commit_eq hmem hphase]
    exact h.commit hmem
  | adopt owner value howner hphase => exact h.adoptStep hmem howner hphase
  | fail owner howner => exact h.failStep hmem howner

end

theorem publish {event : Option (Option ℕ)} {readAt : ℕ}
    (hreload : s.reload = .reading event readAt) (serial : ℕ) (empty : Bool) (loads : List Table) :
    Floored { s with
      table := ⟨serial, readAt, empty⟩
      loads := loads
      reload := .published event } := by
  obtain ⟨htable, hversion⟩ := h.reading event readAt hreload
  have hcount := h.reload_claims
  rw [hreload] at hcount
  exact { h with
    floor_le := fun i hi ↦ (h.floor_le i hi).trans htable
    table_le := hversion
    reading := nofun
    reload_claims := hcount
    claimed := fun c hc hof ↦ absurd (countP_pos_iff.mpr ⟨c, hc, hof⟩) (by
      rw [hcount]
      exact Nat.lt_irrefl 0) }

theorem startClaim (owner : Owner)
    (hreload : reload.claims = s.reload.claims + (owner == .reload).toNat)
    (hreading : ∀ event readAt, reload = .reading event readAt → s.reload = .reading event readAt) :
    Floored { s with
      claims := ⟨some owner, s.counter, .started⟩ :: s.claims
      reload := reload } :=
  { h with
    claims_le := forall_mem_cons.mpr ⟨forall_mem_singleton.mpr h.counter_le, h.claims_le⟩
    reading := fun event readAt hread ↦ h.reading event readAt (hreading event readAt hread)
    reload_claims := by
      rw [countP_cons, h.reload_claims, hreload]
      cases owner <;> rfl
    claimed := forall_mem_cons.mpr ⟨nofun, h.claimed⟩ }

theorem loadStep (hmove : LoadMove s t) : Floored t := by
  have hclaims := h.reload_claims
  cases hmove with
  | begin event hreload =>
    rw [hreload] at hclaims
    refine { h with reading := fun e r hread ↦ ?_, reload_claims := hclaims }
    cases hread
    exact ⟨h.table_le, Nat.le_refl _⟩
  | fail event readAt hreload =>
    rw [hreload] at hclaims
    exact { h with reading := nofun, reload_claims := hclaims }
  | publish event readAt empty hreload => exact h.publish hreload _ empty _
  | claim event hreload =>
    have hstarted : Floored { s with
        claims := ⟨some .reload, s.counter, .started⟩ :: s.claims
        reload := .claiming event } :=
      h.startClaim .reload (by rw [hreload]; rfl) nofun
    exact { hstarted with }
  | retry =>
    have hstarted : Floored { s with
        claims := ⟨some .retry, s.counter, .started⟩ :: s.claims
        reload := s.reload } :=
      h.startClaim .retry rfl fun _ _ ↦ id
    exact { hstarted with }
  | send => exact { h with }

theorem ackStep {ack : Ack} (hmem : ack ∈ s.acks) (hmove : AckMove s ack t) : Floored t := by
  have herase (k : Ack) (hk : k ∈ s.acks.erase ack) (hne : k.accepted ≠ none) :
      k.generation ≤ s.row := h.accepted_le k (mem_of_mem_erase hk) hne
  cases hmove with
  | accept hle =>
    exact { h with accepted_le := forall_mem_cons.mpr ⟨fun _ ↦ hle.trans h.counter_le, herase⟩ }
  | store epoch hepoch =>
    exact { h with
      stored_le := forall_mem_cons.mpr ⟨h.accepted_le ack hmem (by simp [hepoch]),
        fun entry hentry ↦ h.stored_le entry (mem_filter.mp hentry).1⟩
      accepted_le := herase }
  | drop => exact { h with accepted_le := herase }

theorem workerStep {node : ℕ} {act : WorkerAct} (hmove : WorkerMove s node act t) : Floored t := by
  obtain ⟨worker, acks, rfl, hacks⟩ := hmove.eq
  rcases hacks with rfl | rfl
  · exact { h with }
  · exact { h with accepted_le := forall_mem_cons.mpr ⟨absurd rfl, h.accepted_le⟩ }

end Floored

end

/-- Neither the control plane nor a worker restarts. -/
def Runs : Act → Prop
  | .restart => False
  | .worker _ .restart => False
  | _ => True

theorem Floored.step (h : Floored s) (hruns : Runs a)
    (hstep : s.step environment deployment a = some t) : Floored t := by
  have hreading (version : ℕ) (hversion : s.version ≤ version) (e : Option (Option ℕ)) (r : ℕ)
      (hread : s.reload = .reading e r) : s.table.readAt ≤ r ∧ r ≤ version :=
    (h.reading e r hread).imp_right hversion.trans'
  cases step_move hstep with
  | aside version _ _ _ hversion =>
    exact { h with table_le := h.table_le.trans hversion, reading := hreading version hversion }
  | load hmove => exact h.loadStep hmove
  | claim hmem hmove => exact h.claimStep hmem hmove
  | worker hmove => exact h.workerStep hmove
  | ack hmem hmove => exact h.ackStep hmem hmove
  | barrier hmove =>
    obtain ⟨version, _, _, _, hversion, rfl⟩ := hmove.eq
    exact { h with table_le := h.table_le.trans hversion, reading := hreading version hversion }
  | restart => exact hruns.elim

theorem floored_start (start : Start) : Floored start.system where
  counter_le := Nat.zero_le _
  claims_le := nofun
  stored_le := start.stored_le
  accepted_le := nofun
  floor_mono := fun _ _ _ _ ↦ Nat.le_refl 0
  floor_le := fun _ _ ↦ Nat.zero_le _
  table_le := Nat.zero_le _
  reading := nofun
  reload_claims := rfl
  claimed := nofun

end System

end Temps.Routes
