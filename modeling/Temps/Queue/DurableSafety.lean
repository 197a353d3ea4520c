import Temps.Queue.Durable

namespace Temps.Queue.Durable

open Lib.Machine List Option Db

variable {β π : Type*} {codec : Codec β π} {s t : State β π}

def Stage.ids : Stage → List ℕ
  | .locked => []
  | .pruned ids | .counted ids _ => ids

namespace State

def Spent (s : State β π) (k : Key) : Prop :=
  ∃ d ∈ s.db.deliveries, d.key = k ∧ maxDurableDeliveryAttempts ≤ d.attempts

/-- The step acknowledges the delivery, or fails it when its attempts are used up. -/
def Finishes (s : State β π) : Act β → Key → Prop
  | .acknowledge _ key, k => key = k
  | .fail _ key _, k | .failClaim _ key _, k => key = k ∧ s.Spent k
  | _, _ => False

def Claimable (s : State β π) (k : Key) : Prop :=
  ∃ j ∈ s.db.jobs, j.id = k.jobId ∧ s.db.claimable k.consumer j = true

/-- The rows are well formed; a delivery that is held is a claimed row, and it is held once; what
the sender has seen of the tables still holds of them. -/
structure Inv (s : State β π) : Prop where
  valid : s.db.Valid
  used : ∀ j ∈ s.db.jobs, j.id ∈ s.used
  holders : (s.held.map Hold.key).Nodup
  rows : ∀ h ∈ s.held, ∃ d ∈ s.db.deliveries,
    d.key = h.key ∧ d.completed = false ∧ d.claimed = true
  pruned : ∀ tx ∈ s.sending, ∀ id ∈ tx.stage.ids, s.db.hasIncomplete id = false
  counted : ∀ tx ∈ s.sending, ∀ ids n, tx.stage = .counted ids n → s.db.pendingJobs ≤ n
  pending : s.db.pendingJobs ≤ maxPendingDurableJobs

structure Shrinks (s t : State β π) : Prop where
  evolves : Db.Evolves none s.db t.db
  jobs : t.db.jobs.Sublist s.db.jobs
  valid : t.db.Valid
  used : t.used = s.used
  sending : t.sending = none ∨ t.sending = s.sending

theorem Inv.shrinks (h : Inv s) (hs : Shrinks s t) (holders : (t.held.map Hold.key).Nodup)
    (rows : ∀ h ∈ t.held, ∃ d ∈ t.db.deliveries, d.key = h.key ∧ d.completed = false ∧ d.claimed) :
    Inv t where
  __ := hs
  used j hj := hs.used ▸ h.used j (hs.jobs.subset hj)
  holders := holders
  rows := rows
  pruned tx htx id hid := by
    rcases hs.sending with hnone | hsame
    · simp [hnone] at htx
    · by_contra hin
      have hin := hs.evolves.hasIncomplete (by simp) (by simpa using hin)
      rw [h.pruned tx (hsame ▸ htx) id hid] at hin
      exact nomatch hin
  counted tx htx ids n hn := by
    rcases hs.sending with hnone | hsame
    · simp [hnone] at htx
    · exact (pendingJobs_le hs.jobs hs.evolves).trans (h.counted tx (hsame ▸ htx) ids n hn)
  pending := (pendingJobs_le hs.jobs hs.evolves).trans h.pending

theorem inv_init : Inv (init : State β π) where
  valid := ⟨nodup_nil, nodup_nil, by simp [init]⟩
  used := by simp [init]
  holders := nodup_nil
  rows := by simp [init]
  pruned := by simp [init]
  counted := by simp [init]
  pending := Nat.zero_le _

inductive Effect (codec : Codec β π) (s : State β π) : Act β → State β π → Prop where
  /-- A statement of the sender that only reads, or the end of its transaction without effect. -/
  | reads (a : Act β) (sending : Option (SendTx β))
      (hpruned : ∀ tx ∈ sending, ∀ id ∈ tx.stage.ids, s.db.hasIncomplete id = false)
      (hcounted : ∀ tx ∈ sending, ∀ ids n, tx.stage = .counted ids n → s.db.pendingJobs ≤ n)
      (ha : ∀ k, ¬ s.Finishes a k) :
      Effect codec s a { s with sending := sending }
  | commits (id : ℕ) (tx : SendTx β) (ids : List ℕ) (pending : ℕ) (payload : π)
      (htx : tx ∈ s.sending) (hstage : tx.stage = .counted ids pending) (hfresh : id ∉ s.used)
      (hroom : pending < maxPendingDurableJobs) (hjson : codec.toJson tx.job = some payload) :
      Effect codec s (.commit id)
        { s with
          db := (s.db.delete ids).insert ⟨id, tx.createdAt, payload⟩ (consumers tx.job.kind)
          sending := none
          used := id :: s.used }
  | claims (receiver : ℕ) (consumer : Consumer) (j : JobRow π) (db : Db π)
      (hclaim : s.db.claim consumer = some (j, db)) :
      Effect codec s (.claim receiver consumer)
        { s with
          db := db
          held := ⟨receiver, ⟨j.id, consumer⟩, (codec.fromJson j.payload).isNone⟩ :: s.held }
  | fails (a : Act β) (hold : Hold) (details : String) (hheld : hold ∈ s.held)
      (ha : ∀ k, s.Finishes a k ↔ hold.key = k ∧ s.Spent k) :
      Effect codec s a
        { s with db := s.db.failClaim hold.key details, held := s.held.erase hold }
  | acknowledges (hold : Hold) (hheld : hold ∈ s.held) :
      Effect codec s (.acknowledge hold.receiver hold.key)
        { s with db := s.db.acknowledge hold.key, held := s.held.erase hold }
  | restarts :
      Effect codec s .restart { s with db := s.db.releaseClaims, held := [], sending := none }

variable {a : Act β} {k : Key} {hold : Hold} {j : JobRow π} {tx : SendTx β} {d : Delivery}
  {c : Consumer}

theorem settle_eq_some {db : Db π} (h : s.settle hold db = some t) :
    hold ∈ s.held ∧ t = { s with db := db, held := s.held.erase hold } := by
  rw [settle] at h
  split at h
  case isTrue hmem => exact ⟨hmem, (some.inj h).symm⟩
  case isFalse => exact nomatch h

section

variable (h : Inv s)
include h

theorem step_effect (hstep : s.step codec a = some t) : Effect codec s a t := by
  revert hstep
  fun_cases step codec s a
  case case11 receiver consumer =>
    intro hstep
    obtain ⟨⟨j, db⟩, hclaim, rfl⟩ := map_eq_some_iff.mp hstep
    exact .claims receiver consumer j db hclaim
  case case12 receiver key details =>
    intro hstep
    obtain ⟨hmem, rfl⟩ := settle_eq_some hstep
    exact .fails _ ⟨receiver, key, true⟩ details hmem fun _ ↦ Iff.rfl
  case case13 receiver key =>
    intro hstep
    obtain ⟨hmem, rfl⟩ := settle_eq_some hstep
    exact .acknowledges ⟨receiver, key, false⟩ hmem
  case case14 receiver key details =>
    intro hstep
    obtain ⟨hmem, rfl⟩ := settle_eq_some hstep
    exact .fails _ ⟨receiver, key, false⟩ details hmem fun _ ↦ Iff.rfl
  all_goals rintro ⟨⟩
  case case1 => exact .reads _ _ (by simp [Stage.ids]) (by simp) fun _ ↦ id
  case case3 =>
    refine .reads _ _ ?_ (by simp) fun _ ↦ id
    rintro tx ⟨⟩ id hid
    exact (prunable_spec hid).1
  case case5 job createdAt ids hs =>
    refine .reads _ _ ?_ ?_ fun _ ↦ id
    · rintro tx ⟨⟩
      exact h.pruned ⟨job, createdAt, .pruned ids⟩ hs
    · rintro tx ⟨⟩ ids' n hn
      cases hn
      exact le_rfl
  case case8 id job createdAt ids pending hs hfresh =>
    rw [commit]
    split
    case isTrue => exact .reads _ _ (by simp) (by simp) fun _ hfin ↦ hfin
    case isFalse hroom =>
      split
      case h_1 => exact .reads _ _ (by simp) (by simp) fun _ hfin ↦ hfin
      case h_2 payload hjson =>
        exact .commits id _ ids pending payload hs rfl hfresh (Nat.lt_of_not_le hroom) hjson
  case case10 => exact .reads _ _ (by simp) (by simp) fun _ ↦ id
  case case15 => exact .restarts

theorem Effect.evolves (he : Effect codec s a t) :
    ∃ fresh : Option ℕ, Db.Evolves fresh s.db t.db ∧ s.used ⊆ t.used ∧
      ∀ id ∈ fresh, id ∉ s.used := by
  cases he with
  | commits id tx ids pending payload htx hstage hfresh hroom hjson =>
    refine ⟨some id, (delete_evolves ids).trans (insert_evolves _ _), subset_cons_self _ _, ?_⟩
    rintro _ ⟨⟩
    exact hfresh
  | claims receiver consumer j db hclaim =>
    exact ⟨none, claim_evolves h.valid hclaim, List.Subset.refl _, by simp⟩
  | fails _ hold details => exact ⟨none, failClaim_evolves details, List.Subset.refl _, by simp⟩
  | acknowledges hold => exact ⟨none, acknowledge_evolves, List.Subset.refl _, by simp⟩
  | restarts => exact ⟨none, releaseClaims_evolves, List.Subset.refl _, by simp⟩
  | _ => exact ⟨none, fun d hd ↦ .inl ⟨d, hd, rfl, fun _ ↦ rfl⟩, List.Subset.refl _, by simp⟩

theorem Inv.rows_erase {db : Db π} (hheld : hold ∈ s.held)
    (hdb : Db.Untouched (· = hold.key) s.db db) :
    ∀ h ∈ s.held.erase hold, ∃ d ∈ db.deliveries,
      d.key = h.key ∧ d.completed = false ∧ d.claimed := by
  intro other hother
  obtain ⟨d, hd, hkey, hopen, hclaimed⟩ := h.rows other (mem_of_mem_erase hother)
  refine ⟨d, hdb d hd hopen fun heq ↦ ?_, hkey, hopen, hclaimed⟩
  obtain rfl := inj_on_of_nodup_map h.holders (mem_of_mem_erase hother) hheld
    (hkey.symm.trans heq)
  exact (List.Nodup.of_map _ h.holders).not_mem_erase hother

theorem Inv.holders_erase (hold : Hold) : ((s.held.erase hold).map Hold.key).Nodup :=
  h.holders.sublist (erase_sublist.map _)

theorem Inv.pruned_ids (htx : tx ∈ s.sending) {ids : List ℕ} {pending : ℕ}
    (hstage : tx.stage = .counted ids pending) : ∀ id ∈ ids, s.db.hasIncomplete id = false := by
  have hids := h.pruned tx htx
  rwa [hstage] at hids

theorem Inv.not_held (hj : s.db.candidate c = some j) : ∀ hold ∈ s.held, hold.key ≠ ⟨j.id, c⟩ := by
  intro hold hmem heq
  obtain ⟨d, hd, hkey, -, hclaimed⟩ := h.rows hold hmem
  obtain ⟨d', hd', hkey', -, hfree⟩ := mem_claimable.mp (candidate_spec hj).2.1
  rw [eq_of_key h.valid hd hd' (hkey.trans (heq.trans hkey'.symm)), hfree] at hclaimed
  cases hclaimed

theorem Effect.inv (he : Effect codec s a t) : Inv t := by
  cases he with
  | reads _ sending hpruned hcounted _ =>
    exact { h with pruned := hpruned, counted := hcounted }
  | commits id tx ids pending payload htx hstage hfresh hroom hjson =>
    have hids := h.pruned_ids htx hstage
    have hnew : ∀ j ∈ (s.db.delete ids).jobs, j.id ≠ id := fun j hj heq ↦
      hfresh (heq ▸ h.used j (mem_of_mem_filter hj))
    have hdelete : (s.db.delete ids).pendingJobs ≤ s.db.pendingJobs :=
      pendingJobs_le filter_sublist (delete_evolves ids)
    refine ⟨insert_valid (delete_valid ids h.valid) hnew (consumers_nodup _), ?_,
      h.holders, fun hold hmem ↦ ?_, by simp, by simp, ?_⟩
    · refine forall_mem_cons.mpr ⟨mem_cons_self, fun j hj ↦ ?_⟩
      exact mem_cons_of_mem _ (h.used j (mem_of_mem_filter hj))
    · obtain ⟨d, hd, hkey, hopen, hclaimed⟩ := h.rows hold hmem
      have hkept := delete_untouched hids d hd hopen not_false
      exact ⟨d, insert_untouched _ _ d hkept hopen not_false, hkey, hopen, hclaimed⟩
    · calc _ ≤ (s.db.delete ids).pendingJobs + 1 := insert_pending _ hnew
        _ ≤ pending + 1 := by
          have := h.counted tx htx ids pending hstage
          omega
        _ ≤ maxPendingDurableJobs := hroom
  | claims receiver consumer j db hclaim =>
    obtain ⟨hcandidate, hdb, d, hd, hkey, hopen, -⟩ := claim_spec h.valid hclaim
    have hnot := h.not_held hcandidate
    refine h.shrinks ⟨claim_evolves h.valid hclaim, by simp [hdb, Db.rewrite],
      claim_valid h.valid hclaim, rfl, .inr rfl⟩ ?_ fun hold hmem ↦ ?_
    · rw [map_cons, nodup_cons]
      refine ⟨fun hmem ↦ ?_, h.holders⟩
      obtain ⟨hold, hmem, heq⟩ := mem_map.mp hmem
      exact hnot hold hmem heq
    · rcases mem_cons.mp hmem with rfl | hmem
      · refine ⟨{ d with claimed := true, attempts := d.attempts + 1 }, ?_, hkey, hopen, rfl⟩
        rw [hdb]
        exact mem_map.mpr ⟨d, hd, if_pos hkey⟩
      · obtain ⟨d', hd', hkey', hopen', hclaimed⟩ := h.rows hold hmem
        refine ⟨d', claim_untouched h.valid hclaim d' hd' hopen' ?_, hkey', hopen', hclaimed⟩
        exact fun heq ↦ hnot hold hmem (hkey'.symm.trans heq)
  | fails _ hold details hheld _ =>
    exact h.shrinks ⟨failClaim_evolves details, List.Sublist.refl _,
      settle_valid (fun _ ↦ by split <;> rfl) h.valid, rfl, .inr rfl⟩ (h.holders_erase hold)
      (h.rows_erase hheld (failClaim_untouched details))
  | acknowledges hold hheld =>
    exact h.shrinks ⟨acknowledge_evolves, acknowledge_jobs, acknowledge_valid h.valid,
      rfl, .inr rfl⟩ (h.holders_erase hold) (h.rows_erase hheld acknowledge_untouched)
  | restarts =>
    exact h.shrinks ⟨releaseClaims_evolves, List.Sublist.refl _,
      releaseClaims_valid h.valid, rfl, .inl rfl⟩ nodup_nil (by simp)

theorem inv_step (hstep : s.step codec a = some t) : Inv t :=
  (step_effect h hstep).inv h

theorem Effect.keeps (he : Effect codec s a t) : Db.Keeps (s.Finishes a) s.db t.db := by
  intro d hd hopen
  cases he with
  | commits id tx ids pending payload htx hstage hfresh hroom hjson =>
    have hkept := delete_untouched (h.pruned_ids htx hstage) d hd hopen not_false
    exact .inr ⟨d, insert_untouched _ _ d hkept hopen not_false, rfl, hopen⟩
  | claims receiver consumer j db hclaim =>
    obtain ⟨-, rfl, -⟩ := claim_spec h.valid hclaim
    refine .inr ⟨_, mem_map_of_mem hd, ?_⟩
    split <;> exact ⟨rfl, hopen⟩
  | fails _ hold details hheld ha =>
    by_cases hkey : d.key = hold.key
    · by_cases hspent : maxDurableDeliveryAttempts ≤ d.attempts
      · exact .inl ((ha _).mpr ⟨hkey.symm, d, hd, rfl, hspent⟩)
      · have hfree := failClaim_open details hd hopen hspent
        rw [hkey] at hfree
        exact .inr ⟨_, hfree, hkey.symm, rfl⟩
    · exact .inr ⟨d, failClaim_untouched details d hd hopen hkey, rfl, hopen⟩
  | acknowledges hold hheld =>
    by_cases hkey : d.key = hold.key
    · exact .inl hkey.symm
    · exact .inr ⟨d, acknowledge_untouched d hd hopen hkey, rfl, hopen⟩
  | restarts =>
    refine .inr ⟨_, mem_map_of_mem hd, ?_⟩
    split <;> exact ⟨rfl, hopen⟩
  | _ => exact .inr ⟨d, hd, rfl, hopen⟩

end

def Over (s : State β π) (k : Key) : Prop :=
  k.jobId ∈ s.used ∧ ∀ d ∈ s.db.deliveries, d.key = k → d.completed = true

theorem Effect.over (h : Inv s) (he : Effect codec s a t) (hk : s.Over k) : t.Over k := by
  obtain ⟨fresh, hev, hused, hfresh⟩ := he.evolves h
  refine ⟨hused hk.1, fun d hd hkey ↦ ?_⟩
  rcases hev d hd with ⟨d', hd', hkey', hdone⟩ | hnew
  · have hd'done := hk.2 d' hd' (hkey'.trans hkey)
    rw [hdone hd'done]
    exact hd'done
  · rw [hkey] at hnew
    exact absurd hk.1 (hfresh _ hnew)

theorem Inv.jobId_used (h : Inv s) (hd : d ∈ s.db.deliveries) : d.key.jobId ∈ s.used := by
  obtain ⟨j, hj, hid⟩ := h.valid.parents d hd
  exact hid ▸ h.used j hj

theorem Effect.finishes (h : Inv s) (he : Effect codec s a t) (hk : s.Finishes a k) : t.Over k := by
  cases he with
  | fails _ hold details hheld ha =>
    obtain ⟨rfl, d, hd, hkey, hspent⟩ := (ha k).mp hk
    exact ⟨hkey ▸ h.jobId_used hd, hkey ▸ failClaim_spent h.valid details hd hspent⟩
  | acknowledges hold hheld =>
    obtain rfl : hold.key = k := hk
    obtain ⟨d, hd, hkey, -⟩ := h.rows hold hheld
    exact ⟨hkey ▸ h.jobId_used hd, fun d' hd' hkey' ↦ acknowledge_done hd' hkey'⟩
  | reads _ sending _ _ ha => exact absurd hk (ha k)
  | _ => exact hk.elim

theorem Over.not_candidate (hk : s.Over k) (hj : s.db.candidate c = some j) :
    (⟨j.id, c⟩ : Key) ≠ k := by
  rintro rfl
  obtain ⟨d, hd, hkey, hopen, -⟩ := mem_claimable.mp (candidate_spec hj).2.1
  rw [hk.2 d hd hkey] at hopen
  exact nomatch hopen

theorem Inv.claimable (h : Inv s) (hd : d ∈ s.db.deliveries) (hkey : d.key = k)
    (hopen : d.completed = false) (hfree : d.claimed = false) : s.Claimable k := by
  obtain ⟨j, hj, hid⟩ := h.valid.parents d hd
  rw [hkey] at hid
  exact ⟨j, hj, hid, mem_claimable.mpr ⟨d, hd, by rw [hid, hkey], hopen, hfree⟩⟩

/-- What the queue promises of a state and of the steps and runs that start in it. -/
structure Guarantees (codec : Codec β π) (s : State β π) : Prop where
  /-- A delivery is held by one receiver, and one that is held is not handed out. -/
  oneHolder : (s.held.map Hold.key).Nodup ∧
    ∀ c j, s.db.candidate c = some j → ∀ h ∈ s.held, h.key ≠ ⟨j.id, c⟩
  oldestFirst : ∀ c, (∃ j ∈ s.db.jobs, s.db.claimable c j = true) →
    ∃ j, s.db.candidate c = some j ∧ s.db.claimable c j = true ∧
      ∀ j' ∈ s.db.jobs, s.db.claimable c j' = true → Db.age j ≤ Db.age j'
  /-- What is acknowledged or finally failed is never handed out again, in any run. -/
  notAgain : ∀ a t k, s.step codec a = some t → s.Finishes a k →
    ∀ u, Reaches (State.step codec) anything t u →
      ∀ c j, u.db.candidate c = some j → (⟨j.id, c⟩ : Key) ≠ k
  /-- Nothing else ends a delivery: neither a send with its pruning, nor a crash. -/
  kept : ∀ a t, s.step codec a = some t → Db.Keeps (s.Finishes a) s.db t.db
  retried : ∀ a receiver k details t,
    a = .fail receiver k details ∨ a = .failClaim receiver k details →
      s.step codec a = some t → ¬ s.Spent k → t.Claimable k
  restarted : ∀ t, s.step codec .restart = some t →
    ∀ d ∈ s.db.deliveries, d.completed = false → t.Claimable d.key
  /-- A send that is admitted stores a claimable delivery for each consumer of the job. -/
  written : ∀ id t tx, tx ∈ s.sending → s.step codec (.commit id) = some t → id ∈ t.used →
    ∀ c ∈ consumers tx.job.kind, t.Claimable ⟨id, c⟩
  pruning : ∀ id t, s.step codec (.commit id) = some t →
    ∀ j ∈ s.db.jobs, s.db.hasIncomplete j.id = true → j ∈ t.db.jobs
  pending : s.db.pendingJobs ≤ maxPendingDurableJobs
  /-- The broadcast channel hands out no job that the consumer gets from the tables. -/
  broadcast : ∀ (job : Job β) (c : Consumer), c ∈ consumers job.kind → onBroadcast c job = none

theorem over_reaches (h : Inv s) (hk : s.Over k) {u : State β π}
    (hrun : Reaches (State.step codec) anything s u) : Inv u ∧ u.Over k :=
  hrun.invariant (I := fun v ↦ Inv v ∧ v.Over k)
    (fun hv _ hstep ↦
      let he := step_effect hv.1 hstep
      ⟨he.inv hv.1, he.over hv.1 hv.2⟩) ⟨h, hk⟩

theorem Inv.retried (h : Inv s) {details : String} (hheld : hold ∈ s.held)
    (hleft : ¬ s.Spent hold.key) (ht : Inv t) (hdb : t.db = s.db.failClaim hold.key details) :
    t.Claimable hold.key := by
  obtain ⟨d, hd, hkey, hopen, -⟩ := h.rows hold hheld
  have hfree := failClaim_open details hd hopen fun hspent ↦ hleft ⟨d, hd, hkey, hspent⟩
  rw [hkey, ← hdb] at hfree
  exact ht.claimable hfree rfl rfl rfl

theorem Effect.written (ht : Inv t) {id : ℕ} (he : Effect codec s (.commit id) t)
    (hfresh : id ∉ s.used) (htx : tx ∈ s.sending) (hid : id ∈ t.used) :
    ∀ c ∈ consumers tx.job.kind, t.Claimable ⟨id, c⟩ := by
  intro c hc
  cases he with
  | reads => exact absurd hid hfresh
  | commits _ tx' ids pending payload htx' hstage _ hroom hjson =>
    obtain rfl := some.inj (htx.symm.trans htx')
    exact ht.claimable (mem_append_left _ (mem_map_of_mem hc)) rfl rfl rfl
  | fails _ hold details hheld ha =>
    exact absurd hid hfresh

theorem Effect.pruning (h : Inv s) {id : ℕ} (he : Effect codec s (.commit id) t)
    (hj : j ∈ s.db.jobs) (hopen : s.db.hasIncomplete j.id) : j ∈ t.db.jobs := by
  cases he with
  | reads => exact hj
  | commits _ tx ids pending payload htx hstage _ hroom hjson =>
    refine mem_cons_of_mem _ (mem_filter.mpr ⟨hj, ?_⟩)
    rw [Bool.not_eq_true', ← Bool.not_eq_true, contains_iff_mem]
    intro hmem
    rw [h.pruned_ids htx hstage _ hmem] at hopen
    exact nomatch hopen
  | fails _ hold details hheld ha => exact hj

theorem guarantees_of_inv (h : Inv s) : Guarantees codec s where
  oneHolder := ⟨h.holders, fun c j hj ↦ h.not_held hj⟩
  oldestFirst := by
    rintro c ⟨j, hj, hc⟩
    obtain ⟨j', hj'⟩ := candidate_isSome hj hc
    exact ⟨j', hj', (candidate_spec hj').2⟩
  notAgain := by
    intro a t k hstep hk u hrun c j hj
    have he := step_effect h hstep
    obtain ⟨hu, hover⟩ := over_reaches (he.inv h) (he.finishes h hk) hrun
    exact hover.not_candidate hj
  kept a t hstep := (step_effect h hstep).keeps h
  retried := by
    rintro a receiver k details t (rfl | rfl) hstep hleft
    all_goals
      obtain ⟨hmem, hdb⟩ := settle_eq_some hstep
      exact h.retried hmem hleft (inv_step h hstep) (by rw [hdb])
  restarted := by
    intro t hstep d hd hopen
    have ht := inv_step h hstep
    obtain rfl := some.inj hstep
    have hmem : { d with claimed := false } ∈ s.db.releaseClaims.deliveries :=
      mem_map.mpr ⟨d, hd, if_pos hopen⟩
    exact ht.claimable hmem rfl hopen rfl
  written := by
    intro id t tx htx hstep hid
    refine (step_effect h hstep).written (inv_step h hstep) ?_ htx hid
    intro hused
    simp only [step] at hstep
    split at hstep
    · rw [if_pos hused] at hstep
      exact nomatch hstep
    · exact nomatch hstep
  pruning id t hstep j hj hopen := (step_effect h hstep).pruning h hj hopen
  pending := h.pending
  broadcast job c hc := if_pos hc

end State

/-- The durable queue keeps its promises in every state that a process can reach, through sends
with their statements apart, claims, acknowledgements, failures, crashes and restarts. -/
theorem durable_delivery (codec : Codec β π)
    (hrun : Reaches (State.step codec) anything init s) : s.Guarantees codec :=
  State.guarantees_of_inv
    (hrun.invariant (fun h _ hstep ↦ State.inv_step h hstep) State.inv_init)

def sampleCodec : Codec ℕ ℕ where
  toJson job := some job.fields
  fromJson n := if n = 0 then none else some ⟨.deployImageRequested, n⟩

def sampleRun : List (Act ℕ) :=
  [.lock ⟨.deployImageRequested, 7⟩ 1, .prune, .count, .commit 11,
   .lock ⟨.deployImageRequested, 8⟩ 2, .prune, .count, .commit 12,
   .claim 0 .deployments, .fail 0 ⟨11, .deployments⟩ "no image", .claim 1 .deployments, .restart,
   .claim 2 .deployments, .acknowledge 2 ⟨11, .deployments⟩, .claim 3 .deployments]

theorem durable_delivery_sample :
    ((exec (State.step sampleCodec) (fun _ _ ↦ true) init sampleRun).any fun s ↦
      s.held = [⟨3, ⟨12, .deployments⟩, false⟩]) = true ∧
    ∀ s ∈ exec (State.step sampleCodec) (fun _ _ ↦ true) init sampleRun, s.Guarantees sampleCodec :=
  ⟨by decide +kernel,
    fun _ hs ↦ durable_delivery sampleCodec (reaches_exec (fun _ _ _ ↦ trivial) hs)⟩

end Temps.Queue.Durable
