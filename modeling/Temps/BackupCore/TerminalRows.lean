import Temps.BackupCore.Executor

namespace Temps.BackupCore

open Lib.Machine Function Option Executor BackupCore.Backup

variable {s t : Executor} {a : Act} {r : Backup} {k c b : ℕ} {call : Call} {event : Event}
  {token : Bool} {σ : ℕ → Prop} {u : ℕ → Bool}

def InProcess : Act → Prop
  | .crash | .reconcileOrphans => False
  | _ => True

/-- A task is started only for an unfinished backup; an attempt begins, and an engine succeeds, only
while no cancellation of the backup is under way or signalled, and no cancellation comes between the
success of an engine and the row; a spawn without an engine is not made for a backup in flight; and
no engine panics. -/
def Orderly (s : Executor) : Act → Prop
  | .spawnTask k => ∀ b, s.calls k = .granted b → (s.rows b).unfinished = true
  | .engine k .attempt => ∀ b, (s.calls k).task = some b → ∀ c, (s.cancels c).target ≠ some b
  | .engine k .succeed =>
    s.tokens k = false ∧ ∀ b, (s.calls k).task = some b → ∀ c, (s.cancels c).target ≠ some b
  | .cancelBackup _ b => ∀ k, s.calls k ≠ .succeeded b
  | .spawnUnknown b | .spawnUnavailable _ b => s.inFlight b = none
  | .panic _ => False
  | _ => True

def Call.Fits (unfinished : ℕ → Bool) (signalled : ℕ → Prop) : Call → Prop
  | .starting b | .attempting b _ | .engine b _ => unfinished b = true ∨ signalled b
  | .succeeded b => unfinished b = true
  | .cancelled b | .completing b | .failing b | .leaving b => unfinished b = false
  | _ => True

def Executor.Signalled (s : Executor) (k b : ℕ) : Prop :=
  s.tokens k = true ∨ ∃ c, (s.cancels c).target = some b

structure Tracked (s : Executor) : Prop where
  calls : ∀ k b, (s.calls k).backup = some b → b < s.count
  cancels : ∀ c b, (s.cancels c).target = some b → b < s.count ∧ (s.rows b).unfinished = false
  entry : ∀ k b, (s.calls k).task = some b ↔ s.inFlight b = some k
  token : ∀ k b, (s.calls k).task = some b → s.tokens k = true → (s.rows b).unfinished = false
  fits : ∀ k, (s.calls k).Fits (fun b ↦ (s.rows b).unfinished) (s.Signalled k)

theorem Call.backup_of_task (h : call.task = some b) : call.backup = some b := by
  cases call <;> first | exact h | cases h

theorem Tracked.lt_of_task (h : Tracked s) (hk : (s.calls k).task = some b) : b < s.count :=
  h.calls k b (Call.backup_of_task hk)

theorem Call.Fits.congr {u' : ℕ → Bool} {σ' : ℕ → Prop} (h : call.Fits u σ)
    (hu : ∀ b, call.task = some b → u' b = u b) (hσ : ∀ b, call.task = some b → σ b → σ' b) :
    call.Fits u' σ' := by
  cases call with
  | starting b | attempting b _ | engine b _ =>
    exact h.imp (hu b rfl).trans (hσ b rfl)
  | succeeded b | cancelled b | completing b | failing b | leaving b => exact (hu b rfl).trans h
  | _ => trivial

theorem Call.task_next {next : Call} (h : call.next token event = some next) :
    next.task = call.task ∧ next.backup = call.backup := by
  revert h
  fun_cases Call.next token event call <;> rintro ⟨⟩
  case case1 | case3 => split <;> exact ⟨rfl, rfl⟩
  all_goals exact ⟨rfl, rfl⟩

theorem Call.Fits.next {next : Call} (h : call.Fits u σ) (hnext : call.next token event = some next)
    (htoken : ∀ b, call.task = some b → token → u b = false)
    (hsucceed : event = .succeed → ∀ b, call.task = some b → ¬ σ b) : next.Fits u σ := by
  revert hnext
  fun_cases Call.next token event call <;> rintro ⟨⟩
  case case1 b n =>
    split
    case isTrue hcancelled => exact htoken b rfl hcancelled
    case isFalse => exact h
  case case2 b n => exact h.resolve_right (hsucceed rfl b rfl)
  case case3 =>
    split
    case isTrue => trivial
    case isFalse => exact h
  case case4 b n hcancelled => exact htoken b rfl hcancelled

def Executor.Keeps (s : Executor) (k : ℕ) (call : Call) : Prop :=
  (∀ b, call.backup = some b → b < s.count) ∧
    (∀ b, call.task = some b ↔ s.inFlight b = some k) ∧
    (∀ b, call.task = some b → s.tokens k = true → (s.rows b).unfinished = false) ∧
    call.Fits (fun b ↦ (s.rows b).unfinished) (s.Signalled k)

theorem tracked_of_keeps (h : ∀ k, s.Keeps k (s.calls k)) (hcancels : ∀ c b,
    (s.cancels c).target = some b → b < s.count ∧ (s.rows b).unfinished = false) : Tracked s :=
  ⟨fun k ↦ (h k).1, hcancels, fun k ↦ (h k).2.1, fun k ↦ (h k).2.2.1, fun k ↦ (h k).2.2.2⟩

theorem Executor.Keeps.mono (h : s.Keeps k call) (hcount : s.count ≤ t.count)
    (hentry : ∀ b, t.inFlight b = some k ↔ s.inFlight b = some k)
    (htoken : t.tokens k = true → s.tokens k = true)
    (hrows : ∀ b, call.task = some b → (t.rows b).unfinished = (s.rows b).unfinished)
    (hsignal : ∀ b, call.task = some b → s.Signalled k b → t.Signalled k b) : t.Keeps k call := by
  obtain ⟨hbackup, hentry', htoken', hfits⟩ := h
  exact ⟨fun b hb ↦ (hbackup b hb).trans_le hcount, fun b ↦ (hentry' b).trans (hentry b).symm,
    fun b hb ht ↦ (hrows b hb).trans (htoken' b hb (htoken ht)), hfits.congr hrows hsignal⟩

theorem Executor.Keeps.update (h : s.Keeps k call) (hother : call.task ≠ some b)
    (f : Backup → Backup) : (s.update b f).Keeps k call := by
  refine h.mono le_rfl (fun _ ↦ .rfl) id (fun i hi ↦ ?_) fun _ _ ↦ id
  have hne : i ≠ b := fun heq ↦ hother (heq ▸ hi)
  simp only [Executor.update, update_of_ne hne]

theorem Executor.unfinished_update {f : Backup → Backup} (hf : (f (s.rows b)).unfinished = false)
    {i : ℕ} (hi : (s.rows i).unfinished = false) : ((s.update b f).rows i).unfinished = false :=
  (forall_update_iff s.rows fun i row ↦
    (s.rows i).unfinished = false → row.unfinished = false).mpr ⟨fun _ ↦ hf, fun _ _ ↦ id⟩ i hi

section

variable (h : Tracked s)
include h

namespace Tracked

theorem keeps (k : ℕ) : s.Keeps k (s.calls k) := ⟨h.calls k, h.entry k, h.token k, h.fits k⟩

theorem backup_lt (hcall : s.calls k = call) : ∀ b, call.backup = some b → b < s.count :=
  hcall ▸ h.calls k

theorem fits_of (hcall : s.calls k = call) :
    call.Fits (fun b ↦ (s.rows b).unfinished) (s.Signalled k) :=
  hcall ▸ h.fits k

theorem of_rows {rows : ℕ → Backup} (hrows : ∀ b, (rows b).unfinished = (s.rows b).unfinished) :
    Tracked { s with rows := rows } := by
  refine tracked_of_keeps (fun k ↦ ?_) fun c b hc ↦ ?_
  · exact (h.keeps k).mono le_rfl (fun _ ↦ .rfl) id (fun b _ ↦ hrows b) fun _ _ ↦ id
  · exact ⟨(h.cancels c b hc).1, (hrows b).trans (h.cancels c b hc).2⟩

theorem setCall (hbackup : ∀ b, call.backup = some b → b < s.count)
    (htask : call.task = (s.calls k).task)
    (hfits : call.Fits (fun b ↦ (s.rows b).unfinished) (s.Signalled k)) :
    Tracked (s.setCall k call) :=
  tracked_of_keeps ((forall_update_iff s.calls s.Keeps).mpr
    ⟨⟨hbackup, htask ▸ h.entry k, htask ▸ h.token k, hfits⟩, fun j _ ↦ h.keeps j⟩) h.cancels

section

variable {f : Backup → Backup} (hf : (f (s.rows b)).unfinished = false)
include hf

theorem cancels_update (i : ℕ) (hc : (s.cancels c).target = some i) :
    i < s.count ∧ ((s.update b f).rows i).unfinished = false :=
  ⟨(h.cancels c i hc).1, unfinished_update hf (h.cancels c i hc).2⟩

theorem settle (hother : ∀ j, j ≠ k → (s.calls j).task ≠ some b)
    (hbackup : ∀ b, call.backup = some b → b < s.count) (htask : call.task = (s.calls k).task)
    (hfits : call.Fits (fun i ↦ ((s.update b f).rows i).unfinished) (s.Signalled k)) :
    Tracked ((s.update b f).setCall k call) := by
  refine tracked_of_keeps ((forall_update_iff s.calls (s.update b f).Keeps).mpr
    ⟨⟨hbackup, htask ▸ h.entry k, fun i hi ht ↦ ?_, hfits⟩, fun j hne ↦ ?_⟩)
    fun c ↦ h.cancels_update hf
  · exact unfinished_update hf (h.token k i (htask ▸ hi) ht)
  · exact (h.keeps j).update (hother j hne) f

theorem settleRow (hnone : s.inFlight b = none) : Tracked (s.update b f) := by
  refine tracked_of_keeps (fun j ↦ (h.keeps j).update ?_ f) fun c ↦ h.cancels_update hf
  rw [Ne, h.entry j b, hnone]
  simp

end

omit h in
theorem entry_other {j : ℕ} {holder : Option ℕ} (hold : s.inFlight b ≠ some j)
    (hnew : holder ≠ some j) (i : ℕ) :
    update s.inFlight b holder i = some j ↔ s.inFlight i = some j := by
  rcases eq_or_ne i b with rfl | hne
  · rw [update_self]
    exact iff_of_false hnew hold
  · rw [update_of_ne hne]

theorem spawnTask (hcall : s.calls k = .granted b)
    (hnone : s.inFlight b = none) (hrow : (s.rows b).unfinished) :
    Tracked { s.setCall k (.starting b) with
      tokens := update s.tokens k false
      inFlight := update s.inFlight b (some k) } := by
  refine tracked_of_keeps (fun j ↦ ?_) h.cancels
  rcases eq_or_ne j k with rfl | hne
  · have hbackup := h.calls j
    have hentry := h.entry j
    rw [hcall] at hbackup hentry
    simp only [Executor.setCall, update_self]
    refine ⟨hbackup, fun i ↦ ?_, fun i _ ht ↦ absurd ht (by simp), .inl hrow⟩
    rcases eq_or_ne i b with rfl | hi
    · simp [Call.task]
    · simpa [update_of_ne hi, hi.symm, Call.task] using hentry i
  · simp only [Executor.setCall, update_of_ne hne]
    refine (h.keeps j).mono le_rfl (entry_other (by simp [hnone]) (by simpa using hne.symm)) ?_
      (fun _ _ ↦ rfl) fun i _ hi ↦ ?_
    · simp only [update_of_ne hne, imp_self]
    · simpa only [Executor.Signalled, update_of_ne hne] using hi

theorem removeFromInFlight (hcall : s.calls k = .leaving b) :
    Tracked { s.setCall k .idle with inFlight := update s.inFlight b none } := by
  have hk : s.inFlight b = some k := (h.entry k b).mp (by rw [hcall]; rfl)
  refine tracked_of_keeps (fun j ↦ ?_) h.cancels
  rcases eq_or_ne j k with rfl | hne
  · have hentry := h.entry j
    rw [hcall] at hentry
    simp only [Executor.setCall, update_self]
    refine ⟨nofun, fun i ↦ ?_, nofun, trivial⟩
    rcases eq_or_ne i b with rfl | hi
    · simp [Call.task]
    · simpa [update_of_ne hi, hi.symm, Call.task] using hentry i
  · simp only [Executor.setCall, update_of_ne hne]
    exact (h.keeps j).mono le_rfl (entry_other (by simpa [hk] using hne.symm) (by simp)) id
      (fun _ _ ↦ rfl) fun _ _ ↦ id

theorem cancelBackup (hcancel : s.cancels c = .idle) (hb : b < s.count)
    (hsucceeded : ∀ k, s.calls k ≠ .succeeded b) :
    Tracked ((s.update b Backup.flip).setCancel c (.flipped b)) := by
  have hkept : ∀ i, (s.rows i).unfinished = false →
      ((s.update b Backup.flip).rows i).unfinished = false :=
    fun _ ↦ unfinished_update (flip_finished _)
  have hrow : ((s.update b Backup.flip).rows b).unfinished = false := by
    simp only [Executor.update, update_self, flip_finished]
  have hsignal : ∀ k i, s.Signalled k i →
      ((s.update b Backup.flip).setCancel c (.flipped b)).Signalled k i := by
    rintro k i (htoken | ⟨e, he⟩)
    · exact .inl htoken
    · refine .inr ⟨e, ?_⟩
      have hne : e ≠ c := by
        rintro rfl
        rw [hcancel] at he
        cases he
      simp only [Executor.setCancel, update_of_ne hne]
      exact he
  have hnew : ∀ k, ((s.update b Backup.flip).setCancel c (.flipped b)).Signalled k b :=
    fun k ↦ .inr ⟨c, by simp [Executor.setCancel, Cancel.target]⟩
  refine ⟨h.calls, ?_, h.entry, fun k i hk ht ↦ hkept i (h.token k i hk ht), ?_⟩
  · intro e i he
    simp only [Executor.setCancel, update_apply] at he
    split at he
    case isTrue =>
      cases he
      exact ⟨hb, hrow⟩
    case isFalse => exact ⟨(h.cancels e i he).1, hkept i (h.cancels e i he).2⟩
  · intro k
    change Call.Fits _ _ (s.calls k)
    by_cases htask : (s.calls k).task = some b
    · cases hcall : s.calls k with
      | starting i | attempting i _ | engine i _ =>
        rw [hcall] at htask
        cases htask
        exact .inr (hnew k)
      | succeeded i =>
        rw [hcall] at htask
        cases htask
        exact absurd hcall (hsucceeded k)
      | cancelled i | completing i | failing i | leaving i =>
        exact hkept i (h.fits_of hcall :)
      | _ => trivial
    · refine (h.fits k).congr (fun i hi ↦ ?_) fun i _ ↦ hsignal k i
      have hne : i ≠ b := fun heq ↦ htask (heq ▸ hi)
      simp only [Executor.setCancel, Executor.update, update_of_ne hne]

theorem setCancel {cancel : Cancel}
    (htarget : cancel.target = (s.cancels c).target) : Tracked (s.setCancel c cancel) := by
  have htargets := (forall_update_iff s.cancels fun e cancel ↦
    cancel.target = (s.cancels e).target).mpr ⟨htarget, fun _ _ ↦ rfl⟩
  refine ⟨h.calls, fun e i he ↦ h.cancels e i (htargets e ▸ he), h.entry, h.token, fun k ↦ ?_⟩
  refine (h.fits k).congr (fun _ _ ↦ rfl) fun i _ hi ↦ ?_
  exact hi.imp id fun ⟨e, he⟩ ↦ ⟨e, (htargets e).trans he⟩

theorem cancelEnd
    (hsignal : ∀ k i, (s.calls k).task = some i → (s.cancels c).target = some i → s.tokens k) :
    Tracked (s.setCancel c .idle) := by
  have htargets : ∀ e i, ((s.setCancel c .idle).cancels e).target = some i →
      (s.cancels e).target = some i := by
    intro e i he
    simp only [Executor.setCancel, update_apply] at he
    split at he
    case isTrue => cases he
    case isFalse => exact he
  refine ⟨h.calls, fun e i he ↦ h.cancels e i (htargets e i he), h.entry, h.token, fun k ↦ ?_⟩
  refine (h.fits k).congr (fun _ _ ↦ rfl) fun i hi hsignalled ↦ ?_
  rcases hsignalled with htoken | ⟨e, he⟩
  · exact .inl htoken
  · rcases eq_or_ne e c with rfl | hne
    · exact .inl (hsignal k i hi he)
    · refine .inr ⟨e, ?_⟩
      simp only [Executor.setCancel, update_of_ne hne]
      exact he

theorem fire (hentry : s.inFlight b = some k) (hrow : (s.rows b).unfinished = false) :
    Tracked { s with tokens := update s.tokens k true } := by
  refine ⟨h.calls, h.cancels, h.entry, fun j i hj htoken ↦ ?_, fun j ↦ ?_⟩
  · rcases eq_or_ne j k with rfl | hne
    · have htask := (h.entry j b).mpr hentry
      obtain rfl : i = b := some.inj (hj.symm.trans htask)
      exact hrow
    · simp only [update_of_ne hne] at htoken
      exact h.token j i hj htoken
  · refine (h.fits j).congr (fun _ _ ↦ rfl) fun i _ hi ↦ hi.imp_left fun htoken ↦ ?_
    change update s.tokens k true j
    rw [update_apply]
    split
    case isTrue => rfl
    case isFalse => exact htoken

theorem insertRows (children : List Bool) (scheduled : Bool) :
    Tracked (s.insertRows children scheduled) := by
  refine tracked_of_keeps (fun k ↦ ?_) fun c b hc ↦ ?_
  · refine (h.keeps k).mono (Nat.le_add_right ..) (fun _ ↦ .rfl) id (fun b hb ↦ ?_) fun _ _ ↦ id
    rw [rows_insertRows _ _ (h.lt_of_task hb)]
  · obtain ⟨hb, hrow⟩ := h.cancels c b hc
    refine ⟨Nat.lt_add_right _ hb, ?_⟩
    rwa [rows_insertRows _ _ hb]

theorem markRunFinished (b : ℕ) : Tracked (s.markRunFinished b) := by
  obtain ⟨finished, heq⟩ := s.markRunFinished_eq b
  rw [heq]
  exact { h with }

theorem engine (ha : Orderly s (.engine k event))
    (hcall : (s.calls k).next (s.tokens k) event = some call) : Tracked (s.setCall k call) := by
  obtain ⟨htask, hbackup⟩ := Call.task_next hcall
  refine h.setCall (hbackup ▸ h.calls k) htask ((h.fits k).next hcall (h.token k) ?_)
  intro hsucceed b hb hsignalled
  subst hsucceed
  rcases hsignalled with hsignal | ⟨c, hc⟩
  · simp [ha.1] at hsignal
  · exact ha.2 b hb c hc

theorem only_task (hk : (s.calls k).task = some b) {j : ℕ} (hne : j ≠ k) :
    (s.calls j).task ≠ some b := by
  rw [Ne, h.entry j b, (h.entry k b).mp hk]
  simpa using hne.symm

theorem step (hin : InProcess a) (ha : Orderly s a) (hstep : s.step a = some t) : Tracked t := by
  cases step_move hstep with
  | insertRows => exact h.insertRows _ _
  | spawn hcall hb =>
    refine h.setCall (fun i hi ↦ ?_) (by rw [hcall]; rfl) trivial
    cases hi
    exact hb
  | spawnUnknown => exact h.settleRow (markFailed_finished _) ha
  | spawnUnavailable hcall hb =>
    refine (h.settleRow (markFailed_finished _) ha).setCall (fun i hi ↦ ?_) ?_ trivial
    · cases hi
      exact hb
    · change _ = (s.calls _).task
      rw [hcall]
      rfl
  | spawnUnavailableLate => exact h
  | @acquire k b hcall =>
    have hcalled : Tracked (s.setCall k (.granted b)) :=
      h.setCall (h.backup_lt hcall :) (by rw [hcall]; rfl) trivial
    exact { hcalled with }
  | spawnTask hcall hnone => exact h.spawnTask hcall hnone (ha _ hcall)
  | @alreadyInFlight k b hcall =>
    have hcalled : Tracked (s.setCall k .idle) := h.setCall nofun (by rw [hcall]; rfl) trivial
    exact { hcalled with }
  | @markRunning k b hcall =>
    have hcalled : Tracked (s.setCall k (.attempting b 0)) :=
      h.setCall (h.backup_lt hcall :) (by rw [hcall]; rfl) (h.fits_of hcall :)
    exact hcalled.of_rows <| (forall_update_iff s.rows fun i row ↦
      row.unfinished = (s.rows i).unfinished).mpr ⟨markRunning_unfinished _, fun _ _ ↦ rfl⟩
  | engine hcall => exact h.engine ha hcall
  | panic => exact ha.elim
  | @finalizeCompleted k b hcall =>
    have htask : (s.calls k).task = some b := by rw [hcall]; rfl
    refine h.settle rfl (fun j ↦ h.only_task htask) (h.backup_lt hcall :) htask.symm ?_
    simp [Call.Fits, Executor.update, Backup.finalizeCompleted, Backup.unfinished,
      JobState.unfinished]
  | @finalizeFailed k b hcall =>
    have htask : (s.calls k).task = some b := by rw [hcall]; rfl
    have hrow := markFailed_finished (s.rows b)
    split
    case isTrue | isFalse =>
      refine h.settle hrow (fun j ↦ h.only_task htask) (h.backup_lt hcall :) htask.symm ?_
      simpa [Call.Fits, Executor.update] using hrow
  | @markRunFinished k b call hcall =>
    have hbackup := h.calls k
    have hfits := h.fits k
    have htask : call.task = (s.calls k).task ∧
        (∀ i, call.backup = some i → (s.calls k).backup = some i) ∧
        call.Fits (fun b ↦ (s.rows b).unfinished) (s.Signalled k) := by
      cases hk : s.calls k <;> rw [hk] at hcall hfits <;> cases hcall <;>
        first | exact ⟨rfl, fun _ ↦ id, hfits⟩ | exact ⟨rfl, nofun, trivial⟩
    obtain ⟨htask, hsame, hfits⟩ := htask
    obtain ⟨finished, heq⟩ := s.markRunFinished_eq b
    rw [heq]
    exact { h.setCall (fun i hi ↦ hbackup i (hsame i hi)) htask hfits with }
  | removeFromInFlight hcall => exact { h.removeFromInFlight hcall with }
  | cancelBackup hcancel hb => exact h.cancelBackup hcancel hb ha
  | cancelMark hcancel =>
    refine (h.markRunFinished _).setCancel ?_
    obtain ⟨finished, heq⟩ := s.markRunFinished_eq _
    rw [heq, hcancel]
    rfl
  | @cancelFire c b k hcancel hentry =>
    have htarget : (s.cancels c).target = some b := by rw [hcancel]; rfl
    have hfired := h.fire hentry (h.cancels c b htarget).2
    have hended := hfired.cancelEnd (c := c) fun j i hj hi ↦ ?_
    · exact { hended with }
    · obtain rfl : b = i := some.inj (htarget.symm.trans hi)
      have hjk : j = k := some.inj (((h.entry j b).mp hj).symm.trans hentry)
      simp [hjk]
  | @cancelFireNone c b hcancel hentry =>
    refine h.cancelEnd fun j i hj hi ↦ ?_
    have htarget : (s.cancels c).target = some b := by rw [hcancel]; rfl
    obtain rfl : b = i := some.inj (htarget.symm.trans hi)
    have := (h.entry j b).mp hj
    simp [hentry] at this
  | crash | reconcileOrphans => exact hin.elim

end Tracked

end

theorem tracked_init (maxConcurrent : ℕ) : Tracked (.init maxConcurrent) where
  calls := nofun
  cancels := nofun
  entry := by simp [Executor.init, Call.task]
  token := nofun
  fits := fun _ ↦ trivial

theorem Call.next_engine {n : ℕ} (h : call.next token event = some (.engine b n)) :
    event = .attempt ∧ call = .attempting b n ∧ token = false := by
  revert h
  fun_cases Call.next token event call
  case case1 =>
    cases token
    · rintro ⟨⟩
      exact ⟨rfl, rfl, rfl⟩
    · rintro ⟨⟩
  case case3 => split <;> rintro ⟨⟩
  all_goals rintro ⟨⟩

theorem Call.task_marking {next : Call} (h : call.marking = some (b, next)) :
    next.task = call.task ∧ ∀ i n, next ≠ .engine i n := by
  cases call <;> cases h <;> exact ⟨rfl, nofun⟩

inductive CallChange (s : Executor) (a : Act) (t : Executor) (k : ℕ) : Prop
  | engine {event : Event} (ha : a = .engine k event)
      (hnext : (s.calls k).next (s.tokens k) event = some (t.calls k))
  | panic (ha : a = .panic k) (hengine : ∀ b n, t.calls k ≠ .engine b n)
  | leave {b : ℕ} (hcall : s.calls k = .leaving b) (hengine : ∀ b n, t.calls k ≠ .engine b n)
      (hrows : t.rows = s.rows) (hentry : t.inFlight b = none)
  | other (hengine : ∀ b n, t.calls k ≠ .engine b n)
      (htask : ∀ b, (s.calls k).task = some b → (t.calls k).task = some b)

section

variable (hin : InProcess a) (hstep : s.step a = some t)
include hin hstep

theorem Tracked.row_stays (h : Tracked s)
    (hb : b < s.count) (hrow : (s.rows b).unfinished = false) : t.rows b = s.rows b := by
  cases step_move hstep with
  | insertRows => exact rows_insertRows _ _ hb
  | spawnUnknown | spawnUnavailable | finalizeFailed =>
    exact rows_update_of_fixed fun heq ↦ markFailed_of_finished (heq ▸ hrow)
  | markRunning =>
    exact rows_update_of_fixed fun heq ↦ markRunning_of_finished (heq ▸ hrow)
  | @finalizeCompleted k i hcall =>
    refine rows_update_of_fixed fun heq ↦ ?_
    exact nomatch (heq ▸ h.fits_of hcall).symm.trans hrow
  | markRunFinished | cancelMark =>
    obtain ⟨finished, heq⟩ := s.markRunFinished_eq _
    rw [heq]
    rfl
  | cancelBackup =>
    exact rows_update_of_fixed fun heq ↦ flip_of_finished (heq ▸ hrow)
  | crash | reconcileOrphans => exact hin.elim
  | _ => rfl

theorem callChange (hne : t.calls k ≠ s.calls k) : CallChange s a t k := by
  have hset {j : ℕ} {call : Call} (hcalls : t.calls = update s.calls j call)
      (h : t.calls j = call → CallChange s a t j) : CallChange s a t k := by
    rw [hcalls, update_apply] at hne
    split at hne
    case isTrue heq => exact heq ▸ h (hcalls ▸ update_self ..)
    case isFalse => exact absurd rfl hne
  cases step_move hstep with
  | insertRows | spawnUnknown | spawnUnavailableLate | cancelBackup | cancelFire | cancelFireNone =>
    exact absurd rfl hne
  | cancelMark => exact absurd (congrFun (calls_markRunFinished _) k) hne
  | spawn hcall | spawnUnavailable hcall | acquire hcall | spawnTask hcall | alreadyInFlight hcall =>
    exact hset rfl fun hnew ↦ .other (by rw [hnew]; nofun) (by rw [hcall]; nofun)
  | markRunning hcall | finalizeCompleted hcall =>
    exact hset rfl fun hnew ↦ .other (by rw [hnew]; nofun) (by rw [hnew, hcall]; exact fun _ ↦ id)
  | finalizeFailed hcall =>
    refine hset rfl fun hnew ↦ .other ?_ ?_ <;> rw [hnew]
    · split <;> nofun
    · rw [hcall]
      split <;> exact fun _ ↦ id
  | @markRunFinished j i call hcall =>
    have hcalls := congrArg (update · j call) (calls_markRunFinished (s := s) i)
    refine hset hcalls fun hnew ↦ .other ?_ ?_ <;> rw [hnew]
    · exact (Call.task_marking hcall).2
    · exact fun _ ↦ (Call.task_marking hcall).1.trans
  | engine hcall => exact hset rfl fun hnew ↦ .engine rfl (hnew.symm ▸ hcall)
  | panic => exact hset rfl fun hnew ↦ .panic rfl (by rw [hnew]; nofun)
  | removeFromInFlight hcall =>
    exact hset rfl fun hnew ↦ .leave hcall (by rw [hnew]; nofun) rfl (update_self ..)
  | crash | reconcileOrphans => exact hin.elim

theorem engine_starts {n : ℕ} (hs : s.calls k ≠ .engine b n) (ht : t.calls k = .engine b n) :
    a = .engine k .attempt ∧ s.calls k = .attempting b n ∧ s.tokens k = false := by
  cases callChange hin hstep (fun heq ↦ hs (heq ▸ ht)) with
  | panic _ hengine | leave _ hengine | other hengine => exact absurd ht (hengine b n)
  | engine ha hnext =>
    obtain ⟨rfl, hcall, htoken⟩ := Call.next_engine (ht ▸ hnext)
    exact ⟨ha, hcall, htoken⟩

theorem task_ends (ha : Orderly s a)
    (hs : (s.calls k).task = some b) (ht : (t.calls k).task = none) :
    s.calls k = .leaving b ∧ t.rows = s.rows ∧ t.inFlight b = none := by
  have hne : t.calls k ≠ s.calls k := fun heq ↦ by simp [heq, hs] at ht
  cases callChange hin hstep hne with
  | engine _ hnext => simp [(Call.task_next hnext).1, hs] at ht
  | other _ htask => simp [htask b hs] at ht
  | panic hpanic =>
    subst hpanic
    exact ha.elim
  | leave hcall _ hrows hentry =>
    rw [hcall] at hs
    cases hs
    exact ⟨hcall, hrows, hentry⟩

end

/-- In every run at most one engine works on a backup; no engine run starts for a terminal row; a
terminal row keeps its state; and a task ends with a terminal row and without an entry. -/
theorem terminal_backups_stay (maxConcurrent : ℕ)
    (h : Reaches Executor.step (fun s a ↦ InProcess a ∧ Orderly s a) (.init maxConcurrent) s) :
    (∀ k j b n m, s.calls k = .engine b n → s.calls j = .engine b m → k = j) ∧
    ∀ a t, InProcess a → Orderly s a → s.step a = some t →
      (∀ k b n, s.calls k ≠ .engine b n → t.calls k = .engine b n → (s.rows b).unfinished = true) ∧
      (∀ b < s.count, (s.rows b).unfinished = false → (t.rows b).state = (s.rows b).state) ∧
      (∀ k b, (s.calls k).task = some b → (t.calls k).task = none →
        (t.rows b).unfinished = false ∧ t.inFlight b = none) := by
  have hs : Tracked s :=
    h.invariant (fun hs ha hstep ↦ hs.step ha.1 ha.2 hstep) (tracked_init maxConcurrent)
  refine ⟨fun k j b n m hk hj ↦ ?_, fun a t hin ha hstep ↦ ⟨?_, ?_, ?_⟩⟩
  · have hentry := (hs.entry k b).mp (by rw [hk]; rfl)
    exact some.inj (hentry.symm.trans ((hs.entry j b).mp (by rw [hj]; rfl)))
  · intro k b n hnot hstarts
    obtain ⟨rfl, hcall, htoken⟩ := engine_starts hin hstep hnot hstarts
    refine (hs.fits_of hcall).resolve_right ?_
    rintro (hsignal | ⟨c, hc⟩)
    · simp [htoken] at hsignal
    · exact ha b (by rw [hcall]; rfl) c hc
  · exact fun b hb hrow ↦ congrArg Backup.state (hs.row_stays hin hstep hb hrow)
  · intro k b htask hends
    obtain ⟨hcall, hrows, hentry⟩ := task_ends hin hstep ha htask hends
    exact ⟨hrows ▸ hs.fits_of hcall, hentry⟩

theorem terminal_backups_stay_cancelled :
    ∃ s, Reaches Executor.step (fun s a ↦ InProcess a ∧ Orderly s a) (.init 1) s ∧
      s.calls 0 = .leaving 0 ∧ ∃ t, s.step (.removeFromInFlight 0) = some t ∧
      (t.rows 0).state = .failed ∧ (t.rows 0).unfinished = false ∧ t.inFlight 0 = none := by
  have hwaiting : Reaches Executor.step (fun s a ↦ InProcess a ∧ Orderly s a) (.init 1) _ :=
    Reaches.refl.run [.insertRows [true] false, .spawn 0 0, .acquire 0]
      (by simp [InProcess, Orderly]) rfl
  have hstarted := hwaiting.snoc (a := Act.spawnTask 0) ⟨trivial, fun b hb ↦ by cases hb; rfl⟩ rfl
  have hengine := (hstarted.snoc (a := Act.markRunning 0) ⟨trivial, trivial⟩ rfl).snoc
    (a := Act.engine 0 .attempt) ⟨trivial, nofun⟩ rfl
  have hflipped := hengine.snoc (a := Act.cancelBackup 0 0)
    ⟨trivial, fun k ↦ by
      rw [calls_setCall]
      split
      case isTrue => exact nofun
      case isFalse hk =>
        simp [Executor.setCall, Executor.update, Executor.insertRows, Executor.init, hk]⟩ rfl
  have hleaving := hflipped.run [.cancelMark 0, .cancelFire 0, .engine 0 .observeCancel,
    .markRunFinished 0] (by simp [InProcess, Orderly]) rfl
  have hends := (terminal_backups_stay 1 hleaving).2 (.removeFromInFlight 0) _ trivial trivial rfl
  exact ⟨_, hleaving, rfl, _, rfl, rfl, hends.2.2 0 0 rfl rfl⟩

/-- A backup that is cancelled while its spawn waits is run all the same, and its row goes from
failed to completed. A task whose engine panics leaves its row running and its entry in place. -/
theorem cancelled_backup_runs :
    (∃ s t u v, Reaches Executor.step (fun _ a ↦ InProcess a) (.init 1) s ∧
      (s.rows 0).state = .failed ∧ s.calls 0 = .attempting 0 0 ∧
      s.step (.engine 0 .attempt) = some t ∧ t.calls 0 = .engine 0 0 ∧
      t.step (.engine 0 .succeed) = some u ∧ u.step (.finalizeCompleted 0) = some v ∧
      (u.rows 0).state = .failed ∧ (v.rows 0).state = .completed) ∧
    (∃ s t, Reaches Executor.step (fun _ a ↦ InProcess a) (.init 1) s ∧
      (s.calls 0).task = some 0 ∧ s.step (.panic 0) = some t ∧ (t.calls 0).task = none ∧
      (t.rows 0).state = .running ∧ t.inFlight 0 = some 0) := by
  have hwaiting : Reaches Executor.step (fun _ a ↦ InProcess a) (.init 1) _ :=
    Reaches.refl.run [.insertRows [true] false, .spawn 0 0] (by simp [InProcess]) rfl
  have hstarted := hwaiting.run [.cancelBackup 0 0, .cancelMark 0, .cancelFire 0, .acquire 0,
    .spawnTask 0, .markRunning 0] (by simp [InProcess]) rfl
  have hengine := hwaiting.run [.acquire 0, .spawnTask 0, .markRunning 0, .engine 0 .attempt]
    (by simp [InProcess]) rfl
  exact ⟨⟨_, _, _, _, hstarted, rfl, rfl, rfl, rfl, rfl, rfl, rfl, rfl⟩,
    ⟨_, _, hengine, rfl, rfl, rfl, rfl, rfl⟩⟩

end Temps.BackupCore
