import Temps.BackupCore.Executor

namespace Temps.BackupCore

open Lib.Machine List Function Executor BackupCore.Backup

variable {s t : Executor} {a : Act} {r : Backup} {k c b run : ℕ} {call : Call}

/-- The backup and its child are both unfinished, or in the same terminal state. -/
def Backup.Agrees (r : Backup) : Prop :=
  ∀ child, r.child = some child →
    (r.unfinished = true ∧ child.unfinished = true) ∨ (r.unfinished = false ∧ child = r.state)

def Executor.Done (s : Executor) (run : ℕ) : Prop :=
  ∀ i, (s.rows i).run = some run → (s.rows i).unfinished = false

/-- A cancellation flips no row with an unfinished child; a spawn with an unknown engine does not
fail the last unfinished backup of a schedule run; no crash comes while a schedule run waits to be
marked; and a reconciliation finds no unfinished backup with a child or a schedule run. -/
def Recorded (s : Executor) : Act → Prop
  | .cancelBackup _ b => (s.rows b).unfinished = true → (s.rows b).child = none
  | .spawnUnknown b =>
    (s.rows b).unfinished = true → ∀ run, (s.rows b).run = some run →
      ∃ i ≠ b, (s.rows i).run = some run ∧ (s.rows i).unfinished = true
  | .crash => ∀ run < s.runCount, s.Done run → s.finished run = true
  | .reconcileOrphans =>
    ∀ b, (s.rows b).unfinished = true → (s.rows b).child = none ∧ (s.rows b).run = none
  | _ => True

def Executor.Owes (s : Executor) (run : ℕ) : Prop :=
  (∃ k b next, (s.calls k).marking = some (b, next) ∧ (s.rows b).run = some run) ∨
    ∃ c b, s.cancels c = .flipped b ∧ (s.rows b).run = some run

structure Agreed (s : Executor) : Prop where
  rows : ∀ b, (s.rows b).Agrees
  runs : ∀ b run, (s.rows b).run = some run → b < s.count ∧ run < s.runCount
  fresh : ∀ run, s.runCount ≤ run → s.finished run = false
  finished : ∀ run, s.finished run = true → s.Done run
  owes : ∀ run < s.runCount, s.finished run = false → s.Done run → s.Owes run

theorem Backup.Agrees.child_live (h : r.Agrees) (hlive : r.unfinished) {child : JobState}
    (hchild : r.child = some child) : child.unfinished := by
  rcases h child hchild with hboth | hdone
  · exact hboth.2
  · exact nomatch hlive.symm.trans hdone.1

theorem Backup.Agrees.markRunning (h : r.Agrees) : r.markRunning.Agrees := by
  rw [Backup.markRunning]
  split
  case isTrue hpending =>
    intro child hchild
    obtain ⟨old, hold, rfl⟩ := Option.map_eq_some_iff.mp hchild
    have hlive : r.unfinished := by rw [Backup.unfinished, hpending]; rfl
    refine .inl ⟨rfl, ?_⟩
    split
    · rfl
    · exact h.child_live hlive hold
  case isFalse => exact h

theorem Backup.Agrees.markFailed (h : r.Agrees) : r.markFailed.Agrees := by
  rw [Backup.markFailed]
  split
  case isTrue hlive =>
    intro child hchild
    obtain ⟨old, hold, rfl⟩ := Option.map_eq_some_iff.mp hchild
    exact .inr ⟨rfl, if_pos (h.child_live hlive hold)⟩
  case isFalse => exact h

theorem Backup.finalizeCompleted_agrees (r : Backup) : r.finalizeCompleted.Agrees := by
  intro child hchild
  obtain ⟨old, -, rfl⟩ := Option.map_eq_some_iff.mp hchild
  exact .inr ⟨rfl, rfl⟩

theorem Backup.Agrees.flip (h : r.Agrees) (hchild : r.unfinished → r.child = none) :
    r.flip.Agrees := by
  rw [Backup.flip]
  split
  case isTrue hlive =>
    intro child hsome
    cases (hchild hlive).symm.trans hsome
  case isFalse => exact h

theorem Backup.new_agrees (child : Bool) (run : Option ℕ) : (Backup.new child run).Agrees := by
  intro state hstate
  cases child with
  | true =>
    cases hstate
    exact .inl ⟨rfl, rfl⟩
  | false => cases hstate

theorem Agreed.advance (h : Agreed s) (hcount : t.count = s.count)
    (hruns : t.runCount = s.runCount) (hfinished : t.finished = s.finished)
    (hrun : ∀ b, (t.rows b).run = (s.rows b).run)
    (hrow : ∀ b, (t.rows b).unfinished → (s.rows b).unfinished)
    (hrows : ∀ b, (t.rows b).Agrees) (howes : ∀ run, s.Owes run → t.Owes run)
    (hnew : ∀ b run, (s.rows b).run = some run → (s.rows b).unfinished →
      (t.rows b).unfinished = false → t.Done run → t.Owes run) : Agreed t where
  rows := hrows
  runs := fun b run hb ↦ hcount ▸ hruns ▸ h.runs b run (hrun b ▸ hb)
  fresh := fun run hrun ↦ hfinished ▸ h.fresh run (hruns ▸ hrun)
  finished := by
    intro run hdone i hi
    by_contra hlive
    have hlive : (s.rows i).unfinished := hrow i (by simpa using hlive)
    have hterminal := h.finished run (hfinished ▸ hdone) i (hrun i ▸ hi)
    exact nomatch hlive.symm.trans hterminal
  owes := by
    intro run hlt hopen hdone
    by_cases hbefore : s.Done run
    · exact howes run (h.owes run (hruns ▸ hlt) (hfinished ▸ hopen) hbefore)
    · obtain ⟨i, hi⟩ := not_forall.mp hbefore
      obtain ⟨hi, hlive⟩ := Classical.not_imp.mp hi
      exact hnew i run hi (by simpa using hlive) (hdone i ((hrun i).trans hi)) hdone

theorem Backup.run_markRunning (r : Backup) : r.markRunning.run = r.run := by
  fun_cases Backup.markRunning r <;> rfl

theorem Backup.run_markFailed (r : Backup) : r.markFailed.run = r.run := by
  fun_cases Backup.markFailed r <;> rfl

theorem Backup.run_flip (r : Backup) : r.flip.run = r.run := by
  fun_cases Backup.flip r <;> rfl

variable {f : Backup → Backup} {next : Call}

theorem Agreed.update (h : Agreed s) (hrows : t.rows = (s.update b f).rows)
    (hcount : t.count = s.count) (hruns : t.runCount = s.runCount)
    (hfinished : t.finished = s.finished) (hrun : (f (s.rows b)).run = (s.rows b).run)
    (hrow : (f (s.rows b)).unfinished → (s.rows b).unfinished)
    (hagrees : (f (s.rows b)).Agrees) (howes : ∀ run, s.Owes run → t.Owes run)
    (hnew : ∀ run, (s.rows b).run = some run → (s.rows b).unfinished →
      (f (s.rows b)).unfinished = false → t.Done run → t.Owes run) : Agreed t := by
  have hrow' (P : ℕ → Backup → Prop) (hself : P b (f (s.rows b))) (hother : ∀ i, P i (s.rows i))
      (i : ℕ) : P i (t.rows i) := by
    rw [hrows]
    exact (forall_update_iff s.rows P).mpr ⟨hself, fun i _ ↦ hother i⟩ i
  refine h.advance hcount hruns hfinished
    (hrow' (fun i row ↦ row.run = (s.rows i).run) hrun fun _ ↦ rfl)
    (hrow' (fun i row ↦ row.unfinished → (s.rows i).unfinished) hrow fun _ ↦ id)
    (hrow' (fun _ ↦ Agrees) hagrees h.rows) howes (hrow' (fun i row ↦ ∀ run,
      (s.rows i).run = some run → (s.rows i).unfinished → row.unfinished = false → t.Done run →
        t.Owes run) hnew fun i run _ hlive hdone ↦ ?_)
  rw [hlive] at hdone
  cases hdone

theorem Executor.Owes.mono (h : s.Owes run) (hrun : ∀ b, (t.rows b).run = (s.rows b).run)
    (hcalls : ∀ k b next, (s.calls k).marking = some (b, next) → t.calls k = s.calls k)
    (hcancels : ∀ c b, s.cancels c = .flipped b → t.cancels c = s.cancels c) : t.Owes run := by
  rcases h with ⟨k, b, next, hk, hb⟩ | ⟨c, b, hc, hb⟩
  · exact .inl ⟨k, b, next, hcalls k b next hk ▸ hk, (hrun b).trans hb⟩
  · exact .inr ⟨c, b, (hcancels c b hc).trans hc, (hrun b).trans hb⟩

theorem Executor.calls_of_marking (hk : (s.calls k).marking = none) {j i : ℕ}
    (hj : (s.calls j).marking = some (i, next)) : (s.setCall k call).calls j = s.calls j := by
  rw [calls_setCall]
  refine if_neg ?_
  rintro rfl
  rw [hk] at hj
  cases hj

theorem Executor.cancels_of_flipped (hc : ∀ b, s.cancels c ≠ .flipped b) {cancel : Cancel} {e i : ℕ}
    (he : s.cancels e = .flipped i) : (s.setCancel c cancel).cancels e = s.cancels e := by
  refine update_of_ne ?_ _ _
  rintro rfl
  exact hc i he

theorem Executor.run_update (hf : (f (s.rows b)).run = (s.rows b).run) (i : ℕ) :
    ((s.update b f).rows i).run = (s.rows i).run :=
  (forall_update_iff s.rows fun i row ↦ row.run = (s.rows i).run).mpr
    ⟨hf, fun _ _ ↦ rfl⟩ i

theorem Executor.not_liveIn (h : Agreed s) : s.liveIn run = false ↔ s.Done run := by
  simp only [Executor.liveIn, any_eq_false, mem_range, decide_eq_true_eq, not_and, Bool.not_eq_true]
  refine ⟨fun hnone i hi ↦ hnone i (h.runs i run hi).1 hi, fun hdone i _ hi ↦ hdone i hi⟩

theorem Agreed.mark (h : Agreed s) (calls : ℕ → Call) (cancels : ℕ → Cancel)
    (howes : ∀ run, (s.rows b).run ≠ some run → s.Owes run →
      ({ s with calls := calls, cancels := cancels } : Executor).Owes run) :
    Agreed { s.markRunFinished b with calls := calls, cancels := cancels } := by
  fun_cases Executor.markRunFinished s b
  case case1 hnone =>
    refine { h with owes := fun i hlt hopen hall ↦ howes i ?_ (h.owes i hlt hopen hall) }
    simp [hnone]
  case case2 run hrun hlive =>
    have hnot : ¬ s.Done run := by
      rw [← not_liveIn h, hlive]
      simp
    refine { h with owes := fun i hlt hopen hall ↦ howes i (fun heq ↦ ?_) (h.owes i hlt hopen hall) }
    exact hnot (Option.some.inj (hrun.symm.trans heq) ▸ hall)
  case case3 run hrun hnotLive =>
    have hall : s.Done run := (not_liveIn h).mp (by simpa using hnotLive)
    refine { h with fresh := fun i hi ↦ ?_, finished := ?_, owes := fun i hlt hopen hi ↦ ?_ }
    · have hne : i ≠ run := (Nat.lt_of_lt_of_le (h.runs b run hrun).2 hi).ne'
      exact (update_of_ne hne ..).trans (h.fresh i hi)
    · exact (forall_update_iff s.finished fun i done ↦ done → s.Done i).mpr
        ⟨fun _ ↦ hall, fun i _ ↦ h.finished i⟩
    · have hne : i ≠ run := by
        rintro rfl
        simp at hopen
      refine howes i (fun heq ↦ hne ?_) (h.owes i hlt ((update_of_ne hne ..).symm.trans hopen) hi)
      exact Option.some.inj (heq.symm.trans hrun)

theorem Executor.rows_insertRows_cases (s : Executor) (children : List Bool) (scheduled : Bool)
    (i : ℕ) :
    (s.insertRows children scheduled).rows i = s.rows i ∨
      i < s.count + children.length ∧ ∃ child, (s.insertRows children scheduled).rows i =
        .new child (if scheduled then some s.runCount else none) := by
  simp only [Executor.insertRows]
  split
  case h_1 child hchild =>
    split
    case isTrue hle =>
      obtain ⟨hlt, -⟩ := List.getElem?_eq_some_iff.mp hchild
      exact .inr ⟨by omega, child, rfl⟩
    case isFalse => exact .inl rfl
  case h_2 => exact .inl rfl

theorem Agreed.insertRows (h : Agreed s) {children : List Bool} (hsome : children ≠ [])
    (scheduled : Bool) : Agreed (s.insertRows children scheduled) := by
  have hcases := s.rows_insertRows_cases children scheduled
  have hnew : ∀ {child i}, (Backup.new child (if scheduled then some s.runCount else none)).run =
      some i → scheduled ∧ i = s.runCount := by
    intro child i hi
    cases scheduled with
    | true => exact ⟨rfl, (Option.some.inj hi).symm⟩
    | false => cases hi
  have hold : ∀ i run, run < s.runCount → ((s.insertRows children scheduled).rows i).run = some run →
      (s.insertRows children scheduled).rows i = s.rows i := by
    intro i run hrun hi
    rcases hcases i with heq | ⟨-, child, heq⟩
    · exact heq
    · rw [heq] at hi
      exact absurd (hnew hi).2 (Nat.ne_of_lt hrun)
  have hkept : ∀ i run, (s.rows i).run = some run →
      (s.insertRows children scheduled).rows i = s.rows i :=
    fun i run hi ↦ rows_insertRows _ _ (h.runs i run hi).1
  have hle : s.runCount ≤ (s.insertRows children scheduled).runCount := by
    simp only [Executor.insertRows]
    split <;> omega
  refine ⟨fun i ↦ ?_, fun i run hi ↦ ?_, fun run hrun ↦ h.fresh run (Nat.le_trans hle hrun), ?_, ?_⟩
  · rcases hcases i with heq | ⟨-, child, heq⟩
    · exact heq ▸ h.rows i
    · exact heq ▸ new_agrees _ _
  · rcases hcases i with heq | ⟨hlt, child, heq⟩
    · obtain ⟨hi, hrun⟩ := h.runs i run (heq ▸ hi)
      exact ⟨Nat.lt_add_right _ hi, Nat.lt_of_lt_of_le hrun hle⟩
    · rw [heq] at hi
      obtain ⟨rfl, rfl⟩ := hnew hi
      exact ⟨hlt, Nat.lt_succ_self _⟩
  · intro run hfinished i hi
    have hrun : run < s.runCount := by
      by_contra hge
      have := h.fresh run (Nat.not_lt.mp hge)
      cases hfinished.symm.trans this
    have heq := hold i run hrun hi
    rw [heq] at hi ⊢
    exact h.finished run hfinished i hi
  · intro run hlt hopen hdone
    by_cases hrun : run < s.runCount
    · have hbefore : s.Done run := by
        intro i hi
        have hi' := hkept i run hi
        exact hi' ▸ hdone i (hi'.symm ▸ hi)
      rcases h.owes run hrun hopen hbefore with ⟨k, b, next, hk, hb⟩ | ⟨c, b, hc, hb⟩
      · exact .inl ⟨k, b, next, hk, hkept b run hb ▸ hb⟩
      · exact .inr ⟨c, b, hc, hkept b run hb ▸ hb⟩
    · -- the first row of a new schedule run is pending
      obtain ⟨first, rest, rfl⟩ := exists_cons_of_ne_nil hsome
      have hfirst : (s.insertRows (first :: rest) scheduled).rows s.count =
          .new first (if scheduled then some s.runCount else none) := by
        simp [Executor.insertRows]
      cases scheduled with
      | false => exact absurd hlt hrun
      | true =>
        obtain rfl : run = s.runCount := Nat.le_antisymm (Nat.lt_succ_iff.mp hlt) (Nat.not_lt.mp hrun)
        have := hdone s.count (by rw [hfirst]; rfl)
        rw [hfirst] at this
        cases this

theorem Agreed.settle (h : Agreed s) (hk : (s.calls k).marking = none)
    (hrun : (f (s.rows b)).run = (s.rows b).run) (hagrees : (f (s.rows b)).Agrees)
    (hf : (f (s.rows b)).unfinished → (s.rows b).unfinished)
    (hcall : (s.rows b).unfinished → (f (s.rows b)).unfinished = false →
      ∃ next, call.marking = some (b, next)) :
    Agreed ((s.update b f).setCall k call) := by
  refine h.update rfl rfl rfl rfl hrun hf hagrees (fun run howes ↦ ?_) fun run hb hlive hends _ ↦ ?_
  · exact howes.mono (run_update hrun)
      (fun j i next hj ↦ calls_of_marking hk hj) fun _ _ _ ↦ rfl
  · obtain ⟨next, hnext⟩ := hcall hlive hends
    refine .inl ⟨k, b, next, ?_, (run_update hrun b).trans hb⟩
    rw [calls_setCall, if_pos rfl, hnext]

theorem Agreed.step (h : Agreed s) (ha : Recorded s a) (hstep : s.step a = some t) : Agreed t := by
  have hcalls {k call} (hk : (s.calls k).marking = none) (run) (hlt : run < s.runCount)
      (hopen : s.finished run = false) (hdone : s.Done run) : (s.setCall k call).Owes run :=
    (h.owes run hlt hopen hdone).mono (fun _ ↦ rfl) (fun j i next hj ↦ calls_of_marking hk hj)
      fun _ _ _ ↦ rfl
  cases step_move hstep with
  | insertRows hsome => exact h.insertRows hsome _
  | spawn hcall | acquire hcall | spawnTask hcall | alreadyInFlight hcall | panic hcall
  | removeFromInFlight hcall =>
    exact { h with owes := hcalls (by rw [hcall]; rfl) }
  | engine hcall => exact { h with owes := hcalls (Call.marking_of_next hcall) }
  | @spawnUnknown b hb =>
    have hrun := run_markFailed (s.rows b)
    refine h.update rfl rfl rfl rfl hrun ?_ (h.rows b).markFailed (fun run howes ↦ ?_) ?_
    · simp [markFailed_finished]
    · exact howes.mono (run_update hrun) (fun _ _ _ _ ↦ rfl) fun _ _ _ ↦ rfl
    · intro run hb hlive _ hdone
      obtain ⟨i, hne, hi, hilive⟩ := ha hlive run hb
      have := hdone i ((run_update hrun i).trans hi)
      simp [Executor.update, update_of_ne hne, hilive] at this
  | spawnUnavailable hcall hb hrow =>
    refine h.settle (by rw [hcall]; rfl) (run_markFailed _) (h.rows _).markFailed ?_ ?_
    · simp [markFailed_finished]
    · exact fun _ _ ↦ ⟨_, rfl⟩
  | spawnUnavailableLate => exact h
  | @markRunning k b hcall =>
    have hlive := markRunning_unfinished (s.rows b)
    refine h.settle (by rw [hcall]; rfl) (run_markRunning _) (h.rows b).markRunning (hlive ▸ id) ?_
    intro hold hends
    rw [hlive, hold] at hends
    cases hends
  | finalizeCompleted hcall =>
    refine h.settle (by rw [hcall]; rfl) rfl (finalizeCompleted_agrees _) ?_ ?_
    · rintro ⟨⟩
    · exact fun _ _ ↦ ⟨_, rfl⟩
  | finalizeFailed hcall =>
    refine h.settle (by rw [hcall]; rfl) (run_markFailed _) (h.rows _).markFailed ?_ ?_
    · simp [markFailed_finished]
    · intro hlive _
      rw [if_pos hlive]
      exact ⟨_, rfl⟩
  | @markRunFinished k b call hcall =>
    obtain ⟨finished, heq⟩ := s.markRunFinished_eq b
    have hmarked := h.mark (b := b) (Function.update s.calls k call) s.cancels ?_
    · rw [heq] at hmarked ⊢
      exact hmarked
    rintro run hne (⟨j, i, next, hj, hi⟩ | hcancel)
    · refine .inl ⟨j, i, next, ?_, hi⟩
      dsimp only
      rw [update_of_ne]
      · exact hj
      · rintro rfl
        obtain ⟨rfl, -⟩ := Prod.mk.inj (Option.some.inj (hcall.symm.trans hj))
        exact hne hi
    · exact .inr hcancel
  | @cancelBackup c b hcancel hb =>
    have hidle : ∀ i, s.cancels c ≠ .flipped i := by simp [hcancel]
    have hrun := run_flip (s.rows b)
    refine h.update rfl rfl rfl rfl hrun ?_ ((h.rows b).flip ha) (fun run howes ↦ ?_) ?_
    · simp [flip_finished]
    · refine howes.mono (run_update hrun) (fun _ _ _ _ ↦ rfl) fun e i he ↦ ?_
      exact cancels_of_flipped hidle he
    · exact fun run hi _ _ _ ↦ .inr ⟨c, b, update_self _ _ _, (run_update hrun b).trans hi⟩
  | @cancelMark c b hcancel =>
    obtain ⟨finished, heq⟩ := s.markRunFinished_eq b
    have hmarked := h.mark (b := b) s.calls (Function.update s.cancels c (.marked b)) ?_
    · rw [heq] at hmarked ⊢
      exact hmarked
    rintro run hne (hcalled | ⟨e, i, he, hi⟩)
    · exact .inl hcalled
    · refine .inr ⟨e, i, (update_of_ne ?_ _ _).trans he, hi⟩
      rintro rfl
      obtain rfl := Cancel.flipped.inj (hcancel.symm.trans he)
      exact hne hi
  | cancelFire hcancel | cancelFireNone hcancel =>
    refine { h with owes := fun run hlt hopen hdone ↦ ?_ }
    refine (h.owes run hlt hopen hdone).mono (fun _ ↦ rfl) (fun _ _ _ _ ↦ rfl) fun e i he ↦ ?_
    exact cancels_of_flipped (by simp [hcancel]) he
  | crash =>
    refine { h with owes := fun run hlt hopen hdone ↦ ?_ }
    cases (ha run hlt hdone).symm.trans hopen
  | reconcileOrphans =>
    refine h.advance rfl rfl rfl (fun b ↦ run_flip _) ?_ ?_ ?_ ?_
    · simp [flip_finished]
    · exact fun b ↦ (h.rows b).flip fun hlive ↦ (ha b hlive).1
    · exact fun run howes ↦ howes.mono (fun b ↦ run_flip _) (fun _ _ _ _ ↦ rfl) fun _ _ _ ↦ rfl
    · intro b run hb hlive
      cases (ha b hlive).2.symm.trans hb

theorem agreed_init (maxConcurrent : ℕ) : Agreed (.init maxConcurrent) where
  rows := nofun
  runs := nofun
  fresh := fun _ _ ↦ rfl
  finished := nofun
  owes := nofun

theorem Call.task_of_marking (h : call.marking = some (b, next)) :
    call.task = some b ∨ call = .reporting b := by
  cases call <;> cases h
  case reporting => exact .inr rfl
  all_goals exact .inl rfl

def Executor.Quiet (s : Executor) : Prop :=
  (∀ k, (s.calls k).task = none ∧ ∀ b, s.calls k ≠ .reporting b) ∧ (∀ c, s.cancels c = .idle) ∧
    s.reconciling = false

theorem Executor.Quiet.not_owes (h : s.Quiet) : ¬ s.Owes run := by
  rintro (⟨k, b, next, hk, -⟩ | ⟨c, b, hc, -⟩)
  · obtain ⟨htask, hreporting⟩ := h.1 k
    rcases Call.task_of_marking hk with hb | hb
    · rw [htask] at hb
      cases hb
    · exact hreporting b hb
  · rw [h.2.1 c] at hc
    cases hc

/-- In a quiet state a backup agrees with its child, and a schedule run is marked as finished
exactly when all of its backups are terminal. -/
theorem records_agree (maxConcurrent : ℕ)
    (h : Reaches Executor.step Recorded (.init maxConcurrent) s) (hquiet : s.Quiet) :
    (∀ b < s.count, ∀ child, (s.rows b).child = some child →
      ((s.rows b).unfinished = true ∧ child.unfinished = true) ∨
      ((s.rows b).unfinished = false ∧ child = (s.rows b).state)) ∧
    (∀ run < s.runCount, s.finished run = true ↔
      ∀ b < s.count, (s.rows b).run = some run → (s.rows b).unfinished = false) := by
  have hs : Agreed s := h.invariant (fun hs ha hstep ↦ hs.step ha hstep) (agreed_init maxConcurrent)
  refine ⟨fun b _ ↦ hs.rows b, fun run hrun ↦ ⟨fun hfinished b _ ↦ hs.finished run hfinished b, ?_⟩⟩
  intro hall
  by_contra hopen
  have hdone : s.Done run := fun b hb ↦ hall b (hs.runs b run hb).1 hb
  exact hquiet.not_owes (hs.owes run hrun (by simpa using hopen) hdone)

theorem records_agree_completed :
    ∃ s, Reaches Executor.step Recorded (.init 1) s ∧ s.Quiet ∧
      s.rows 0 = ⟨.completed, some .completed, some 0⟩ ∧ s.finished 0 = true := by
  have hended : Reaches Executor.step Recorded (.init 1) _ :=
    Reaches.refl.run [.insertRows [true] true, .spawn 0 0, .acquire 0, .spawnTask 0, .markRunning 0,
      .engine 0 .attempt, .engine 0 .succeed, .finalizeCompleted 0, .markRunFinished 0,
      .removeFromInFlight 0] (by simp [Recorded]) rfl
  obtain ⟨s, hs, hquiet, hcount, hruns, hrow⟩ : ∃ s, Reaches Executor.step Recorded (.init 1) s ∧
      s.Quiet ∧ s.count = 1 ∧ s.runCount = 1 ∧ s.rows 0 = ⟨.completed, some .completed, some 0⟩ := by
    refine ⟨_, hended, ⟨fun k ↦ ?_, fun _ ↦ rfl, rfl⟩, rfl, rfl, rfl⟩
    rcases eq_or_ne k 0 with rfl | hk
    · exact ⟨rfl, nofun⟩
    · simp [Executor.setCall, Executor.update, Executor.insertRows, Executor.init, Call.task]
  refine ⟨s, hs, hquiet, hrow, ((records_agree 1 hs hquiet).2 0 (by omega)).mpr fun b hb _ ↦ ?_⟩
  obtain rfl : b = 0 := by omega
  rw [hrow]
  rfl

/-- A cancelled backup leaves its child pending. An unknown engine fails the only backup of a
schedule run and leaves the run open. After a crash, backups fail alone. -/
theorem records_disagree :
    (∃ s, Reaches Executor.step anything (.init 1) s ∧ s.Quiet ∧ 0 < s.count ∧
      (s.rows 0).state = .failed ∧ (s.rows 0).child = some .pending) ∧
    (∃ s, Reaches Executor.step anything (.init 1) s ∧ s.Quiet ∧ s.runCount = 1 ∧
      s.finished 0 = false ∧ ∀ b < s.count, (s.rows b).unfinished = false) ∧
    (∃ s, Reaches Executor.step anything (.init 1) s ∧ s.Quiet ∧ s.runCount = 1 ∧
      s.finished 0 = false ∧ ∀ b < s.count, (s.rows b).state = .failed ∧
        (s.rows b).child = some .pending) := by
  have hcancelled : Reaches Executor.step anything (.init 1) _ :=
    Reaches.refl.run [.insertRows [true] false, .cancelBackup 0 0, .cancelMark 0, .cancelFire 0]
      (fun _ _ _ ↦ trivial) rfl
  have hunknown : Reaches Executor.step anything (.init 1) _ :=
    Reaches.refl.run [.insertRows [false] true, .spawnUnknown 0] (fun _ _ _ ↦ trivial) rfl
  have hcrashed : Reaches Executor.step anything (.init 1) _ :=
    Reaches.refl.run [.insertRows [true] true, .crash, .reconcileOrphans] (fun _ _ _ ↦ trivial) rfl
  refine ⟨⟨_, hcancelled, ⟨fun k ↦ ⟨rfl, nofun⟩, fun c ↦ ?_, rfl⟩, Nat.zero_lt_one, rfl, rfl⟩,
    ⟨_, hunknown, ⟨fun k ↦ ⟨rfl, nofun⟩, fun _ ↦ rfl, rfl⟩, rfl, rfl, fun b hb ↦ ?_⟩,
    ⟨_, hcrashed, ⟨fun k ↦ ⟨rfl, nofun⟩, fun _ ↦ rfl, rfl⟩, rfl, rfl, fun b hb ↦ ?_⟩⟩
  · rcases eq_or_ne c 0 with rfl | hc
    · rfl
    · simp [Executor.setCancel, Executor.update, Executor.insertRows, Executor.init]
  · obtain rfl : b = 0 := Nat.lt_one_iff.mp hb
    rfl
  · obtain rfl : b = 0 := Nat.lt_one_iff.mp hb
    exact ⟨rfl, rfl⟩

end Temps.BackupCore
