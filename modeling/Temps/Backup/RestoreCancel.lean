import Temps.Backup.Restore
import Temps.Lib.Machine

namespace Temps.Backup.Restore

open Function Option

def Stage.Fits (run : Run) : Stage → Prop
  | .preparing => run.passed = false
  | .staging | .refused => run.mode.destructive = true
  | .writing => run.mode.destructive = true ∧ run.passed = true
  | .provisioning | .provisioned => run.mode.destructive = false
  | .registering => run.mode.destructive = false ∧ run.passed = true
  | .registered id =>
    run.mode.destructive = false ∧ run.passed = true ∧ run.targetServiceId = some id
  | .finished (.completed target) => run.passed = true ∧ run.targetServiceId = target ∧
    (target = none → run.mode.destructive = true)
  | .finished .failed | .finished .cancelled => True

structure Run.Sound (run : Run) : Prop where
  cancel : run.cancelRequested = true → run.passed = false
  phase : run.passed = true → run.phase ∉ run.mode.cancellablePhases
  wrote : run.wroteTarget = true → run.passed = true
  linked : run.registered = run.targetServiceId.toList
  link : run.targetServiceId ≠ none → run.passed = true ∧ run.mode.destructive = false
  completed : run.status = .completed →
    run.passed = true ∧ (run.targetServiceId = none → run.mode.destructive = true)
  stage : ∀ stage, run.worker = some stage → stage.Fits run

theorem Mode.lastPhase_not_cancellable (mode : Mode) : mode.lastPhase ∉ mode.cancellablePhases := by
  cases mode with
  | inPlace => decide
  | newService => decide
  | pitr toNewService => cases toNewService <;> decide

variable {phase : Phase}

theorem Mode.closed_not_cancellable (mode : Mode)
    (h : phase = .verify ∨ phase = .completed ∨ phase = .failed) :
    phase ∉ mode.cancellablePhases := by
  unfold Mode.cancellablePhases
  obtain rfl | rfl | rfl := h <;> split <;> decide

theorem Mode.writePhase_eq_last {mode : Mode} (h : mode.destructive) :
    mode.writePhase = mode.lastPhase := by
  rw [lastPhase, if_pos h]

variable {run : Run} {serviceId : Nat}

namespace Run

theorem enterPhase_cases (run : Run) (phase : Phase) (reply : Reply) :
    (∃ entry, run.enterPhaseUnlessCancelled phase reply = (run, entry) ∧
      (entry = .error ∨ entry = .cancelled ∧ run.cancelRequested)) ∨
    (run.status.active ∧ run.cancelRequested = false ∧ ∃ entry,
      run.enterPhaseUnlessCancelled phase reply =
        ({ run with phase, passed := run.passed || phase == run.mode.lastPhase }, entry) ∧
      (entry = .error ∨ entry = .entered)) := by
  fun_cases enterPhaseUnlessCancelled run phase reply
  case case1 => exact .inl ⟨_, rfl, .inl rfl⟩
  case case2 hopen =>
    obtain ⟨hactive, hcancel⟩ := Bool.and_eq_true_iff.mp hopen
    refine .inr ⟨hactive, by simpa using hcancel, _, rfl, ?_⟩
    split
    · exact .inr rfl
    · exact .inl rfl
  case case3 =>
    refine .inl ⟨_, rfl, ?_⟩
    split
    case isTrue hc => exact .inr ⟨rfl, (Bool.and_eq_true_iff.mp hc).2⟩
    case isFalse => exact .inl rfl

inductive Move (serviceId : Nat) (run : Run) : Run → Prop
  | work {phase : Phase} {worker : Option Stage} {token due orphan : Bool}
      (hphase : phase = run.phase ∨ phase = .verify)
      (hfits : ∀ stage, worker = some stage → stage.Fits run) :
      Move serviceId run
        { run with phase, worker, token, signalDue := due, orphan }
  | cancel {due : Bool} (hphase : run.phase ∈ run.mode.cancellablePhases) :
      Move serviceId run { run with cancelRequested := true, signalDue := due }
  | enter {phase : Phase} {worker : Option Stage} (hcancel : run.cancelRequested = false)
      (hphase : run.passed = false ∨ phase = run.mode.lastPhase)
      (hfits : ∀ stage, worker = some stage →
        stage.Fits { run with passed := run.passed || phase == run.mode.lastPhase }) :
      Move serviceId run
        { run with phase, passed := run.passed || phase == run.mode.lastPhase, worker }
  | write (hpassed : run.passed = true) : Move serviceId run { run with wroteTarget := true }
  | register {worker : Option Stage} (hnone : run.targetServiceId = none)
      (hpassed : run.passed = true) (hmode : run.mode.destructive = false)
      (hfits : ∀ stage, worker = some stage →
        stage.Fits { run with targetServiceId := some serviceId }) :
      Move serviceId run { run with
        targetServiceId := some serviceId, registered := serviceId :: run.registered, worker }
  | record {status : RunStatus} {phase : Phase} {worker : Option Stage}
      (hactive : run.status.active = true)
      (hphase : phase = run.phase ∨ phase = .completed ∨ phase = .failed)
      (hstatus : status = .completed →
        run.passed = true ∧ (run.targetServiceId = none → run.mode.destructive = true))
      (hworker : worker = none ∨ worker = run.worker) :
      Move serviceId run { run with status, phase, worker }

namespace Move

variable {token : Bool}

theorem idle {due orphan : Bool} : Move serviceId run
    { run with worker := none, token, signalDue := due, orphan } :=
  .work (.inl rfl) fun _ h ↦ nomatch h

variable {stage : Stage}

theorem go (h : stage.Fits run) : Move serviceId run (run.go stage) :=
  .work (.inl rfl) fun _ hs ↦ some.inj hs ▸ h

theorem failed : Move serviceId run (run.finish .failed) :=
  .work (.inl rfl) fun _ hs ↦ some.inj hs ▸ trivial

theorem cancelled : Move serviceId run (run.finish .cancelled) :=
  .work (.inl rfl) fun _ hs ↦ some.inj hs ▸ trivial

theorem same (h : run.Sound) {due : Bool} :
    Move serviceId run { run with token, signalDue := due } := .work (.inl rfl) h.stage

theorem entered (hcancel : run.cancelRequested = false)
    (hphase : run.passed = false ∨ phase = run.mode.lastPhase)
    (hfits : stage.Fits { run with passed := run.passed || phase == run.mode.lastPhase }) :
    Move serviceId run (Run.go
      { run with phase, passed := run.passed || phase == run.mode.lastPhase } stage) :=
  .enter hcancel hphase fun _ hs ↦ some.inj hs ▸ hfits

end Move

theorem leavePrepare_move (h : run.Sound) (hw : run.worker = some .preparing) (reply : Reply) :
    Move serviceId run (run.leavePrepare reply) := by
  have hpassed : run.passed = false := h.stage _ hw
  rw [leavePrepare]
  split
  next phase stage hnext =>
  have hfits : stage.Fits { run with passed := run.passed || phase == run.mode.lastPhase } := by
    cases hd : run.mode.destructive with
    | false =>
      simp only [hd, Bool.false_eq_true, if_false, Prod.mk.injEq] at hnext
      obtain ⟨rfl, rfl⟩ := hnext
      exact hd
    | true =>
      cases hdefers : run.defers with
      | true =>
        simp only [hd, hdefers, if_true, Prod.mk.injEq] at hnext
        obtain ⟨rfl, rfl⟩ := hnext
        exact hd
      | false =>
        simp only [hd, hdefers, if_true, Bool.false_eq_true, if_false, Prod.mk.injEq] at hnext
        obtain ⟨rfl, rfl⟩ := hnext
        refine ⟨hd, ?_⟩
        simp [Mode.writePhase_eq_last hd]
  obtain ⟨entry, he, hentry⟩ | ⟨_, hc, entry, he, hentry⟩ := run.enterPhase_cases phase reply
  · rw [he]
    obtain rfl | ⟨rfl, _⟩ := hentry
    · exact .failed
    · exact .cancelled
  · rw [he]
    obtain rfl | rfl := hentry
    · exact .entered hc (.inl hpassed) trivial
    · exact .entered hc (.inl hpassed) hfits

theorem beginTargetWrites_move (h : run.Sound) (hw : run.worker = some .staging) (reply : Reply) :
    Move serviceId run (run.beginTargetWrites reply) := by
  have hd : run.mode.destructive := h.stage _ hw
  have hlast := Mode.writePhase_eq_last hd
  unfold beginTargetWrites
  obtain ⟨entry, he, hentry⟩ | ⟨_, hc, entry, he, hentry⟩ :=
    run.enterPhase_cases run.mode.writePhase reply
  · rw [he]
    obtain rfl | ⟨rfl, _⟩ := hentry
    all_goals exact Move.go (show Stage.refused.Fits run from hd)
  · rw [he]
    obtain rfl | rfl := hentry
    · exact Move.entered hc (.inr hlast) (show Stage.refused.Fits _ from hd)
    · refine Move.entered hc (.inr hlast) (show Stage.writing.Fits _ from ⟨hd, ?_⟩)
      simp [hlast]

theorem enterVerify_move (h : run.Sound) (hw : run.worker = some .provisioned) (reply : Reply) :
    Move serviceId run (run.enterVerify reply) := by
  have hd : run.mode.destructive = false := h.stage _ hw
  have hlast : Phase.verify = run.mode.lastPhase := by simp [Mode.lastPhase, hd]
  unfold enterVerify
  obtain ⟨entry, he, hentry⟩ | ⟨_, hc, entry, he, hentry⟩ := run.enterPhase_cases .verify reply
  · rw [he]
    obtain rfl | ⟨rfl, _⟩ := hentry
    · dsimp only
      split
      · exact .failed
      · exact .same h
    · exact .cancelled
  · rw [he]
    obtain rfl | rfl := hentry
    · dsimp only
      split
      · exact .entered hc (.inr hlast) trivial
      · exact .enter hc (.inr hlast) fun _ hs ↦ some.inj (hw.symm.trans hs) ▸ hd
    · refine Move.entered hc (.inr hlast) (show Stage.registering.Fits _ from ⟨hd, ?_⟩)
      simp [← hlast]

theorem persistNewService_move (h : run.Sound) (hw : run.worker = some .registering)
    (reply : Reply) : Move serviceId run (run.persistNewService serviceId reply) := by
  obtain ⟨hd, hpassed⟩ : run.mode.destructive = false ∧ run.passed := h.stage _ hw
  unfold persistNewService
  split
  · next hc =>
    refine .register hc.2.2.1 hpassed hd fun stage hs ↦ ?_
    obtain rfl := some.inj hs
    split
    · exact ⟨hd, hpassed, rfl⟩
    · exact trivial
  · exact .failed

variable {next : Run}

theorem settled_move : Move serviceId run (run.finish run.settled) := by
  unfold Run.settled
  split
  · exact .cancelled
  · exact .failed

section

variable (h : run.Sound)
include h

theorem Sound.target_none (hd : run.mode.destructive) : run.targetServiceId = none := by
  by_contra ht
  exact absurd hd (Bool.eq_false_iff.mp (h.link ht).2)

theorem engineReturns_move (ok verified : Bool) :
    Move serviceId run (run.engineReturns ok verified) := by
  fun_cases engineReturns run ok verified
  case case1 | case9 => exact .same h
  case case2 | case3 => exact settled_move
  case case4 hw _ =>
    obtain ⟨hd, hpassed⟩ : run.mode.destructive ∧ run.passed := h.stage _ hw
    refine .work ?_ fun _ hs ↦ some.inj hs ▸ ⟨hpassed, h.target_none hd, fun _ ↦ hd⟩
    cases verified
    · exact .inl rfl
    · exact .inr rfl
  case case6 => exact .cancelled
  case case7 hw _ _ =>
    have hd : run.mode.destructive = false := h.stage _ hw
    exact Move.go (show Stage.provisioned.Fits run from hd)
  all_goals exact .failed

theorem stagedStillRunning_move (confirmed : Bool) :
    Move serviceId run (run.stagedStillRunning confirmed) := by
  have stopped : Move serviceId run (run.confirmStagedRestoreStopped confirmed) := by
    unfold confirmStagedRestoreStopped
    split
    · exact .cancelled
    · exact .idle
  fun_cases stagedStillRunning run confirmed
  case case4 => exact .cancelled
  case case6 => exact .same h
  all_goals exact stopped

theorem persistTerminalState_move {outcome : Outcome} (hw : run.worker = some (.finished outcome))
    (reply : Reply) : Move serviceId run (run.persistTerminalState outcome reply) := by
  have recorded {worker : Option Stage} (hrun : run.status.active)
      (hworker : worker = none ∨ worker = run.worker) :
      Move serviceId run { run.recorded outcome with worker } := by
    cases outcome with
    | completed target =>
      obtain ⟨hpassed, rfl, hmode⟩ : run.passed ∧ run.targetServiceId = target ∧
        (target = none → run.mode.destructive) := h.stage _ hw
      exact .record hrun (.inr (.inl rfl)) (fun _ ↦ ⟨hpassed, hmode⟩) hworker
    | failed => exact .record hrun (.inr (.inr rfl)) nofun hworker
    | cancelled => exact .record hrun (.inl rfl) nofun hworker
  unfold persistTerminalState
  by_cases hactive : (run.status.active && decide (reply ≠ .failed))
  · have hrun := (Bool.and_eq_true_iff.mp hactive).1
    simp only [hactive, if_true]
    split
    · exact recorded hrun (.inl rfl)
    · exact recorded hrun (.inr (by cases outcome <;> rfl))
  · simp only [hactive, Bool.false_eq_true, if_false]
    split
    · exact .idle
    · exact .same h

theorem step_move (act : Act) : Move serviceId run (run.step serviceId act) := by
  fun_cases step serviceId run act
  case case1 =>
    unfold recordCancellation
    split
    case isTrue hc => exact .cancel hc.2.2.2
    case isFalse => exact .same h
  case case2 =>
    unfold signal
    split <;> exact .same h
  case case3 hw => exact leavePrepare_move h hw _
  case case4 hw => exact beginTargetWrites_move h hw _
  case case5 hw => exact .write (h.stage _ hw).2
  case case6 => exact engineReturns_move h _ _
  case case7 => exact stagedStillRunning_move h _
  case case8 hw => exact enterVerify_move h hw _
  case case9 hw => exact persistNewService_move h hw _
  case case10 id hw =>
    obtain ⟨_, hpassed, htarget⟩ := h.stage _ hw
    exact Move.go (show (Stage.finished (.completed (some id))).Fits run from
      ⟨hpassed, htarget, fun ht ↦ nomatch ht⟩)
  case case11 | case12 | case13 | case15 => exact .failed
  case case16 | case18 => exact .idle
  case case17 hw => exact persistTerminalState_move h hw _
  case case19 hc => exact .record (Bool.and_eq_true_iff.mp hc).2 (.inl rfl) nofun (.inr rfl)
  all_goals exact .same h

theorem Move.sound (hmove : Move serviceId run next) : next.Sound := by
  cases hmove with
  | work hphase hfits =>
    refine { h with phase := fun hp ↦ ?_, stage := hfits }
    obtain rfl | rfl := hphase
    · exact h.phase hp
    · exact run.mode.closed_not_cancellable (.inl rfl)
  | cancel hphase =>
    -- the phase is still cancellable, so the row has not passed the point of no return
    have hopen : run.passed = false := Bool.eq_false_iff.mpr fun hp ↦ h.phase hp hphase
    exact { h with cancel := fun _ ↦ hopen }
  | @enter phase _ hcancel hphase hfits =>
    have keeps (hp : run.passed) : (run.passed || phase == run.mode.lastPhase) := by
      rw [hp, Bool.true_or]
    refine ⟨fun hc ↦ absurd hc (Bool.eq_false_iff.mp hcancel), fun hp ↦ ?_,
      fun hw ↦ keeps (h.wrote hw), h.linked, fun ht ↦ ⟨keeps (h.link ht).1, (h.link ht).2⟩,
      fun hs ↦ ⟨keeps (h.completed hs).1, (h.completed hs).2⟩, hfits⟩
    have hlast : phase = run.mode.lastPhase := by
      obtain hpassed | hlast := hphase
      · simpa [hpassed] using hp
      · exact hlast
    exact hlast ▸ run.mode.lastPhase_not_cancellable
  | write hpassed =>
    exact { h with wrote := fun _ ↦ hpassed }
  | register hnone hpassed hmode hfits =>
    have hlinked : run.registered = [] := by rw [h.linked, hnone, toList_none]
    exact ⟨h.cancel, h.phase, h.wrote, congrArg (serviceId :: ·) hlinked,
      fun _ ↦ ⟨hpassed, hmode⟩, fun _ ↦ ⟨hpassed, fun ht ↦ nomatch ht⟩, hfits⟩
  | record hactive hphase hstatus hworker =>
    refine ⟨h.cancel, fun hp ↦ ?_, h.wrote, h.linked, h.link, hstatus, fun stage hs ↦ ?_⟩
    · obtain rfl | hphase := hphase
      · exact h.phase hp
      · exact run.mode.closed_not_cancellable (.inr hphase)
    · obtain rfl | rfl := hworker
      · exact nomatch hs
      · exact h.stage stage hs

end

structure Stays (run next : Run) : Prop where
  status : run.status.active = false → next.status = run.status
  cancel : run.cancelRequested = true → next.cancelRequested = true
  passed : run.passed = true → next.passed = true

theorem Stays.refl (run : Run) : Stays run run := ⟨fun _ ↦ rfl, id, id⟩

theorem Stays.trans {last : Run} (h : Stays run next) (h' : Stays next last) : Stays run last :=
  ⟨fun hs ↦ (h'.status (by rw [h.status hs, hs])).trans (h.status hs), h'.cancel ∘ h.cancel,
    h'.passed ∘ h.passed⟩

theorem Move.stays (h : Move serviceId run next) : Stays run next := by
  cases h with
  | work | write | register => exact ⟨fun _ ↦ rfl, id, id⟩
  | cancel => exact ⟨fun _ ↦ rfl, fun _ ↦ rfl, id⟩
  | enter => exact ⟨fun _ ↦ rfl, id, fun hp ↦ by simp [hp]⟩
  | record hactive => exact ⟨fun hs ↦ absurd hactive (Bool.eq_false_iff.mp hs), id, id⟩

theorem admitted_sound (mode : Mode) (defers : Bool) : (admitted mode defers).Sound :=
  ⟨nofun, nofun, nofun, rfl, absurd rfl, nofun, fun _ hs ↦ some.inj hs ▸ rfl⟩

theorem restart_move (serviceId : Nat) (run : Run) : Move serviceId run run.restart := .idle

end Run

namespace Restores

variable {s : Restores} {r : Nat}

def Sound (s : Restores) : Prop := ∀ r run, s.runs r = some run → run.Sound

theorem Sound.step (h : s.Sound) (event : Event) : (s.step event).Sound := by
  have put {r : Nat} {run : Run} (hrun : run.Sound) :
      ∀ r' next, update s.runs r (some run) r' = some next → next.Sound :=
    (forall_update_iff s.runs fun _ o ↦ ∀ run, o = some run → run.Sound).mpr
      ⟨fun _ hr ↦ some.inj hr ▸ hrun, fun r' _ ↦ h r'⟩
  cases event with
  | start r mode defers =>
    simp only [Restores.step]
    split
    · exact h
    · exact put (Run.admitted_sound mode defers)
  | act r act =>
    simp only [Restores.step]
    split
    · exact h
    · next run hrun =>
      have hrun := h r run hrun
      exact put ((Run.step_move hrun act).sound hrun)
  | restart =>
    intro r next hr
    obtain ⟨run, hrun, rfl⟩ := map_eq_some_iff.mp hr
    exact (Run.restart_move s.nextService run).sound (h r run hrun)

theorem sound (events : List Event) : (events.foldl step empty).Sound :=
  Lib.Machine.foldl_invariant (fun _ event h ↦ h.step event) (fun _ _ h ↦ nomatch h) events

theorem Sound.stays (h : s.Sound) (hr : s.runs r = some run) (event : Event) :
    ∃ next, (s.step event).runs r = some next ∧ run.Stays next := by
  cases event with
  | start r' mode defers =>
    refine ⟨run, ?_, .refl run⟩
    simp only [Restores.step]
    split
    · exact hr
    · next hnone =>
      have hne : r ≠ r' := fun he ↦ hnone (by rw [← he, hr]; rfl)
      exact (update_of_ne hne _ _).trans hr
  | act r' act =>
    by_cases he : r = r'
    · subst he
      exact ⟨run.step s.nextService act, by simp [Restores.step, hr],
        (Run.step_move (h r run hr) act).stays⟩
    · refine ⟨run, ?_, .refl run⟩
      simp only [Restores.step]
      split
      · exact hr
      · exact (update_of_ne he _ _).trans hr
  | restart =>
    exact ⟨run.restart, congrArg (Option.map Run.restart) hr,
      (Run.restart_move s.nextService run).stays⟩

theorem Sound.stays_along (h : s.Sound) (hr : s.runs r = some run) (events : List Event) :
    ∃ next, (events.foldl Restores.step s).runs r = some next ∧ run.Stays next := by
  induction events generalizing s run with
  | nil => exact ⟨run, hr, .refl run⟩
  | cons event events ih =>
    obtain ⟨next, hnext, hstays⟩ := h.stays hr event
    obtain ⟨last, hlast, hstays'⟩ := ih (h.step event) hnext
    exact ⟨last, hlast, hstays.trans hstays'⟩

/-- Cancelling a restore is decided once: at every moment of every history of an installation, and
whatever happens afterwards. -/
theorem cancellation_decided_once (events later : List Event) {run : Run}
    (hr : (events.foldl step empty).runs r = some run) :
    (run.cancelRequested = true →
      run.wroteTarget = false ∧ run.registered = [] ∧ run.status ≠ .completed) ∧
    (run.passed = true → run.cancelRequested = false) ∧
    ∃ next, ((events ++ later).foldl step empty).runs r = some next ∧
      (run.status.active = false → next.status = run.status) ∧
      (run.cancelRequested = true → next.cancelRequested = true) ∧
      (run.passed = true → next.passed = true) := by
  have h := sound events r run hr
  refine ⟨fun hc ↦ ?_, fun hp ↦ Bool.eq_false_iff.mpr fun hc ↦ ?_, ?_⟩
  · have hopen := Bool.eq_false_iff.mp (h.cancel hc)
    have hnone : run.targetServiceId = none := by
      by_contra ht
      exact hopen (h.link ht).1
    exact ⟨Bool.eq_false_iff.mpr fun hw ↦ hopen (h.wrote hw),
      by rw [h.linked, hnone, toList_none], fun hs ↦ hopen (h.completed hs).1⟩
  · exact absurd hp (Bool.eq_false_iff.mp (h.cancel hc))
  · obtain ⟨next, hnext, hstays⟩ := Sound.stays_along (sound events) hr later
    exact ⟨next, by rw [List.foldl_append, hnext], hstays.status, hstays.cancel, hstays.passed⟩

def cancelledDownload : List Event :=
  [.start 0 .inPlace true, .act 0 (.leavePrepare .ok), .act 0 (.cancel .ok), .act 0 .signal,
    .act 0 (.beginTargetWrites .ok)]

def settling : List Event := [.act 0 (.engineReturns false false), .act 0 (.persist .ok)]

theorem cancelledDownload_decided : ∃ run next : Run,
    (cancelledDownload.foldl step empty).runs 0 = some run ∧ run.cancelRequested = true ∧
    run.wroteTarget = false ∧ run.registered = [] ∧ run.status ≠ .completed ∧
    ((cancelledDownload ++ settling).foldl step empty).runs 0 = some next ∧
    next.cancelRequested = true ∧ next.status = .cancelled := by
  obtain ⟨run, hrun, hrequested⟩ : ∃ run : Run,
      (cancelledDownload.foldl step empty).runs 0 = some run ∧ run.cancelRequested :=
    ⟨_, rfl, rfl⟩
  obtain ⟨hcancel, -, next, hnext, -, hstays, -⟩ :=
    cancellation_decided_once cancelledDownload settling hrun
  obtain ⟨hwrote, hregistered, hstatus⟩ := hcancel hrequested
  refine ⟨run, next, hrun, hrequested, hwrote, hregistered, hstatus, hnext, hstays hrequested, ?_⟩
  obtain rfl := some.inj hnext
  rfl

end Restores
end Temps.Backup.Restore
