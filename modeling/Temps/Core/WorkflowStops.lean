import Temps.Core.WorkflowRows

namespace Temps.Core.WorkflowStops

open Workflow JobGraph WorkflowExecutor RowStatus WorkflowRows List Executor

variable {V : Type} {x : Executor V} {e : Execution V} {jobs : List String} {batch : ℕ}

/-- After the stop of a required job no job of a later batch begins and the workflow does not
return `Ok`. -/
def StopRespected (result : Except WorkflowError (WorkflowContext V)) (events : List Event) :
    Prop :=
  ∀ ev ∈ events, ev.stops →
    (∀ ev' ∈ events, ev'.begins → ev'.batch ≤ ev.batch) ∧ ∀ context, result ≠ .ok context

def Silent (result : Except WorkflowError (WorkflowContext V)) (events : List Event) : Prop :=
  (∀ ev ∈ events, ev.begins = false) ∧ ∀ context, result ≠ .ok context

variable {result : Except WorkflowError (WorkflowContext V)} {context : WorkflowContext V}
  {tasks : List (String × JobConfig V)} {events : List Event} {e' : Execution V}

theorem silent_respected (batch : ℕ) (h : ∀ context, result ≠ .ok context)
    (hbatch : ∀ ev ∈ events, ev.batch = batch) : StopRespected result events := by
  intro ev hev _
  exact ⟨fun ev' hev' _ ↦ Nat.le_of_eq ((hbatch ev' hev').trans (hbatch ev hev).symm), h⟩

theorem respected_append {first rest : List Event} (hfirst : ∀ ev ∈ first, ev.batch = batch)
    (hrest : ∀ ev ∈ rest, batch + 1 ≤ ev.batch)
    (hsilent : (∃ ev ∈ first, ev.stops) → Silent result rest) (h : StopRespected result rest) :
    StopRespected result (first ++ rest) := by
  intro ev hev hs
  rcases mem_append.mp hev with hev | hev
  · obtain ⟨hb, hres⟩ := hsilent ⟨ev, hev, hs⟩
    refine ⟨fun ev' hev' hbeg ↦ ?_, hres⟩
    rcases mem_append.mp hev' with hev' | hev'
    · exact Nat.le_of_eq ((hfirst ev' hev').trans (hfirst ev hev).symm)
    · rw [hb ev' hev'] at hbeg
      cases hbeg
  · obtain ⟨hb, hres⟩ := h ev hev hs
    refine ⟨fun ev' hev' hbeg ↦ ?_, hres⟩
    rcases mem_append.mp hev' with hev' | hev'
    · have h1 := hfirst ev' hev'
      have h2 := hrest ev hev
      omega
    · exact hb ev' hev' hbeg

/-- The job is required, and in some context it comes back cancelled. -/
def MayCancel (jobStates : JobStates V) (jobId : String) : Prop :=
  ∃ s, jobStates.get jobId = some s ∧ s.jobConfig.required = true ∧
    ∃ context r, taskResult s.jobConfig.job context = .ok r ∧ r.status = .cancelled

/-- A batch with a required job that may come back cancelled is not the last one, and the provider
does not let the run go on to the next. -/
def ProviderStops (provider : CancellationProvider) (jobStates : JobStates V) :
    ℕ → List (List String) → Prop
  | _, [] => True
  | batch, jobs :: order =>
    ((∃ jobId ∈ jobs, MayCancel jobStates jobId) → order ≠ [] ∧ provider (batch + 1) ≠ .ok false) ∧
      ProviderStops provider jobStates (batch + 1) order

theorem settleResults_trace (results : List (String × JobResult V)) (e : Execution V) :
    (x.settleResults results e).2.trace = e.trace := by
  fun_induction Executor.settleResults x results e with
  | case1 | case3 => rfl
  | case2 _ _ _ _ _ ih | case4 _ _ _ _ _ _ _ _ _ ih => exact ih

theorem settleResults_ok {results : List (String × JobResult V)}
    (hj : List.Forall₂ (Joined context) tasks results)
    (hknown : ∀ t ∈ tasks, ∃ s, x.jobStates.get t.1 = some s ∧ s.jobConfig = t.2)
    (h : x.settleResults results e = (.ok (), e')) : ∀ t ∈ tasks, ¬ Stops x context t := by
  induction hj generalizing e with
  | nil => simp
  | @cons t r tasks results hjoin hrest ih =>
    obtain ⟨jobId, result⟩ := r
    obtain ⟨rfl, hres⟩ := hjoin
    obtain ⟨s, hs, hconfig⟩ := hknown t (by simp)
    simp only [Executor.settleResults, hs] at h
    split at h
    · cases h
    · rename_i hgo
      refine forall_mem_cons.mpr ⟨mt (stops_iff hconfig hres).mp hgo, ih ?_ h⟩
      exact fun t h ↦ hknown t (by simp [h])

theorem endEvent_batch {t : String × JobConfig V} {ev : Event}
    (h : Executor.endEvent batch context t = some ev) :
    ∃ r, taskResult t.2.job context = .ok r ∧ ev = .ended batch t.1 t.2.required r.status := by
  rw [Executor.endEvent] at h
  split at h
  · cases h
  · cases h
    exact ⟨_, ‹_›, rfl⟩

theorem endEvent_stops (hc : x.continueOnFailure = false)
    (hgo : ∀ t ∈ tasks, ¬ Stops x context t) {ev : Event}
    (hev : ev ∈ tasks.filterMap (Executor.endEvent batch context)) (hs : ev.stops) :
    ∃ t ∈ tasks, t.2.required ∧ ∃ r, taskResult t.2.job context = .ok r ∧ r.status = .cancelled := by
  obtain ⟨t, ht, hend⟩ := mem_filterMap.mp hev
  obtain ⟨r, hres, rfl⟩ := endEvent_batch hend
  simp only [Event.stops, Bool.and_eq_true, Bool.or_eq_true, decide_eq_true_eq] at hs
  refine ⟨t, ht, hs.1, r, hres, hs.2.resolve_left fun hf ↦ ?_⟩
  exact hgo t ht ⟨hs.1, hc, r, hres, hf⟩

structure BatchEvents (x : Executor V) (batch : ℕ) (jobs : List String) (e : Execution V)
    (events : List Event) : Prop where
  trace : (x.runBatch batch jobs e).2.trace = e.trace ++ events
  here : ∀ ev ∈ events, ev.batch = batch
  stops : x.continueOnFailure = false → ∀ e', x.runBatch batch jobs e = (.ok (), e') →
    (∃ ev ∈ events, ev.stops) → ∃ jobId ∈ jobs, MayCancel x.jobStates jobId

theorem runBatch_trace (x : Executor V) (batch : ℕ) (jobs : List String) (e : Execution V) :
    (x.runBatch batch jobs e).2.trace = (x.joined batch jobs e).trace := by
  rcases runBatch_eq batch jobs e with ⟨error, -, heq⟩ | ⟨results, -, -, heq⟩
  · rw [heq]
    rfl
  · rw [heq, settleResults_trace]

theorem runBatch_ok (h : x.runBatch batch jobs e = (.ok (), e')) :
    (x.launch batch jobs e).aborted = none ∧
      ∀ t ∈ (x.launch batch jobs e).tasks, ¬ Stops x e.context t := by
  rcases runBatch_eq batch jobs e with ⟨error, -, heq⟩ | ⟨results, ha, hj, heq⟩
  · cases heq.symm.trans h
  · obtain ⟨_, hl⟩ := launch_launching batch jobs e
    exact ⟨ha, settleResults_ok (joinAll_ok hj) hl.known (heq.symm.trans h)⟩

theorem batchEvents (x : Executor V) (batch : ℕ) (jobs : List String) (e : Execution V) :
    ∃ events, BatchEvents x batch jobs e events := by
  obtain ⟨events, hl⟩ := launch_launching batch jobs e
  refine ⟨events ++ (x.launch batch jobs e).tasks.filterMap (Executor.endEvent batch e.context),
    ?_, ?_, ?_⟩
  · rw [runBatch_trace, Executor.joined, Execution.log, hl.trace, append_assoc]
  · intro ev hev
    rcases mem_append.mp hev with hev | hev
    · exact hl.here ev hev
    · obtain ⟨t, -, hend⟩ := mem_filterMap.mp hev
      obtain ⟨r, -, rfl⟩ := endEvent_batch hend
      rfl
  · rintro hc e' hok ⟨ev, hev, hs⟩
    obtain ⟨ha, hgo⟩ := runBatch_ok hok
    rcases mem_append.mp hev with hev | hev
    · have hab := hl.stops hc ⟨ev, hev, hs⟩
      rw [ha] at hab
      cases hab
    · obtain ⟨t, ht, hr, hcancel⟩ := endEvent_stops hc hgo hev hs
      obtain ⟨s, hs, hconfig⟩ := hl.known t ht
      rw [← hconfig] at hr hcancel
      exact ⟨t.1, hl.ids t ht, s, hs, hr, e.context, hcancel⟩

structure RunEvents (x : Executor V) (batch : ℕ) (order : List (List String)) (e : Execution V)
    (events : List Event) : Prop where
  trace : (x.executeBatches batch order e).2.trace = e.trace ++ events
  later : ∀ ev ∈ events, batch ≤ ev.batch
  silent : order ≠ [] → x.cancellationProvider batch ≠ .ok false →
    Silent (x.executeBatches batch order e).1 events
  respected : ProviderStops x.cancellationProvider x.jobStates batch order →
    StopRespected (x.executeBatches batch order e).1 events

theorem executeBatches_events (hc : x.continueOnFailure = false) (order : List (List String))
    (batch : ℕ) (e : Execution V) : ∃ events, RunEvents x batch order e events := by
  induction order generalizing batch e with
  | nil =>
    exact ⟨[], by simp [Executor.executeBatches], by simp, fun h ↦ absurd rfl h,
      by simp [StopRespected]⟩
  | cons jobs order ih =>
    by_cases hp : x.cancellationProvider batch = .ok false
    · obtain ⟨first, hf⟩ := batchEvents x batch jobs e
      cases hrun : x.runBatch batch jobs e with
      | mk out e' =>
        cases out with
        | error error =>
          have hexec : x.executeBatches batch (jobs :: order) e = (.error error, e') := by
            simp only [Executor.executeBatches, hp, hrun]
          refine ⟨first, ?_, fun ev hev ↦ Nat.le_of_eq (hf.here ev hev).symm,
            fun _ h ↦ absurd hp h, fun _ ↦ ?_⟩
          · rw [hexec, ← hf.trace, hrun]
          · rw [hexec]
            exact silent_respected batch (by simp) hf.here
        | ok _ =>
          obtain ⟨rest, hr⟩ := ih (batch + 1) e'
          have hexec : x.executeBatches batch (jobs :: order) e =
              x.executeBatches (batch + 1) order e' := by
            simp only [Executor.executeBatches, hp, hrun]
          refine ⟨first ++ rest, ?_, ?_, fun _ h ↦ absurd hp h, fun hstops ↦ ?_⟩
          · rw [hexec, hr.trace, ← append_assoc, ← hf.trace, hrun]
          · intro ev hev
            rcases mem_append.mp hev with hev | hev
            · exact Nat.le_of_eq (hf.here ev hev).symm
            · exact Nat.le_of_lt (hr.later ev hev)
          · rw [hexec]
            refine respected_append hf.here hr.later (fun hs ↦ ?_) (hr.respected hstops.2)
            obtain ⟨hnext, hprovider⟩ := hstops.1 (hf.stops hc e' hrun hs)
            exact hr.silent hnext hprovider
    · obtain ⟨error, reason, hexec⟩ := executeBatches_cancelled hp jobs order e
      refine ⟨[], by rw [hexec]; simp [Execution.cancelPendingJobs], by simp, fun _ _ ↦ ?_,
        by simp [StopRespected]⟩
      exact ⟨by simp, by simp [hexec]⟩

def dependent (jobId dependency : String) : JobConfig Unit :=
  { succeeding jobId with dependenciesOverride := some [dependency] }

def cancelledBuild : WorkflowConfig Unit :=
  workflowOf [standalone "build" fun _ ↦ .failed .buildCancelled, dependent "deploy" "build"]

end Temps.Core.WorkflowStops
