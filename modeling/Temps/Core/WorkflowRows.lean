import Temps.Core.JobOrder
import Temps.Core.RowStatus

namespace Temps.Core.WorkflowRows

open Workflow JobGraph JobOrder WorkflowExecutor RowStatus List Executor

variable {V : Type} {x : Executor V} {e e' : Execution V} {jobs : List String} {l : Launch V}

/-- The condition on one batch: a return out of the first loop finds no job spawned, no spawned job
panics, and a job whose failure stops the workflow is the last one spawned. -/
def BatchCloses (x : Executor V) (batch : ℕ) (jobs : List String) (e : Execution V) : Prop :=
  ((x.launch batch jobs e).aborted.isSome → (x.launch batch jobs e).tasks = []) ∧
  ((x.launch batch jobs e).aborted = none →
    (∀ t ∈ (x.launch batch jobs e).tasks, ∃ r, taskResult t.2.job e.context = .ok r) ∧
    ∀ front t back, (x.launch batch jobs e).tasks = front ++ t :: back →
      Stops x e.context t → back = [])

theorem eq_nil_of_last {α : Type} {front front' back : List α} {t t' : α}
    (h : front' ++ t' :: back = front ++ [t]) (ht : t' ∉ front) : back = [] := by
  rcases eq_nil_or_concat back with hb | ⟨init, last, hb⟩
  · exact hb
  · subst hb
    rw [concat_eq_append, ← cons_append, ← append_assoc] at h
    have hfront := (append_inj' h rfl).1
    exact absurd (by simp [← hfront]) ht

section Batch

variable (hl : Launched e jobs l) (hn : jobs.Nodup)

include hl in
theorem launched_closed_iff (e' : Execution V) (reason : String)
    (hopen : ∀ i, status e' i = status l.execution i) :
    (∀ i ∈ jobs, Closed (e'.cancelPendingJobs reason) i) ↔ l.tasks = [] := by
  constructor
  · intro h
    by_contra hne
    obtain ⟨t, ht⟩ := exists_mem_of_ne_nil _ hne
    have hi : t.1 ∈ l.tasks.map Prod.fst := mem_map_of_mem ht
    exact running_not_closed reason ((hopen _).trans (hl.running _ hi))
      (h _ (hl.sublist.subset hi))
  · intro hnil i hi
    rcases hl.other i hi (by simp [hnil]) with ⟨s, hs, ht⟩ | ⟨hp, -⟩
    · exact Closed.cancel reason ⟨s, (hopen i).trans hs, ht⟩
    · exact closed_of_pending reason ((hopen i).trans hp)

include hl in
theorem launched_other_closed (ha : l.aborted = none) {i : String} (hi : i ∈ jobs)
    (hni : i ∉ l.tasks.map Prod.fst) : Closed l.execution i := by
  rcases hl.other i hi hni with h | ⟨-, h⟩
  · exact h
  · rw [ha] at h
    cases h

include hl hn in
theorem stopped_closed_iff (ha : l.aborted = none) {front back : List (String × JobConfig V)}
    {t : String × JobConfig V} {reason : String} (hsplit : l.tasks = front ++ t :: back)
    (hclosed : ∀ i ∈ (front ++ [t]).map Prod.fst, Closed e' i)
    (hframe : ∀ i ∉ (front ++ [t]).map Prod.fst, status e' i = status l.execution i) :
    (∀ i ∈ jobs, Closed (e'.cancelPendingJobs reason) i) ↔ back = [] := by
  have hids : l.tasks.map Prod.fst = (front ++ [t]).map Prod.fst ++ back.map Prod.fst := by
    simp [hsplit]
  constructor
  · intro h
    by_contra hne
    obtain ⟨b, hb⟩ := exists_mem_of_ne_nil _ hne
    have hb' : b.1 ∈ back.map Prod.fst := mem_map_of_mem hb
    have hmem : b.1 ∈ l.tasks.map Prod.fst := by
      rw [hids, mem_append]
      exact .inr hb'
    have hnd := hl.sublist.nodup hn
    rw [hids] at hnd
    have hout : b.1 ∉ (front ++ [t]).map Prod.fst :=
      fun hi ↦ (nodup_append.mp hnd).2.2 _ hi _ hb' rfl
    exact running_not_closed reason ((hframe _ hout).trans (hl.running _ hmem))
      (h _ (hl.sublist.subset hmem))
  · intro hback i hi
    apply Closed.cancel
    rw [hback, map_nil, append_nil] at hids
    by_cases hti : i ∈ l.tasks.map Prod.fst
    · exact hclosed i (hids ▸ hti)
    · obtain ⟨s, hs, ht⟩ := launched_other_closed hl ha hi hti
      exact ⟨s, (hframe i (hids ▸ hti)).trans hs, ht⟩

end Batch

section Run

variable (hn : jobs.Nodup) (hpending : ∀ i ∈ jobs, status e i = some .pending)
  (hknown : ∀ i ∈ jobs, x.jobStates.get i ≠ none)
  (hterm : ∀ i s context r, x.jobStates.get i = some s →
    taskResult s.jobConfig.job context = .ok r → r.status.terminal)

include hn hpending hknown hterm

theorem runBatch_cases (batch : ℕ) :
    ((∃ e', x.runBatch batch jobs e = (.ok (), e') ∧ (∀ i ∈ jobs, Closed e' i) ∧
        ∀ i ∉ jobs, status e' i = status e i) ∧ BatchCloses x batch jobs e) ∨
      ∃ error e' reason, x.runBatch batch jobs e = (.error error, e'.cancelPendingJobs reason) ∧
        (∀ i ∉ jobs, status e' i = status e i) ∧
        ((∀ i ∈ jobs, Closed (e'.cancelPendingJobs reason) i) ↔ BatchCloses x batch jobs e) := by
  have hl := launch_launched batch hn hpending hknown
  obtain ⟨_, hlaunching⟩ := launch_launching batch jobs e
  rcases runBatch_eq batch jobs e with ⟨error, hend, heq⟩ | ⟨results, ha, hj, heq⟩ <;> rw [heq]
  · refine .inr ⟨error, _, _, rfl, hl.frame, ?_⟩
    rw [launched_closed_iff hl (x.joined batch jobs e) _ fun _ ↦ rfl]
    rcases hend with ha | ⟨ha, hj⟩
    · simp [BatchCloses, ha]
    · obtain ⟨t, ht, hpanic⟩ := joinAll_error hj
      refine iff_of_false (ne_nil_of_mem ht) fun ⟨_, h⟩ ↦ ?_
      obtain ⟨r, hr⟩ := (h ha).1 t ht
      exact absurd hr (hpanic r)
  · have hforall := joinAll_ok hj
    have hsettled := settleResults_settled (e := x.joined batch jobs e) hforall
      hlaunching.known
      (fun t ht r hr ↦ by
        obtain ⟨s, hs, hc⟩ := hlaunching.known t ht
        exact hterm t.1 s e.context r hs (hc ▸ hr)) (hl.sublist.nodup hn) hl.running
    have hjoined := all_joined hforall
    generalize x.settleResults results _ = out at hsettled
    cases hsettled with
    | all e' hgo hclosed hframe =>
      refine .inl ⟨⟨e', rfl, fun i hi ↦ ?_, fun i hi ↦ ?_⟩, by simp [ha], fun _ ↦ ⟨hjoined, ?_⟩⟩
      · by_cases hti : i ∈ (x.launch batch jobs e).tasks.map Prod.fst
        · exact hclosed i hti
        · obtain ⟨s, hs, ht⟩ := launched_other_closed hl ha hi hti
          exact ⟨s, (hframe i hti).trans hs, ht⟩
      · exact (hframe i fun h ↦ hi (hl.sublist.subset h)).trans (hl.frame i hi)
      · intro front t back hsplit hstop
        exact absurd hstop (hgo t (by simp [hsplit]))
    | stopped error front back t e' reason hsplit hstop hgo hclosed hframe =>
      refine .inr ⟨error, e', reason, rfl, fun i hi ↦ ?_, ?_⟩
      · refine (hframe i fun h ↦ hi (hl.sublist.subset ?_)).trans (hl.frame i hi)
        rw [hsplit]
        simp only [map_append, mem_append, map_cons, mem_cons] at h ⊢
        rcases h with h | h | h
        · exact .inl h
        · exact .inr (.inl h)
        · cases h
      · rw [stopped_closed_iff hl hn ha hsplit hclosed hframe]
        refine ⟨fun hback ↦ ⟨by simp [ha], fun _ ↦ ⟨hjoined, ?_⟩⟩,
          fun h ↦ (h.2 ha).2 front t back hsplit hstop⟩
        intro front' t' back' hsplit' hstop'
        rw [hsplit, hback] at hsplit'
        exact eq_nil_of_last hsplit'.symm fun ht' ↦ hgo t' ht' hstop'

end Run

def RunCloses (x : Executor V) : ℕ → List (List String) → Execution V → Prop
  | _, [], _ => True
  | batch, jobs :: order, e =>
    x.cancellationProvider batch = .ok false →
      BatchCloses x batch jobs e ∧
        ∀ e', x.runBatch batch jobs e = (.ok (), e') → RunCloses x (batch + 1) order e'

theorem executeBatches_closed (hterm : ∀ i s context r, x.jobStates.get i = some s →
      taskResult s.jobConfig.job context = .ok r → r.status.terminal)
    (order : List (List String)) (batch : ℕ) (hn : order.flatten.Nodup)
    (hpending : ∀ i ∈ order.flatten, status e i = some .pending)
    (hknown : ∀ i ∈ order.flatten, x.jobStates.get i ≠ none) :
    (∀ i, i ∉ order.flatten → Closed e i → Closed (x.executeBatches batch order e).2 i) ∧
      ((∀ i ∈ order.flatten, Closed (x.executeBatches batch order e).2 i) ↔
        RunCloses x batch order e) := by
  induction order generalizing batch e with
  | nil => exact ⟨fun i _ h ↦ h, by simp [RunCloses]⟩
  | cons jobs order ih =>
    rw [flatten_cons, RunCloses]
    obtain ⟨hnj, hno, hdisj⟩ := nodup_append.mp hn
    by_cases hp : x.cancellationProvider batch = .ok false
    case neg =>
      obtain ⟨error, reason, heq⟩ := executeBatches_cancelled hp jobs order e
      rw [heq]
      exact ⟨fun i _ h ↦ h.cancel reason, fun _ h ↦ absurd h hp,
        fun _ i hi ↦ closed_of_pending _ (hpending i hi)⟩
    rw [Executor.executeBatches, hp]
    have hout : ∀ i ∈ order.flatten, i ∉ jobs := fun i hi hj ↦ hdisj i hj i hi rfl
    rcases runBatch_cases hnj (fun i hi ↦ hpending i (by simp [hi]))
      (fun i hi ↦ hknown i (by simp [hi])) hterm batch with
      ⟨⟨e', hrun, hclosed, hframe⟩, hb⟩ | ⟨error, e', reason, hrun, hframe, hiff⟩
    · obtain ⟨hkeep, hrest⟩ := ih (batch + 1) hno
        (fun i hi ↦ (hframe i (hout i hi)).trans (hpending i (by simp [hi])))
        (fun i hi ↦ hknown i (by simp [hi]))
      simp only [hrun]
      refine ⟨fun i hi hclosed ↦ ?_, ?_⟩
      · rw [mem_append, not_or] at hi
        exact hkeep i hi.2 (by rwa [Closed, hframe i hi.1])
      · constructor
        · intro h _
          refine ⟨hb, fun e'' he ↦ ?_⟩
          cases he
          exact hrest.mp fun i hi ↦ h i (by simp [hi])
        · intro h i hi
          rcases mem_append.mp hi with hi | hi
          · exact hkeep i (fun ho ↦ hout i ho hi) (hclosed i hi)
          · exact hrest.mpr ((h trivial).2 e' rfl) i hi
    · simp only [hrun]
      refine ⟨fun i hi hclosed ↦ ?_, ?_⟩
      · rw [mem_append, not_or] at hi
        exact Closed.cancel _ (by rwa [Closed, hframe i hi.1])
      · constructor
        · intro h _
          exact ⟨hiff.mp fun i hi ↦ h i (by simp [hi]), fun e'' he ↦ by cases he⟩
        · intro h i hi
          by_cases hj : i ∈ jobs
          · exact hiff.mpr (h trivial).1 i hj
          · exact closed_of_pending _ ((hframe i hj).trans (hpending i hi))

theorem taskResult_terminal {job : WorkflowTask V} {context : WorkflowContext V} {r : JobResult V}
    (hjob : ∀ r, job.executeWithCancellation context = .returned r → r.status.terminal)
    (h : taskResult job context = .ok r) : r.status.terminal := by
  rw [taskResult] at h
  split at h
  · cases h
    exact hjob _ ‹_›
  · cases h
    split <;> rfl
  · cases h

/-- With a tracker whose calls all succeed, the rows of a valid job set are closed at the return of
`execute_workflow` exactly when every batch that the run starts meets the condition. -/
theorem rows_closed_iff (hash : HashOrder V) (provider : CancellationProvider)
    (config : WorkflowConfig V) (rows : Map String JobRow) (hvalid : ValidGraph config.jobs)
    (hrows : ∀ c ∈ config.jobs, (rows c.job.jobId).map JobRow.status = some .pending)
    (hjobs : ∀ c ∈ config.jobs, ∀ context r,
      c.job.executeWithCancellation context = .returned r → r.status.terminal) :
    (∀ c ∈ config.jobs,
      Closed (executeWorkflow hash (fun _ ↦ .ok ()) provider config rows).2 c.job.jobId) ↔
    ∀ jobStates order, planWorkflow hash config.jobs = .ok (jobStates, order) →
      RunCloses ⟨jobStates, fun _ ↦ .ok (), provider, config.continueOnFailure⟩ 0 order
        ⟨initialContext config, rows, []⟩ := by
  obtain ⟨jobStates, order, hplan⟩ := planWorkflow_ok hash hvalid
  have hp := planWorkflow_planned hplan
  have hpending : ∀ i ∈ order.flatten,
      status (⟨initialContext config, rows, []⟩ : Execution V) i = some .pending := by
    intro i hi
    obtain ⟨c, hc, rfl⟩ := (hp.mem i).mp hi
    exact hrows c hc
  have hrun := executeBatches_closed
    (x := ⟨jobStates, fun _ ↦ .ok (), provider, config.continueOnFailure⟩)
    (fun i s context r hs hr ↦
      taskResult_terminal (hjobs s.jobConfig (hp.config i s hs) context) hr)
    order 0 hp.nodup hpending hp.known
  have hexec : executeWorkflow hash (fun _ ↦ .ok ()) provider config rows =
      Executor.executeBatches ⟨jobStates, fun _ ↦ .ok (), provider, config.continueOnFailure⟩ 0
        order ⟨initialContext config, rows, []⟩ := by
    simp only [executeWorkflow, hplan]
  rw [hexec]
  constructor
  · intro h states' order' hplan'
    rw [hplan] at hplan'
    cases hplan'
    refine hrun.2.mp fun i hi ↦ ?_
    obtain ⟨c, hc, rfl⟩ := (hp.mem i).mp hi
    exact h c hc
  · intro h c hc
    exact hrun.2.mpr (h jobStates order hplan) _ ((hp.mem _).mpr ⟨c, hc, rfl⟩)

def standalone (jobId : String) (completion : WorkflowContext Unit → Completion Unit) :
    JobConfig Unit where
  job :=
    { jobId := jobId
      name := jobId
      dependsOn := []
      shouldSkip := fun _ ↦ .ok false
      validatePrerequisites := fun _ ↦ .ok ()
      executeWithCancellation := completion }
  required := true
  dependenciesOverride := none

def succeeding (jobId : String) : JobConfig Unit :=
  standalone jobId fun context ↦ .returned ⟨context, .success, none, []⟩

def failing (jobId : String) : JobConfig Unit :=
  standalone jobId fun _ ↦ .failed (.jobExecutionFailed "exit code 1")

def workflowOf (jobs : List (JobConfig Unit)) : WorkflowConfig Unit where
  workflowRunId := "run"
  deploymentId := 1
  projectId := 1
  environmentId := 1
  initialContext := Map.empty
  jobs := jobs
  continueOnFailure := false

def insertionOrder : HashOrder V := ⟨id, fun _ ↦ .refl _⟩

def pendingRows : Map String JobRow := fun _ ↦ some ⟨.pending, none⟩

theorem valid_of_independent {jobs : List (JobConfig V)} (h : ∀ c ∈ jobs, dependenciesOf c = []) :
    ValidGraph jobs :=
  ⟨fun _ ↦ 0, fun c hc d hd ↦ by rw [h c hc] at hd; cases hd⟩

theorem rows_closed_failing_last :
    (∀ c ∈ (workflowOf [succeeding "lint", failing "build"]).jobs,
      Closed (executeWorkflow insertionOrder (fun _ ↦ .ok ()) (fun _ ↦ .ok false)
        (workflowOf [succeeding "lint", failing "build"]) pendingRows).2 c.job.jobId) ∧
    ∀ jobStates order,
      planWorkflow insertionOrder (workflowOf [succeeding "lint", failing "build"]).jobs =
        .ok (jobStates, order) →
      RunCloses ⟨jobStates, fun _ ↦ .ok (), fun _ ↦ .ok false, false⟩ 0 order
        ⟨initialContext (workflowOf [succeeding "lint", failing "build"]), pendingRows, []⟩ := by
  refine ⟨?closed, (rows_closed_iff insertionOrder (fun _ ↦ .ok false) _ pendingRows ?_ ?_ ?_).mp
    ?closed⟩
  case closed =>
    intro c hc
    simp only [workflowOf, mem_cons, not_mem_nil, or_false] at hc
    rcases hc with rfl | rfl
    · exact ⟨.success, rfl, rfl⟩
    · exact ⟨.failure, rfl, rfl⟩
  · exact valid_of_independent (by simp [workflowOf, succeeding, failing, standalone,
      dependenciesOf])
  · intro c _
    rfl
  · simp [workflowOf, succeeding, failing, standalone, JobStatus.terminal]

theorem failed_build_leaves_lint_running :
    ValidGraph (workflowOf [failing "build", succeeding "lint"]).jobs ∧
    ¬ ∀ c ∈ (workflowOf [failing "build", succeeding "lint"]).jobs,
      Closed (executeWorkflow insertionOrder (fun _ ↦ .ok ()) (fun _ ↦ .ok false)
        (workflowOf [failing "build", succeeding "lint"]) pendingRows).2 c.job.jobId := by
  refine ⟨valid_of_independent (by simp [workflowOf, succeeding, failing, standalone,
    dependenciesOf]), fun h ↦ ?_⟩
  obtain ⟨s, hs, ht⟩ := h (succeeding "lint") (by simp [workflowOf])
  cases hs
  cases ht

end Temps.Core.WorkflowRows
