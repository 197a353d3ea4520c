import Temps.Core.ContextMerge
import Temps.Core.JobGraph

namespace Temps.Core.WorkflowExecutor

open Workflow ContextMerge JobGraph List

variable {V : Type}

/-- What can be seen of a run from outside: a job of a batch began, its future came to an end, or
its prerequisites failed and it did not begin. -/
inductive Event
  | began (batch : ℕ) (jobId : String)
  | ended (batch : ℕ) (jobId : String) (required : Bool) (status : JobStatus)
  | prerequisitesFailed (batch : ℕ) (jobId : String) (required : Bool)
  deriving DecidableEq

namespace Event

def batch : Event → ℕ
  | began batch _ | ended batch _ _ _ | prerequisitesFailed batch _ _ => batch

def begins : Event → Bool
  | began _ _ => true
  | _ => false

def stops : Event → Bool
  | ended _ _ required status => required && (status = .failure || status = .cancelled)
  | prerequisitesFailed _ _ required => required
  | began _ _ => false

end Event

structure JobRow where
  status : JobStatus
  errorMessage : Option String

structure Execution (V : Type) where
  context : WorkflowContext V
  rows : Map String JobRow
  trace : List Event

namespace Execution

def log (e : Execution V) (events : List Event) : Execution V :=
  { e with trace := e.trace ++ events }

def updateJobStatus (e : Execution V) (jobId : String) (status : JobStatus)
    (message : Option String) : Execution V :=
  { e with rows := fun k ↦
      if k = jobId then (e.rows k).map fun row ↦ ⟨status, message.or row.errorMessage⟩
      else e.rows k }

def cancelPendingJobs (e : Execution V) (reason : String) : Execution V :=
  { e with rows := fun k ↦ (e.rows k).map fun row ↦
      if row.status = .pending then ⟨.cancelled, some reason⟩ else row }

end Execution

def isCancellationError : WorkflowError → Bool
  | .workflowCancelled | .buildCancelled => true
  | _ => false

def requiredJobFailed (jobId : String) (message : Option String) : WorkflowError :=
  .jobExecutionFailed
    ("Required job '" ++ jobId ++ "' failed: " ++ message.getD "Unknown error")

def taskResult (job : WorkflowTask V) (context : WorkflowContext V) : Except String (JobResult V) :=
  match job.executeWithCancellation context with
  | .returned jobResult => .ok jobResult
  | .failed e =>
    .ok (if isCancellationError e then .cancelled context else .failure context e.detail)
  | .panicked joinError => .error joinError

/-- One run: the planned jobs, the tracker's answers to the creation of running records, the
cancellation provider's answers and the failure mode. -/
structure Executor (V : Type) where
  jobStates : JobStates V
  createJobExecution : String → Except WorkflowError Unit
  cancellationProvider : CancellationProvider
  continueOnFailure : Bool

/-- The first loop of `execute_job_batch`: the tasks spawned so far, and the error it returned. -/
structure Launch (V : Type) where
  execution : Execution V
  tasks : List (String × JobConfig V)
  aborted : Option WorkflowError

namespace Executor

variable (x : Executor V)

def launchJob (batch : ℕ) (l : Launch V) (jobId : String) : Launch V :=
  if l.aborted.isSome then l
  else
    match x.jobStates.get jobId with
    | none => l
    | some jobState =>
      let config := jobState.jobConfig
      match config.job.shouldSkip l.execution.context with
      | .error e => { l with aborted := some e }
      | .ok true => { l with execution := l.execution.updateJobStatus jobId .skipped none }
      | .ok false =>
        match config.job.validatePrerequisites l.execution.context with
        | .error e =>
          let errorMsg := "Prerequisites not met for job '" ++ jobId ++ "': " ++ e.display
          let execution := (l.execution.updateJobStatus jobId .failure (some errorMsg)).log
            [.prerequisitesFailed batch jobId config.required]
          { l with
            execution := execution
            aborted := if config.required && !x.continueOnFailure then some e else none }
        | .ok () =>
          match x.createJobExecution jobId with
          | .error e => { l with aborted := some e }
          | .ok () =>
            { l with
              execution := (l.execution.updateJobStatus jobId .running none).log
                [.began batch jobId]
              tasks := l.tasks ++ [(jobId, config)] }

def launch (batch : ℕ) (jobs : List String) (e : Execution V) : Launch V :=
  jobs.foldl (x.launchJob batch) ⟨e, [], none⟩

inductive LaunchStep (batch : ℕ) (l : Launch V) (jobId : String) : Launch V → Prop
  | returned (h : l.aborted.isSome) : LaunchStep batch l jobId l
  | unknown (ha : l.aborted = none) (h : x.jobStates.get jobId = none) : LaunchStep batch l jobId l
  | aborts (ha : l.aborted = none) (e : WorkflowError) :
      LaunchStep batch l jobId { l with aborted := some e }
  | skips (ha : l.aborted = none) :
      LaunchStep batch l jobId
        { l with execution := l.execution.updateJobStatus jobId .skipped none }
  | prerequisites (ha : l.aborted = none) (s : JobExecutionState V)
      (hs : x.jobStates.get jobId = some s) (message : String) (aborted : Option WorkflowError)
      (hstop : s.jobConfig.required → x.continueOnFailure = false → aborted.isSome) :
      LaunchStep batch l jobId
        { l with
          execution := (l.execution.updateJobStatus jobId .failure (some message)).log
            [.prerequisitesFailed batch jobId s.jobConfig.required]
          aborted := aborted }
  | spawns (ha : l.aborted = none) (s : JobExecutionState V)
      (hs : x.jobStates.get jobId = some s) :
      LaunchStep batch l jobId
        { l with
          execution := (l.execution.updateJobStatus jobId .running none).log [.began batch jobId]
          tasks := l.tasks ++ [(jobId, s.jobConfig)] }

theorem launchJob_step (batch : ℕ) (l : Launch V) (jobId : String) :
    x.LaunchStep batch l jobId (x.launchJob batch l jobId) := by
  rw [launchJob]
  split
  · exact .returned ‹_›
  have ha : l.aborted = none := by simpa using ‹¬ l.aborted.isSome›
  split
  · exact .unknown ha ‹_›
  rename_i s hs
  dsimp only
  split
  · exact .aborts ha _
  · exact .skips ha
  split
  · refine .prerequisites ha s hs _ _ ?_
    intro hr hc
    simp [hr, hc]
  split
  · exact .aborts ha _
  · exact .spawns ha s hs

/-- What holds of every launch, whatever the rows: the context is untouched, the tasks are planned
jobs of the batch, and the events are events of the batch. -/
structure Launching (batch : ℕ) (jobs : List String) (e : Execution V) (events : List Event)
    (l : Launch V) : Prop where
  context : l.execution.context = e.context
  ids : ∀ t ∈ l.tasks, t.1 ∈ jobs
  known : ∀ t ∈ l.tasks, ∃ s, x.jobStates.get t.1 = some s ∧ s.jobConfig = t.2
  trace : l.execution.trace = e.trace ++ events
  here : ∀ ev ∈ events, ev.batch = batch
  stops : x.continueOnFailure = false → (∃ ev ∈ events, ev.stops) → l.aborted.isSome

variable {x} {events : List Event} {e : Execution V} {l : Launch V} {batch : ℕ} {jobs : List String}

theorem launchJob_launching {l' : Launch V} {jobId : String} (hjob : jobId ∈ jobs)
    (h : x.Launching batch jobs e events l) (hl : x.LaunchStep batch l jobId l') :
    ∃ new, x.Launching batch jobs e (events ++ new) l' := by
  cases hl with
  | returned | unknown => exact ⟨[], by simpa using h⟩
  | aborts ha err =>
    refine ⟨[], ?_⟩
    rw [append_nil]
    exact { h with stops := fun _ _ ↦ rfl }
  | skips =>
    refine ⟨[], ?_⟩
    rw [append_nil]
    exact { h with }
  | prerequisites ha s hs message aborted hstop =>
    refine ⟨[.prerequisitesFailed batch jobId s.jobConfig.required], h.context, h.ids, h.known,
      ?_, ?_, ?_⟩
    · simp only [Execution.log, Execution.updateJobStatus, h.trace, append_assoc]
    · exact forall_mem_append.mpr ⟨h.here, forall_mem_singleton.mpr rfl⟩
    · intro hc ⟨ev, hev, hs⟩
      rcases mem_append.mp hev with hev | hev
      · have := h.stops hc ⟨ev, hev, hs⟩
        rw [ha] at this
        cases this
      · rw [mem_singleton.mp hev] at hs
        exact hstop hs hc
  | spawns ha s hs =>
    refine ⟨[.began batch jobId], h.context, ?_, ?_, ?_, ?_, ?_⟩
    · exact forall_mem_append.mpr ⟨h.ids, forall_mem_singleton.mpr hjob⟩
    · exact forall_mem_append.mpr ⟨h.known, forall_mem_singleton.mpr ⟨s, hs, rfl⟩⟩
    · simp only [Execution.log, Execution.updateJobStatus, h.trace, append_assoc]
    · exact forall_mem_append.mpr ⟨h.here, forall_mem_singleton.mpr rfl⟩
    · intro hc ⟨ev, hev, hs⟩
      rcases mem_append.mp hev with hev | hev
      · exact h.stops hc ⟨ev, hev, hs⟩
      · rw [mem_singleton.mp hev] at hs
        cases hs

theorem foldl_launching {todo : List String} (htodo : ∀ i ∈ todo, i ∈ jobs)
    (h : x.Launching batch jobs e events l) :
    ∃ events', x.Launching batch jobs e events' (todo.foldl (x.launchJob batch) l) := by
  induction todo generalizing events l with
  | nil => exact ⟨events, h⟩
  | cons i todo ih =>
    rw [forall_mem_cons] at htodo
    obtain ⟨new, hnew⟩ := launchJob_launching htodo.1 h (x.launchJob_step batch l i)
    exact ih htodo.2 hnew

theorem launch_launching (batch : ℕ) (jobs : List String) (e : Execution V) :
    ∃ events, x.Launching batch jobs e events (x.launch batch jobs e) := by
  have hstart : x.Launching batch jobs e [] ⟨e, [], none⟩ :=
    ⟨rfl, by simp, by simp, by simp, by simp, by simp⟩
  exact foldl_launching (fun _ h ↦ h) hstart

variable (x)

def joinAll (context : WorkflowContext V) :
    List (String × JobConfig V) → Except WorkflowError (List (String × JobResult V))
  | [] => .ok []
  | (jobId, config) :: tasks =>
    match taskResult config.job context with
    | .error joinError => .error (.other ("Task execution failed: " ++ joinError))
    | .ok jobResult =>
      match joinAll context tasks with
      | .error e => .error e
      | .ok jobResults => .ok ((jobId, jobResult) :: jobResults)

def endEvent (batch : ℕ) (context : WorkflowContext V) (task : String × JobConfig V) :
    Option Event :=
  match taskResult task.2.job context with
  | .error _ => none
  | .ok jobResult => some (.ended batch task.1 task.2.required jobResult.status)

def executeJobBatch (batch : ℕ) (jobs : List String) (e : Execution V) :
    Except WorkflowError (List (String × JobResult V)) × Execution V :=
  let l := x.launch batch jobs e
  let execution := l.execution.log (l.tasks.filterMap (endEvent batch e.context))
  match l.aborted with
  | some error => (.error error, execution)
  | none => (joinAll e.context l.tasks, execution)

def completionMessage (result : JobResult V) : Option String :=
  match result.status with
  | .success => none
  | .failure => some (result.message.getD "Job failed")
  | _ => result.message

def settleResults : List (String × JobResult V) → Execution V →
    Except WorkflowError Unit × Execution V
  | [], e => (.ok (), e)
  | (jobId, result) :: rest, e =>
    match x.jobStates.get jobId with
    | none => settleResults rest e
    | some jobState =>
      let merged : Execution V := { e with context := mergeResult e.context result }
      let recorded := merged.updateJobStatus jobId result.status (completionMessage result)
      if jobState.jobConfig.required && result.status = .failure && !x.continueOnFailure then
        (.error (requiredJobFailed jobId result.message),
          recorded.cancelPendingJobs ("Required job '" ++ jobId ++ "' failed: " ++
            result.message.getD "Unknown error"))
      else settleResults rest recorded

def runBatch (batch : ℕ) (jobs : List String) (e : Execution V) :
    Except WorkflowError Unit × Execution V :=
  match x.executeJobBatch batch jobs e with
  | (.error error, e') =>
    (.error error, e'.cancelPendingJobs ("Workflow aborted: " ++ error.display))
  | (.ok results, e') => x.settleResults results e'

def joined (batch : ℕ) (jobs : List String) (e : Execution V) : Execution V :=
  (x.launch batch jobs e).execution.log
    ((x.launch batch jobs e).tasks.filterMap (endEvent batch e.context))

variable {x} in
theorem runBatch_eq (batch : ℕ) (jobs : List String) (e : Execution V) :
    (∃ error, ((x.launch batch jobs e).aborted = some error ∨
        (x.launch batch jobs e).aborted = none ∧
          joinAll e.context (x.launch batch jobs e).tasks = .error error) ∧
      x.runBatch batch jobs e = (.error error,
        (x.joined batch jobs e).cancelPendingJobs ("Workflow aborted: " ++ error.display))) ∨
    ∃ results, (x.launch batch jobs e).aborted = none ∧
      joinAll e.context (x.launch batch jobs e).tasks = .ok results ∧
      x.runBatch batch jobs e = x.settleResults results (x.joined batch jobs e) := by
  cases ha : (x.launch batch jobs e).aborted with
  | some error => exact .inl ⟨error, .inl rfl, by simp only [runBatch, executeJobBatch, ha, joined]⟩
  | none =>
    cases hj : joinAll e.context (x.launch batch jobs e).tasks with
    | error error =>
      refine .inl ⟨error, .inr ⟨rfl, rfl⟩, ?_⟩
      simp only [runBatch, executeJobBatch, ha, hj, joined]
    | ok results =>
      exact .inr ⟨results, rfl, rfl, by simp only [runBatch, executeJobBatch, ha, hj, joined]⟩

def executeBatches : ℕ → List (List String) → Execution V →
    Except WorkflowError (WorkflowContext V) × Execution V
  | _, [], e => (.ok e.context, e)
  | batch, jobs :: order, e =>
    match x.cancellationProvider batch with
    | .error error =>
      (.error error,
        e.cancelPendingJobs ("Cancellation status check failed: " ++ error.display))
    | .ok true => (.error .workflowCancelled, e.cancelPendingJobs "Workflow cancelled by user")
    | .ok false =>
      match x.runBatch batch jobs e with
      | (.error error, e') => (.error error, e')
      | (.ok (), e') => executeBatches (batch + 1) order e'

variable {x} in
theorem executeBatches_cancelled {batch : ℕ} (hp : x.cancellationProvider batch ≠ .ok false)
    (jobs : List String) (order : List (List String)) (e : Execution V) :
    ∃ error reason, x.executeBatches batch (jobs :: order) e =
      (.error error, e.cancelPendingJobs reason) := by
  rw [executeBatches]
  split
  · exact ⟨_, _, rfl⟩
  · exact ⟨_, _, rfl⟩
  · exact absurd ‹_› hp

end Executor

def initialContext (config : WorkflowConfig V) : WorkflowContext V :=
  { WorkflowContext.new config.workflowRunId config.deploymentId config.projectId
      config.environmentId with
    vars := config.initialContext }

/-- `execute_workflow`, started over the rows the planner has created. -/
def executeWorkflow (hash : HashOrder V) (createJobExecution : String → Except WorkflowError Unit)
    (provider : CancellationProvider) (config : WorkflowConfig V) (rows : Map String JobRow) :
    Except WorkflowError (WorkflowContext V) × Execution V :=
  let start : Execution V := ⟨initialContext config, rows, []⟩
  match planWorkflow hash config.jobs with
  | .error e => (.error e, start)
  | .ok (jobStates, order) =>
    Executor.executeBatches ⟨jobStates, createJobExecution, provider, config.continueOnFailure⟩
      0 order start

end Temps.Core.WorkflowExecutor
