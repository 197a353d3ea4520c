import Temps.Core.WorkflowExecutor

namespace Temps.Core.RowStatus

open Workflow ContextMerge JobGraph WorkflowExecutor List

variable {V : Type}

def status (e : Execution V) (jobId : String) : Option JobStatus :=
  (e.rows jobId).map JobRow.status

def Closed (e : Execution V) (jobId : String) : Prop :=
  ∃ s, status e jobId = some s ∧ s.terminal

variable {e e' : Execution V} {i : String}

theorem status_update (e : Execution V) (jobId i : String) (s : JobStatus) (m : Option String) :
    status (e.updateJobStatus jobId s m) i =
      if i = jobId then (status e i).map fun _ ↦ s else status e i := by
  simp only [status, Execution.updateJobStatus]
  split
  · rw [Option.map_map, Option.map_map]
    rfl
  · rfl

theorem status_cancel (e : Execution V) (reason i : String) :
    status (e.cancelPendingJobs reason) i =
      (status e i).map fun s ↦ if s = .pending then .cancelled else s := by
  simp only [status, Execution.cancelPendingJobs, Option.map_map]
  congr 1
  funext row
  simp only [Function.comp_apply]
  split <;> rfl

theorem Closed.cancel (reason : String) (h : Closed e i) :
    Closed (e.cancelPendingJobs reason) i := by
  obtain ⟨s, hs, ht⟩ := h
  refine ⟨s, ?_, ht⟩
  rw [status_cancel, hs]
  cases s <;> first | rfl | cases ht

theorem closed_of_pending (reason : String) (h : status e i = some .pending) :
    Closed (e.cancelPendingJobs reason) i :=
  ⟨.cancelled, by rw [status_cancel, h]; rfl, rfl⟩

theorem running_not_closed (reason : String) (h : status e i = some .running) :
    ¬ Closed (e.cancelPendingJobs reason) i := by
  intro ⟨s, hs, ht⟩
  rw [status_cancel, h] at hs
  cases hs
  cases ht

/-- The rows of the jobs `jobs` once the first loop has gone through them. -/
structure Launched (e : Execution V) (jobs : List String) (l : Launch V) : Prop where
  sublist : (l.tasks.map Prod.fst).Sublist jobs
  running : ∀ i ∈ l.tasks.map Prod.fst, status l.execution i = some .running
  other : ∀ i ∈ jobs, i ∉ l.tasks.map Prod.fst →
    Closed l.execution i ∨ status l.execution i = some .pending ∧ l.aborted.isSome
  frame : ∀ i ∉ jobs, status l.execution i = status e i

variable {x : Executor V} {jobs : List String} {l l' : Launch V} {jobId : String} {batch : ℕ}

theorem Launched.unspawned (h : Launched e jobs l) (hjob : jobId ∉ jobs)
    (htasks : l'.tasks = l.tasks)
    (hkeep : ∀ i ≠ jobId, status l'.execution i = status l.execution i)
    (haborted : l.aborted.isSome → l'.aborted.isSome)
    (hown : Closed l'.execution jobId ∨
      status l'.execution jobId = some .pending ∧ l'.aborted.isSome) :
    Launched e (jobs ++ [jobId]) l' := by
  have hne : ∀ i ∈ jobs, i ≠ jobId := fun i hi he ↦ hjob (he ▸ hi)
  refine ⟨?_, ?_, ?_, ?_⟩
  · rw [htasks]
    exact h.sublist.trans (sublist_append_left _ _)
  · rw [htasks]
    intro i hi
    rw [hkeep i (hne i (h.sublist.subset hi))]
    exact h.running i hi
  · rw [htasks]
    intro i hi hn
    rcases mem_append.mp hi with hi | hi
    · rw [Closed, hkeep i (hne i hi)]
      exact (h.other i hi hn).imp_right (.imp_right haborted)
    · rw [mem_singleton.mp hi]
      exact hown
  · intro i hi
    rw [mem_append, not_or] at hi
    rw [hkeep i (by simpa using hi.2), h.frame i hi.1]

theorem launchJob_launched (h : Launched e jobs l) (hjob : jobId ∉ jobs)
    (hpending : status e jobId = some .pending) (hknown : x.jobStates.get jobId ≠ none)
    (hl' : x.LaunchStep batch l jobId l') : Launched e (jobs ++ [jobId]) l' := by
  have hrow : status l.execution jobId = some .pending := (h.frame jobId hjob).trans hpending
  have hne : ∀ i ∈ jobs, i ≠ jobId := fun i hi he ↦ hjob (he ▸ hi)
  cases hl' with
  | returned ha => exact h.unspawned hjob rfl (fun _ _ ↦ rfl) id (.inr ⟨hrow, ha⟩)
  | unknown ha hn => exact absurd hn hknown
  | aborts ha err =>
    exact h.unspawned hjob rfl (fun _ _ ↦ rfl) (fun _ ↦ rfl) (.inr ⟨hrow, rfl⟩)
  | skips ha =>
    refine h.unspawned hjob rfl (fun i hi ↦ ?_) id (.inl ⟨.skipped, ?_, rfl⟩)
    · exact (status_update _ _ _ _ _).trans (if_neg hi)
    · simp [status_update, hrow]
  | prerequisites ha s hs message aborted hstop =>
    refine h.unspawned hjob rfl (fun i hi ↦ ?_) (by simp [ha]) (.inl ⟨.failure, ?_, rfl⟩)
    · exact (status_update _ _ _ _ _).trans (if_neg hi)
    · exact (status_update _ _ _ _ _).trans (by simp [hrow])
  | spawns ha s hs =>
    have hkeep : ∀ i ≠ jobId, status ((l.execution.updateJobStatus jobId .running none).log
        [.began batch jobId]) i = status l.execution i :=
      fun i hi ↦ (status_update _ _ _ _ _).trans (if_neg hi)
    have hown : status ((l.execution.updateJobStatus jobId .running none).log
        [.began batch jobId]) jobId = some .running :=
      (status_update _ _ _ _ _).trans (by simp [hrow])
    refine ⟨?_, ?_, ?_, ?_⟩
    · rw [map_append]
      exact h.sublist.append (List.Sublist.refl _)
    · intro i hi
      rw [map_append] at hi
      rcases mem_append.mp hi with hi | hi
      · exact (hkeep i (hne i (h.sublist.subset hi))).trans (h.running i hi)
      · rw [map_singleton, mem_singleton] at hi
        exact hi ▸ hown
    · intro i hi hn
      rw [map_append, mem_append, not_or] at hn
      rcases mem_append.mp hi with hi | hi
      · rw [Closed, hkeep i (hne i hi)]
        exact h.other i hi hn.1
      · exact absurd hi hn.2
    · intro i hi
      rw [mem_append, not_or] at hi
      exact (hkeep i (by simpa using hi.2)).trans (h.frame i hi.1)

theorem foldl_launched (rest : List String) (h : Launched e jobs l)
    (hn : (jobs ++ rest).Nodup) (hpending : ∀ i ∈ rest, status e i = some .pending)
    (hknown : ∀ i ∈ rest, x.jobStates.get i ≠ none) :
    Launched e (jobs ++ rest) (rest.foldl (x.launchJob batch) l) := by
  induction rest generalizing jobs l with
  | nil => simpa using h
  | cons i rest ih =>
    have hi : i ∉ jobs := by
      intro hi
      exact (nodup_append.mp hn).2.2 i hi i (by simp) rfl
    have hstep := launchJob_launched h hi (hpending i (by simp)) (hknown i (by simp))
      (x.launchJob_step batch l i)
    have hrest := ih hstep (by simpa using hn) (fun j hj ↦ hpending j (by simp [hj]))
      (fun j hj ↦ hknown j (by simp [hj]))
    simpa using hrest

theorem launch_launched (batch : ℕ) (hn : jobs.Nodup)
    (hpending : ∀ i ∈ jobs, status e i = some .pending)
    (hknown : ∀ i ∈ jobs, x.jobStates.get i ≠ none) :
    Launched e jobs (x.launch batch jobs e) := by
  have hstart : Launched e [] ⟨e, [], none⟩ :=
    ⟨List.Sublist.refl _, by simp, by simp, fun _ _ ↦ rfl⟩
  exact foldl_launched jobs hstart hn hpending hknown

def Stops (x : Executor V) (context : WorkflowContext V) (t : String × JobConfig V) : Prop :=
  t.2.required = true ∧ x.continueOnFailure = false ∧
    ∃ r, taskResult t.2.job context = .ok r ∧ r.status = .failure

def Joined (context : WorkflowContext V) (t : String × JobConfig V) (r : String × JobResult V) :
    Prop :=
  r.1 = t.1 ∧ taskResult t.2.job context = .ok r.2

variable {context : WorkflowContext V} {tasks : List (String × JobConfig V)}
  {results : List (String × JobResult V)} {t : String × JobConfig V}

theorem joinAll_ok (h : Executor.joinAll context tasks = .ok results) :
    List.Forall₂ (Joined context) tasks results := by
  fun_induction Executor.joinAll context tasks generalizing results with
  | case1 =>
    cases h
    exact .nil
  | case2 | case3 => cases h
  | case4 jobId config tasks r hr results hj ih =>
    cases h
    exact .cons ⟨rfl, hr⟩ (ih hj)

theorem all_joined (h : List.Forall₂ (Joined context) tasks results) :
    ∀ t ∈ tasks, ∃ r, taskResult t.2.job context = .ok r := by
  induction h with
  | nil => simp
  | cons hj _ ih => exact forall_mem_cons.mpr ⟨⟨_, hj.2⟩, ih⟩

theorem joinAll_error {error : WorkflowError} (h : Executor.joinAll context tasks = .error error) :
    ∃ t ∈ tasks, ∀ r, taskResult t.2.job context ≠ .ok r := by
  fun_induction Executor.joinAll context tasks with
  | case1 | case4 => cases h
  | case2 jobId config tasks e hr => exact ⟨_, mem_cons_self, fun r hr' ↦ nomatch hr.symm.trans hr'⟩
  | case3 jobId config tasks r hr e hj ih =>
    cases h
    obtain ⟨t, ht, hfails⟩ := ih hj
    exact ⟨t, mem_cons_of_mem _ ht, hfails⟩

/-- The two ways the result loop ends: it has recorded every result, or it has recorded those up to
the first one that stops the workflow and cancelled what was still pending. -/
inductive Settled (x : Executor V) (context : WorkflowContext V)
    (tasks : List (String × JobConfig V)) (e : Execution V) :
    Except WorkflowError Unit × Execution V → Prop
  | all (e' : Execution V) (hgo : ∀ t ∈ tasks, ¬ Stops x context t)
      (hclosed : ∀ i ∈ tasks.map Prod.fst, Closed e' i)
      (hframe : ∀ i ∉ tasks.map Prod.fst, status e' i = status e i) :
      Settled x context tasks e (.ok (), e')
  | stopped (error : WorkflowError) (front back : List (String × JobConfig V))
      (t : String × JobConfig V) (e' : Execution V) (reason : String)
      (hsplit : tasks = front ++ t :: back) (hstop : Stops x context t)
      (hgo : ∀ t ∈ front, ¬ Stops x context t)
      (hclosed : ∀ i ∈ (front ++ [t]).map Prod.fst, Closed e' i)
      (hframe : ∀ i ∉ (front ++ [t]).map Prod.fst, status e' i = status e i) :
      Settled x context tasks e (.error error, e'.cancelPendingJobs reason)

theorem Settled.cons {e₀ : Execution V}
    {out : Except WorkflowError Unit × Execution V} (h : Settled x context tasks e out)
    (ht : t.1 ∉ tasks.map Prod.fst) (hgo : ¬ Stops x context t) (hown : Closed e t.1)
    (hkeep : ∀ i ≠ t.1, status e i = status e₀ i) : Settled x context (t :: tasks) e₀ out := by
  cases h with
  | all e' hgo' hclosed hframe =>
    refine .all e' ?_ ?_ ?_
    · exact forall_mem_cons.mpr ⟨hgo, hgo'⟩
    · refine forall_mem_cons.mpr ⟨?_, hclosed⟩
      rw [Closed, hframe _ ht]
      exact hown
    · intro i hi
      rw [map_cons, mem_cons, not_or] at hi
      exact (hframe i hi.2).trans (hkeep i hi.1)
  | stopped error front back t' e' reason hsplit hstop hgo' hclosed hframe =>
    have hout : t.1 ∉ (front ++ [t']).map Prod.fst := by
      intro hi
      apply ht
      rw [hsplit]
      simp only [map_append, map_cons, map_nil, mem_append, mem_cons, not_mem_nil, or_false] at hi ⊢
      rcases hi with hi | hi
      · exact .inl hi
      · exact .inr (.inl hi)
    refine .stopped error (t :: front) back t' e' reason (by simp [hsplit]) hstop ?_ ?_ ?_
    · exact forall_mem_cons.mpr ⟨hgo, hgo'⟩
    · refine forall_mem_cons.mpr ⟨?_, hclosed⟩
      rw [Closed, hframe _ hout]
      exact hown
    · intro i hi
      rw [cons_append, map_cons, mem_cons, not_or] at hi
      exact (hframe i hi.2).trans (hkeep i hi.1)

theorem stops_iff {s : JobExecutionState V} {result : JobResult V}
    (hconfig : s.jobConfig = t.2) (hres : taskResult t.2.job context = .ok result) :
    Stops x context t ↔
      (s.jobConfig.required && result.status = .failure && !x.continueOnFailure) = true := by
  simp [Stops, hres, hconfig, and_comm, and_left_comm]

theorem settleResults_settled (hj : List.Forall₂ (Joined context) tasks results)
    (hknown : ∀ t ∈ tasks, ∃ s, x.jobStates.get t.1 = some s ∧ s.jobConfig = t.2)
    (hterm : ∀ t ∈ tasks, ∀ r, taskResult t.2.job context = .ok r → r.status.terminal)
    (hn : (tasks.map Prod.fst).Nodup)
    (hrow : ∀ i ∈ tasks.map Prod.fst, status e i = some .running) :
    Settled x context tasks e (x.settleResults results e) := by
  induction hj generalizing e with
  | nil => exact .all e (by simp) (by simp) fun _ _ ↦ rfl
  | @cons t r tasks results hjoin hrest ih =>
    obtain ⟨hid, hres⟩ := hjoin
    obtain ⟨jobId, result⟩ := r
    obtain rfl : jobId = t.1 := hid
    obtain ⟨s, hs, hconfig⟩ := hknown t (by simp)
    obtain ⟨ht, hn'⟩ := nodup_cons.mp hn
    have hrow' : status { e with context := mergeResult e.context result } t.1 = some .running :=
      hrow t.1 (by simp)
    set recorded := ({ e with context := mergeResult e.context result } :
      Execution V).updateJobStatus t.1 result.status (Executor.completionMessage result)
      with hrecorded
    have hown : Closed recorded t.1 := by
      refine ⟨result.status, ?_, hterm t (by simp) result hres⟩
      rw [status_update, if_pos rfl, hrow']
      rfl
    have hkeep : ∀ i ≠ t.1, status recorded i = status e i := by
      intro i hi
      rw [status_update, if_neg hi]
      rfl
    simp only [Executor.settleResults, hs]
    split
    · rename_i hstop
      refine .stopped _ [] tasks t recorded _ rfl ((stops_iff hconfig hres).mpr hstop) (by simp) ?_ ?_
      · intro i hi
        rw [nil_append, map_singleton, mem_singleton] at hi
        exact hi ▸ hown
      · intro i hi
        exact hkeep i (by simpa using hi)
    · rename_i hgo
      refine Settled.cons (ih (fun t' h ↦ hknown t' (by simp [h])) (fun t' h ↦ hterm t' (by simp [h]))
        hn' fun i hi ↦ ?_) ht (mt (stops_iff hconfig hres).mp hgo) hown hkeep
      rw [hkeep i fun he ↦ ht (he ▸ hi)]
      exact hrow i (by simp [hi])

end Temps.Core.RowStatus
