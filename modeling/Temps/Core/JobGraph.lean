import Temps.Lib.Fallible
import Temps.Lib.Kahn
import Temps.Core.Workflow

namespace Temps.Core.JobGraph

open Workflow Lib.Kahn Lib.Fallible List

variable {V : Type}

structure JobExecutionState (V : Type) where
  jobConfig : JobConfig V
  dependencies : List String
  dependents : List String

/-- The entries of a map from job ids, in the order in which the map is iterated. -/
abbrev JobStates (V : Type) := List (String × JobExecutionState V)

namespace JobStates

def get (states : JobStates V) (jobId : String) : Option (JobExecutionState V) :=
  (states.find? fun e ↦ e.1 = jobId).map Prod.snd

def keys (states : JobStates V) : List String := states.map Prod.fst

def modify (states : JobStates V) (jobId : String)
    (f : JobExecutionState V → JobExecutionState V) : JobStates V :=
  states.map fun e ↦ if e.1 = jobId then (e.1, f e.2) else e

def insert (states : JobStates V) (jobId : String) (state : JobExecutionState V) : JobStates V :=
  if jobId ∈ states.keys then states.modify jobId fun _ ↦ state else states ++ [(jobId, state)]

def dependencies (states : JobStates V) (jobId : String) : List String :=
  ((states.get jobId).map JobExecutionState.dependencies).getD []

def dependents (states : JobStates V) (jobId : String) : List String :=
  ((states.get jobId).map JobExecutionState.dependents).getD []

theorem keys_modify (states : JobStates V) (jobId : String)
    (f : JobExecutionState V → JobExecutionState V) : (states.modify jobId f).keys = states.keys := by
  simp only [keys, modify, map_map]
  apply map_congr_left
  intro e _
  simp only [Function.comp_apply]
  split <;> rfl

theorem get_modify (states : JobStates V) (jobId i : String)
    (f : JobExecutionState V → JobExecutionState V) :
    (states.modify jobId f).get i = if i = jobId then (states.get i).map f else states.get i := by
  induction states with
  | nil => simp [get, modify]
  | cons e states ih =>
    simp only [get, modify] at ih ⊢
    by_cases hi : e.1 = i <;> by_cases hj : e.1 = jobId <;> grind

variable {states : JobStates V} {i : String}

theorem get_eq_none : states.get i = none ↔ i ∉ states.keys := by
  simp only [get, keys, Option.map_eq_none_iff]
  grind

theorem get_isSome : (states.get i).isSome ↔ i ∈ states.keys := by
  rw [← not_iff_not, ← get_eq_none, Option.not_isSome_iff_eq_none]

theorem nodup_insert (h : states.keys.Nodup) (jobId : String) (state : JobExecutionState V) :
    (states.insert jobId state).keys.Nodup := by
  rw [insert]
  split
  · rw [keys_modify]
    exact h
  · rename_i hn
    have hk : JobStates.keys (states ++ [(jobId, state)]) = states.keys ++ [jobId] := by simp [keys]
    rw [hk, nodup_append]
    refine ⟨h, nodup_singleton _, ?_⟩
    intro a ha b hb hab
    rw [mem_singleton] at hb
    exact hn (hb ▸ hab ▸ ha)

theorem mem_keys_insert {jobId : String} {state : JobExecutionState V} :
    i ∈ (states.insert jobId state).keys ↔ i = jobId ∨ i ∈ states.keys := by
  rw [insert]
  split
  · rw [keys_modify]
    grind
  · simp only [keys, map_append, mem_append, map_cons, map_nil, mem_singleton]
    exact or_comm

end JobStates

/-- The order in which the maps of this process iterate over their entries. -/
structure HashOrder (V : Type) where
  order : JobStates V → JobStates V
  perm : ∀ states, (order states).Perm states

def dependenciesOf (jobConfig : JobConfig V) : List String :=
  jobConfig.dependenciesOverride.getD jobConfig.job.dependsOn

def insertJob (states : JobStates V) (jobConfig : JobConfig V) : JobStates V :=
  states.insert jobConfig.job.jobId
    { jobConfig := jobConfig
      dependencies := dependenciesOf jobConfig
      dependents := [] }

def linkDependent (jobId : String) (states : JobStates V) (depJobId : String) :
    Except WorkflowError (JobStates V) :=
  if (states.get depJobId).isSome then
    .ok (states.modify depJobId fun s ↦ { s with dependents := s.dependents ++ [jobId] })
  else
    .error (.jobNotFound
      ("Job '" ++ jobId ++ "' depends on '" ++ depJobId ++ "' which doesn't exist"))

def linkJob (states : JobStates V) (jobId : String) : Except WorkflowError (JobStates V) :=
  (states.dependencies jobId).foldlM (linkDependent jobId) states

def buildJobDependencyGraph (hash : HashOrder V) (jobs : List (JobConfig V)) :
    Except WorkflowError (JobStates V) :=
  let jobStates := hash.order (jobs.foldl insertJob [])
  jobStates.keys.foldlM linkJob jobStates

structure Search where
  visited : List String
  recStack : List String

def searchDependency (visit : String → Search → Bool × Search) (acc : Bool × Search)
    (depId : String) : Bool × Search :=
  if acc.1 then acc
  else if depId ∉ acc.2.visited then visit depId acc.2
  else if depId ∈ acc.2.recStack then (true, acc.2)
  else acc

/-- Depth-first search for a cycle. Every nested call enters an unvisited job, so the number of
jobs bounds the depth. -/
def hasCycle (jobStates : JobStates V) : ℕ → String → Search → Bool × Search
  | 0, _, search => (false, search)
  | fuel + 1, jobId, search =>
    let entered : Search := ⟨jobId :: search.visited, jobId :: search.recStack⟩
    let found := (jobStates.dependencies jobId).foldl
      (searchDependency (hasCycle jobStates fuel)) (false, entered)
    if found.1 then found
    else (false, { found.2 with recStack := found.2.recStack.filter (· ≠ jobId) })

def validateFrom (jobStates : JobStates V) : List String → Search → Except WorkflowError Unit
  | [], _ => .ok ()
  | jobId :: rest, search =>
    if jobId ∈ search.visited then validateFrom jobStates rest search
    else
      match hasCycle jobStates (jobStates.length + 1) jobId search with
      | (true, _) => .error (.dependencyCycleDetected
          ("Dependency cycle detected involving job '" ++ jobId ++ "'"))
      | (false, search') => validateFrom jobStates rest search'

def validateDependencyGraph (jobStates : JobStates V) : Except WorkflowError Unit :=
  validateFrom jobStates jobStates.keys ⟨[], []⟩

def inDegree (jobStates : JobStates V) (jobId : String) : Option ℕ :=
  (jobStates.get jobId).map fun s ↦ s.dependencies.length

def calculateExecutionOrder (jobStates : JobStates V) : Except WorkflowError (List (List String)) :=
  let queue := jobStates.keys.filter fun jobId ↦ inDegree jobStates jobId = some 0
  let order := levels jobStates.dependents (jobStates.length + 1) (inDegree jobStates) queue []
  if (order.map List.length).sum ≠ jobStates.length then
    .error (.dependencyCycleDetected "Unable to resolve all dependencies - cycle detected")
  else .ok order

/-- The part of `execute_workflow` before the first batch. -/
def planWorkflow (hash : HashOrder V) (jobs : List (JobConfig V)) :
    Except WorkflowError (JobStates V × List (List String)) := do
  let jobStates ← buildJobDependencyGraph hash jobs
  validateDependencyGraph jobStates
  let order ← calculateExecutionOrder jobStates
  return (jobStates, order)

theorem keys_foldl_insertJob (jobs : List (JobConfig V)) (states : JobStates V)
    (h : states.keys.Nodup) :
    (jobs.foldl insertJob states).keys.Nodup ∧ ∀ i, i ∈ (jobs.foldl insertJob states).keys ↔
        i ∈ states.keys ∨ ∃ c ∈ jobs, c.job.jobId = i := by
  induction jobs generalizing states with
  | nil => simpa using h
  | cons c jobs ih =>
    obtain ⟨hn, hm⟩ := ih (insertJob states c) (JobStates.nodup_insert h _ _)
    refine ⟨hn, fun i ↦ ?_⟩
    rw [foldl_cons, hm i, insertJob, JobStates.mem_keys_insert]
    grind

/-- What the second pass has recorded after the edges `edges` (job, dependency). -/
structure Linked (base : JobStates V) (edges : List (String × String)) (states : JobStates V) :
    Prop where
  keys : states.keys = base.keys
  dependencies : ∀ i, states.dependencies i = base.dependencies i
  config : ∀ i, (states.get i).map JobExecutionState.jobConfig =
    (base.get i).map JobExecutionState.jobConfig
  dependents : ∀ i ∈ base.keys, states.dependents i =
    base.dependents i ++ (edges.filter fun e ↦ e.2 = i).map Prod.fst

variable {base states states' : JobStates V} {edges : List (String × String)} {jobId : String}

section

variable (h : Linked base edges states)
include h

theorem linkDependent_spec {dep : String} (hok : linkDependent jobId states dep = .ok states') :
    Linked base (edges ++ [(jobId, dep)]) states' := by
  unfold linkDependent at hok
  split at hok
  · rename_i hsome
    injection hok with hok
    subst hok
    have hget := fun i ↦ JobStates.get_modify states dep i
      fun s ↦ { s with dependents := s.dependents ++ [jobId] }
    refine ⟨by rw [JobStates.keys_modify, h.keys], fun i ↦ ?_, fun i ↦ ?_, fun i hi ↦ ?_⟩
    · rw [← h.dependencies i]
      simp only [JobStates.dependencies, hget]
      split
      · rw [Option.map_map]
        rfl
      · rfl
    · rw [← h.config i, hget]
      split
      · rw [Option.map_map]
        rfl
      · rfl
    · have hi' := h.dependents i hi
      rw [filter_append, map_append, ← append_assoc, ← hi']
      simp only [JobStates.dependents, hget]
      by_cases he : i = dep
      · obtain ⟨s, hs⟩ := Option.isSome_iff_exists.mp hsome
        simp [he, hs]
      · simp [he, Ne.symm he]
  · cases hok

theorem linkDependents_spec {deps : List String}
    (hok : deps.foldlM (linkDependent jobId) states = .ok states') :
    Linked base (edges ++ deps.map fun dep ↦ (jobId, dep)) states' := by
  induction deps generalizing states edges with
  | nil =>
    injection hok with hok
    simpa [hok] using h
  | cons dep deps ih =>
    obtain ⟨mid, hd, hok⟩ := bind_eq_ok.mp hok
    simpa using ih (linkDependent_spec h hd) hok

theorem linkJobs_spec {ids : List String} (hok : ids.foldlM linkJob states = .ok states') :
    Linked base (edges ++ ids.flatMap fun i ↦ (base.dependencies i).map fun dep ↦ (i, dep))
      states' := by
  induction ids generalizing states edges with
  | nil =>
    injection hok with hok
    simpa [hok] using h
  | cons i ids ih =>
    obtain ⟨mid, hd, hok⟩ := bind_eq_ok.mp hok
    have hmid := linkDependents_spec h hd
    rw [h.dependencies i] at hmid
    simpa using ih hmid hok

end

theorem count_sources (edges : List (String × String)) (i j : String) :
    ((edges.filter fun e ↦ e.2 = i).map Prod.fst).count j = edges.count (j, i) := by
  rw [count, countP_map, countP_filter]
  refine countP_congr fun e _ ↦ ?_
  simp [Prod.ext_iff]

theorem count_edges (ids : List String) (deps : String → List String) (hn : ids.Nodup)
    (i : String) {j : String} (hj : j ∈ ids) :
    (ids.flatMap fun k ↦ (deps k).map fun dep ↦ (k, dep)).count (j, i) = (deps j).count i := by
  have hsame : ∀ k, ((deps k).map fun dep ↦ (k, dep)).count (j, i) =
      if j = k then (deps j).count i else 0 := by
    intro k
    split
    case isTrue hk =>
      subst hk
      exact count_map_of_injective _ _ (fun _ _ h ↦ (Prod.mk.inj h).2) i
    case isFalse hk =>
      apply count_eq_zero_of_not_mem
      simp [Ne.symm hk]
  calc
    _ = ∑ k ∈ ids.toFinset, if j = k then (deps j).count i else 0 := by
      rw [count_flatMap, sum_toFinset _ hn]
      exact congrArg sum (map_congr_left fun k _ ↦ hsame k)
    _ = _ := by rw [Finset.sum_ite_eq, if_pos (mem_toFinset.mpr hj)]

theorem forall_foldl_insertJob {P : String × JobExecutionState V → Prop}
    (jobs : List (JobConfig V)) (states : JobStates V) (h : ∀ e ∈ states, P e)
    (hnew : ∀ c ∈ jobs, P (c.job.jobId, ⟨c, dependenciesOf c, []⟩)) :
    ∀ e ∈ jobs.foldl insertJob states, P e := by
  refine foldlRecOn (motive := fun states ↦ ∀ e ∈ states, P e) _ _ h fun states h c hc e he ↦ ?_
  have hc := hnew c hc
  simp only [insertJob, JobStates.insert] at he
  split at he
  · obtain ⟨e', he', rfl⟩ := mem_map.mp he
    split
    case isTrue hid => exact hid ▸ hc
    case isFalse => exact h e' he'
  · exact forall_mem_append.mpr ⟨h, forall_mem_singleton.mpr hc⟩ e he

variable {jobs : List (JobConfig V)} {i : String} {order : List (List String)}
  {s : JobExecutionState V} {hash : HashOrder V}

theorem mem_of_get (h : states.get i = some s) : (i, s) ∈ states := by
  simp only [JobStates.get, Option.map_eq_some_iff] at h
  obtain ⟨e, he, rfl⟩ := h
  have hid : e.1 = i := by simpa using List.find?_some he
  exact hid ▸ mem_of_find?_eq_some he

structure Initial (jobs : List (JobConfig V)) (base : JobStates V) : Prop where
  nodup : base.keys.Nodup
  mem_keys : ∀ i, i ∈ base.keys ↔ ∃ c ∈ jobs, c.job.jobId = i
  entry : ∀ e ∈ base, ∃ c ∈ jobs, c.job.jobId = e.1 ∧ e.2 = ⟨c, dependenciesOf c, []⟩

theorem initial_order (hash : HashOrder V) :
    Initial jobs (hash.order (jobs.foldl insertJob [])) := by
  obtain ⟨hn, hm⟩ := keys_foldl_insertJob jobs [] (by simp [JobStates.keys])
  have hperm := hash.perm (jobs.foldl insertJob [])
  have hkeys : (hash.order (jobs.foldl insertJob [])).keys.Perm (jobs.foldl insertJob []).keys :=
    hperm.map _
  refine ⟨hkeys.nodup_iff.mpr hn, fun i ↦ ?_, fun e he ↦ ?_⟩
  · rw [hkeys.mem_iff, hm i]
    simp [JobStates.keys]
  · exact forall_foldl_insertJob
      (P := fun e ↦ ∃ c ∈ jobs, c.job.jobId = e.1 ∧ e.2 = ⟨c, dependenciesOf c, []⟩) jobs []
      (by simp) (fun c hc ↦ ⟨c, hc, rfl, rfl⟩) e (hperm.subset he)

theorem Initial.get (h : Initial jobs base) (hs : base.get i = some s) :
    ∃ c ∈ jobs, c.job.jobId = i ∧ s = ⟨c, dependenciesOf c, []⟩ :=
  h.entry _ (mem_of_get hs)

theorem linked_nil (base : JobStates V) : Linked base [] base :=
  ⟨rfl, fun _ ↦ rfl, fun _ ↦ rfl, fun _ _ ↦ by simp⟩

theorem dependents_edges (hl : Linked base edges states) (h : Initial jobs base)
    (hi : i ∈ base.keys) : states.dependents i = (edges.filter fun e ↦ e.2 = i).map Prod.fst := by
  have hb : base.dependents i = [] := by
    rw [JobStates.dependents]
    cases hg : base.get i with
    | none => rfl
    | some s =>
      obtain ⟨c, -, -, rfl⟩ := h.get hg
      rfl
  rw [hl.dependents i hi, hb, nil_append]

theorem Linked.graph (h : Initial jobs base)
    (hl : Linked base (base.keys.flatMap fun i ↦ (base.dependencies i).map fun dep ↦ (i, dep))
      states) : Graph states.keys states.dependencies states.dependents := by
  refine ⟨hl.keys ▸ h.nodup, ?_, ?_⟩
  · intro i hi j hj
    rw [hl.keys] at hi hj
    rw [dependents_edges hl h hi, count_sources, hl.dependencies, count_edges _ _ h.nodup i hj]
  · intro i hi j hj
    rw [hl.keys] at hi ⊢
    rw [dependents_edges hl h hi] at hj
    obtain ⟨e, he, rfl⟩ := mem_map.mp hj
    obtain ⟨k, hk, he⟩ := mem_flatMap.mp (mem_filter.mp he).1
    obtain ⟨dep, -, rfl⟩ := mem_map.mp he
    exact hk

theorem buildJobDependencyGraph_linked (hok : buildJobDependencyGraph hash jobs = .ok states) :
    ∃ base, Initial jobs base ∧
      Linked base (base.keys.flatMap fun i ↦ (base.dependencies i).map fun dep ↦ (i, dep))
        states := by
  refine ⟨_, initial_order hash, ?_⟩
  simpa using linkJobs_spec (linked_nil _) hok

def roots (states : JobStates V) : List String :=
  states.keys.filter fun jobId ↦ inDegree states jobId = some 0

def batches (states : JobStates V) : List (List String) :=
  levels states.dependents (states.length + 1) (inDegree states) (roots states) []

theorem calculateExecutionOrder_eq (states : JobStates V) :
    calculateExecutionOrder states =
      if ((batches states).map List.length).sum ≠ states.length then
        .error (.dependencyCycleDetected "Unable to resolve all dependencies - cycle detected")
      else .ok (batches states) := rfl

section

variable (g : Graph states.keys states.dependencies states.dependents)
include g

theorem levelled_start :
    Levelled states.keys states.dependencies states.dependents [] (roots states)
      (inDegree states) := by
  have hdeg : ∀ j ∈ states.keys, inDegree states j = some (states.dependencies j).length := by
    intro j hj
    obtain ⟨s, hs⟩ := Option.isSome_iff_exists.mp (JobStates.get_isSome.mpr hj)
    simp [inDegree, JobStates.dependencies, hs]
  refine ⟨?_, fun j ↦ ?_, by simpa using hdeg⟩
  · exact g.nodes_nodup.filter _
  · simp only [roots, nil_append, mem_filter, decide_eq_true_eq, flatMap_nil, count_nil]
    constructor
    · intro ⟨hj, h0⟩
      rw [hdeg j hj] at h0
      injection h0 with h0
      exact ⟨hj, h0.symm⟩
    · intro ⟨hj, h0⟩
      exact ⟨hj, by rw [hdeg j hj, h0]⟩

theorem batches_spec :
    (∃ degree, Levelled states.keys states.dependencies states.dependents
      (batches states).flatten [] degree) ∧ Layered states.dependencies (batches states) ∧
      NoUnderflow states.dependents (states.length + 1) (inDegree states) (roots states) := by
  have hlen : states.keys.length = states.length := length_map _
  apply levels_spec g _ [] (levelled_start g) ⟨nofun, nofun, nofun⟩ (absurd rfl)
  omega

theorem calculateExecutionOrder_spec (hok : calculateExecutionOrder states = .ok order) :
    order.flatten.Perm states.keys ∧ Layered states.dependencies order := by
  have hlen : states.keys.length = states.length := length_map _
  obtain ⟨⟨degree, hspec⟩, hlayers, -⟩ := batches_spec g
  rw [calculateExecutionOrder_eq] at hok
  split at hok
  · cases hok
  · rename_i hsum
    injection hok with hok
    rw [hok] at hspec hsum hlayers
    refine ⟨hspec.perm_nodes ?_, hlayers⟩
    rw [length_flatten]
    omega

end

/-- A planned workflow: its batches hold every job of the configuration exactly once. -/
structure Planned (jobs : List (JobConfig V)) (states : JobStates V) (order : List (List String)) :
    Prop where
  nodup : order.flatten.Nodup
  mem : ∀ i, i ∈ order.flatten ↔ ∃ c ∈ jobs, c.job.jobId = i
  known : ∀ i ∈ order.flatten, states.get i ≠ none
  config : ∀ i s, states.get i = some s → s.jobConfig ∈ jobs

theorem planWorkflow_linked (hok : planWorkflow hash jobs = .ok (states, order)) :
    ∃ base, Initial jobs base ∧
      Linked base (base.keys.flatMap fun i ↦ (base.dependencies i).map fun dep ↦ (i, dep)) states ∧
      calculateExecutionOrder states = .ok order := by
  simp only [planWorkflow, bind_eq_ok] at hok
  obtain ⟨built, hb, -, -, order', ho, he⟩ := hok
  cases he
  obtain ⟨base, hbase, hl⟩ := buildJobDependencyGraph_linked hb
  exact ⟨base, hbase, hl, ho⟩

theorem planWorkflow_planned (hok : planWorkflow hash jobs = .ok (states, order)) :
    Planned jobs states order := by
  obtain ⟨base, hbase, hl, ho⟩ := planWorkflow_linked hok
  have g := hl.graph hbase
  have hp := (calculateExecutionOrder_spec g ho).1
  refine ⟨hp.nodup_iff.mpr g.nodes_nodup, fun i ↦ ?_, fun i hi ↦ ?_, fun i s hs ↦ ?_⟩
  · rw [hp.mem_iff, hl.keys, hbase.mem_keys]
  · rw [ne_eq, JobStates.get_eq_none, not_not]
    exact hp.mem_iff.mp hi
  · have hc := hl.config i
    rw [hs] at hc
    obtain ⟨s', hs', hc⟩ := Option.map_eq_some_iff.mp hc.symm
    obtain ⟨c, hmem, -, rfl⟩ := hbase.get hs'
    exact hc ▸ hmem

end Temps.Core.JobGraph
