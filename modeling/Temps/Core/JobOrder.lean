import Mathlib.Data.Finset.Card
import Mathlib.Data.Finset.Dedup
import Mathlib.Order.Bounds.Defs
import Temps.Core.JobGraph

namespace Temps.Core.JobOrder

open Workflow JobGraph Lib.Kahn Lib.Fallible List JobStates

variable {V : Type}

/-- Every dependency is a job of the set, and `rank` falls along every dependency. -/
def Ranked (rank : String → ℕ) (jobs : List (JobConfig V)) : Prop :=
  ∀ c ∈ jobs, ∀ d ∈ dependenciesOf c,
    (∃ c' ∈ jobs, c'.job.jobId = d) ∧ rank d < rank c.job.jobId

def ValidGraph (jobs : List (JobConfig V)) : Prop := ∃ rank, Ranked rank jobs

def Descends (rank : String → ℕ) (states : JobStates V) : Prop :=
  ∀ i, ∀ d ∈ states.dependencies i, d ∈ states.keys ∧ rank d < rank i

variable {rank : String → ℕ} {states states' base : JobStates V} {jobs : List (JobConfig V)}

theorem linkDependent_ok {dep : String} (jobId : String) (h : dep ∈ states.keys) :
    ∃ states', linkDependent jobId states dep = .ok states' := by
  rw [linkDependent, if_pos (get_isSome.mpr h)]
  exact ⟨_, rfl⟩

theorem linkDependents_ok (states : JobStates V) (jobId : String) (deps : List String)
    (h : ∀ d ∈ deps, d ∈ states.keys) :
    ∃ states', deps.foldlM (linkDependent jobId) states = .ok states' ∧
      states'.keys = states.keys := by
  induction deps generalizing states with
  | nil => exact ⟨states, rfl, rfl⟩
  | cons d deps ih =>
    obtain ⟨mid, hm⟩ := linkDependent_ok jobId (h d (by simp))
    have hk := (linkDependent_spec (linked_nil states) hm).keys
    obtain ⟨last, hl, hkeys⟩ := ih mid fun d' hd' ↦ hk ▸ h d' (by simp [hd'])
    refine ⟨last, ?_, hkeys.trans hk⟩
    rw [foldlM_cons, hm]
    exact hl

theorem linkJobs_ok {edges : List (String × String)} (ids : List String)
    (hbase : ∀ i, ∀ d ∈ base.dependencies i, d ∈ base.keys) (h : Linked base edges states) :
    ∃ states', ids.foldlM linkJob states = .ok states' := by
  induction ids generalizing states edges with
  | nil => exact ⟨states, rfl⟩
  | cons i ids ih =>
    obtain ⟨mid, hm, -⟩ := linkDependents_ok states i (states.dependencies i)
      fun d hd ↦ by
        rw [h.dependencies] at hd
        exact h.keys ▸ hbase i d hd
    obtain ⟨last, hl⟩ := ih (linkDependents_spec h hm)
    refine ⟨last, ?_⟩
    rw [foldlM_cons, linkJob, hm]
    exact hl

theorem Initial.exists_config (h : Initial jobs base) {i d : String}
    (hd : d ∈ base.dependencies i) : ∃ c ∈ jobs, c.job.jobId = i ∧ d ∈ dependenciesOf c := by
  rw [JobStates.dependencies] at hd
  cases hg : base.get i with
  | none =>
    rw [hg] at hd
    cases hd
  | some s =>
    obtain ⟨c, hc, rfl, rfl⟩ := h.get hg
    rw [hg] at hd
    exact ⟨c, hc, rfl, hd⟩

theorem Initial.descends (h : Initial jobs base) (hr : Ranked rank jobs) : Descends rank base := by
  intro i d hd
  obtain ⟨c, hc, rfl, hdep⟩ := Initial.exists_config h hd
  obtain ⟨hmem, hlt⟩ := hr c hc d hdep
  exact ⟨(h.mem_keys d).mpr hmem, hlt⟩

/-- What the search keeps while it works below `i`: nothing found, nothing new on the stack. -/
def Quiet (stack : List String) (out : Bool × Search) : Prop :=
  out.1 = false ∧ ∀ j ∈ out.2.recStack, j ∈ stack

section

variable {visit : String → Search → Bool × Search} {i : String} {stack : List String}
  (hvisit : ∀ d search, (∀ j ∈ search.recStack, rank d < rank j) →
    Quiet search.recStack (visit d search))
  (hstack : ∀ j ∈ stack, rank i < rank j)
include hvisit hstack

theorem searchDependency_quiet {d : String} {acc : Bool × Search} (hd : rank d < rank i)
    (h : Quiet (i :: stack) acc) : Quiet (i :: stack) (searchDependency visit acc d) := by
  obtain ⟨hfound, hsub⟩ := h
  have hbelow : ∀ j ∈ acc.2.recStack, rank d < rank j := by
    intro j hj
    rcases mem_cons.mp (hsub j hj) with rfl | hj
    · exact hd
    · exact Nat.lt_trans hd (hstack j hj)
  have hout : d ∉ acc.2.recStack := fun hj ↦ Nat.lt_irrefl _ (hbelow d hj)
  obtain ⟨hc, hs⟩ := hvisit d acc.2 hbelow
  simp only [searchDependency, hfound, Bool.false_eq_true, if_false]
  split
  · exact ⟨hc, fun j hj ↦ hsub j (hs j hj)⟩
  · exact ⟨hfound, hsub⟩

theorem foldl_quiet (deps : List String) (acc : Bool × Search)
    (hdeps : ∀ d ∈ deps, rank d < rank i) (h : Quiet (i :: stack) acc) :
    Quiet (i :: stack) (deps.foldl (searchDependency visit) acc) := by
  exact foldlRecOn deps _ h fun _ hacc d hd ↦
    searchDependency_quiet hvisit hstack (hdeps d hd) hacc

end

section

variable (h : Descends rank states)
include h

theorem hasCycle_quiet (fuel : ℕ) (i : String) (search : Search)
    (hstack : ∀ j ∈ search.recStack, rank i < rank j) :
    Quiet search.recStack (hasCycle states fuel i search) := by
  induction fuel generalizing i search with
  | zero => exact ⟨rfl, fun _ hj ↦ hj⟩
  | succ fuel ih =>
    obtain ⟨hf, hs⟩ := foldl_quiet ih hstack (states.dependencies i)
      (false, ⟨i :: search.visited, i :: search.recStack⟩) (fun d hd ↦ (h i d hd).2)
      ⟨rfl, fun j hj ↦ hj⟩
    simp only [hasCycle, hf]
    refine ⟨rfl, fun j hj ↦ ?_⟩
    obtain ⟨hj, hne⟩ := mem_filter.mp hj
    rcases mem_cons.mp (hs j hj) with rfl | hj
    · simp at hne
    · exact hj

theorem validateFrom_ok (ids : List String) (search : Search)
    (hstack : search.recStack = []) : validateFrom states ids search = .ok () := by
  induction ids generalizing search with
  | nil => rfl
  | cons i ids ih =>
    rw [validateFrom]
    split
    · exact ih search hstack
    · obtain ⟨hc, hs⟩ := hasCycle_quiet h (states.length + 1) i search (by simp [hstack])
      generalize hasCycle states (states.length + 1) i search = out at hc hs
      obtain ⟨found, search'⟩ := out
      obtain rfl : found = false := hc
      apply ih
      rw [hstack] at hs
      exact eq_nil_iff_forall_not_mem.mpr fun j hj ↦ nomatch hs j hj

theorem calculateExecutionOrder_ok (g : Graph states.keys states.dependencies states.dependents) :
    ∃ order, calculateExecutionOrder states = .ok order := by
  have hlen : states.keys.length = states.length := length_map _
  obtain ⟨⟨degree, hspec⟩, -⟩ := batches_spec g
  have hperm := hspec.perm_of_rank g rank h
  rw [calculateExecutionOrder_eq, if_neg]
  · exact ⟨_, rfl⟩
  · rw [not_not, ← length_flatten, hperm.length_eq, hlen]

end

theorem planWorkflow_ok (hash : HashOrder V) (h : ValidGraph jobs) :
    ∃ states order, planWorkflow hash jobs = .ok (states, order) := by
  obtain ⟨rank, hr⟩ := h
  have hbase : Initial jobs _ := initial_order hash
  have hd := Initial.descends hbase hr
  obtain ⟨states, hs⟩ := linkJobs_ok _ (fun i d hi ↦ (hd i d hi).1) (linked_nil _)
  have hb : buildJobDependencyGraph hash jobs = .ok states := hs
  have hl := linkJobs_spec (linked_nil _) hs
  have hd' : Descends rank states := by
    intro i d hi
    rw [hl.dependencies] at hi
    exact hl.keys ▸ hd i d hi
  obtain ⟨order, ho⟩ := calculateExecutionOrder_ok hd' (hl.graph hbase)
  refine ⟨states, order, ?_⟩
  simp only [planWorkflow, bind_eq_ok]
  exact ⟨states, hb, (), validateFrom_ok hd' _ _ rfl, order, ho, rfl⟩

def DependsOn (jobs : List (JobConfig V)) (i d : String) : Prop :=
  ∃ c ∈ jobs, c.job.jobId = i ∧ d ∈ dependenciesOf c

def Acyclic (jobs : List (JobConfig V)) : Prop := ∀ i, ¬ Relation.TransGen (DependsOn jobs) i i

/-- Batches that hold every job once, each job at the length of its longest dependency chain. -/
structure Schedule (jobs : List (JobConfig V)) (order : List (List String)) : Prop where
  nonempty : ∀ batch ∈ order, batch ≠ []
  once : order.flatten.Perm (jobs.map fun c ↦ c.job.jobId)
  earlier : ∀ (k : ℕ) batch, order[k]? = some batch → ∀ i ∈ batch, ∀ d, DependsOn jobs i d →
    ∃ k' < k, ∃ batch', order[k']? = some batch' ∧ d ∈ batch'
  longest : ∀ (k : ℕ) batch, order[k]? = some batch → ∀ i ∈ batch,
    IsGreatest {n | ∃ l, List.IsChain (DependsOn jobs) (i :: l) ∧ l.length = n} k

variable {jobs : List (JobConfig V)} {base : JobStates V}

section

variable (h : Initial jobs base) (hids : (jobs.map fun c ↦ c.job.jobId).Nodup)
include h hids

theorem Initial.dependsOn : (fun i d ↦ d ∈ base.dependencies i) = DependsOn jobs := by
  funext i d
  apply propext
  constructor
  · exact Initial.exists_config h
  · rintro ⟨c, hc, hi, hd⟩
    have hkey := (h.mem_keys i).mpr ⟨c, hc, hi⟩
    obtain ⟨s, hs⟩ := Option.isSome_iff_exists.mp (get_isSome.mpr hkey)
    obtain ⟨c', hc', hi', rfl⟩ := h.get hs
    obtain rfl := inj_on_of_nodup_map hids hc hc' (hi.trans hi'.symm)
    rw [JobStates.dependencies, hs]
    exact hd

theorem Initial.keys_perm : base.keys.Perm (jobs.map fun c ↦ c.job.jobId) := by
  rw [perm_ext_iff_of_nodup h.nodup hids]
  intro i
  rw [h.mem_keys, mem_map]

end

open Classical in
theorem valid_of_acyclic (h : Acyclic jobs)
    (hdeps : ∀ c ∈ jobs, ∀ d ∈ dependenciesOf c, ∃ c' ∈ jobs, c'.job.jobId = d) :
    ValidGraph jobs := by
  let ids := (jobs.map fun c ↦ c.job.jobId).toFinset
  refine ⟨fun i ↦ (ids.filter (Relation.TransGen (DependsOn jobs) i)).card, fun c hc d hd ↦ ?_⟩
  have hdep : DependsOn jobs c.job.jobId d := ⟨c, hc, rfl, hd⟩
  obtain ⟨c', hc', rfl⟩ := hdeps c hc d hd
  refine ⟨⟨c', hc', rfl⟩, Finset.card_lt_card ⟨?_, fun hsub ↦ ?_⟩⟩
  · exact Finset.monotone_filter_right _ fun j _ hj ↦ .head hdep hj
  · have hmem : c'.job.jobId ∈ ids := mem_toFinset.mpr (mem_map_of_mem hc')
    have hself := hsub (Finset.mem_filter.mpr ⟨hmem, .single hdep⟩)
    exact h _ (Finset.mem_filter.mp hself).2

theorem planWorkflow_schedule {hash : HashOrder V} {order : List (List String)}
    (hids : (jobs.map fun c ↦ c.job.jobId).Nodup)
    (hok : planWorkflow hash jobs = .ok (states, order)) : Schedule jobs order ∧ Acyclic jobs := by
  obtain ⟨base, hbase, hl, ho⟩ := planWorkflow_linked hok
  obtain ⟨hperm, hlayers⟩ := calculateExecutionOrder_spec (hl.graph hbase) ho
  have hrel : (fun i d ↦ d ∈ states.dependencies i) = DependsOn jobs := by
    rw [← Initial.dependsOn hbase hids]
    funext i d
    rw [hl.dependencies]
  have hmem : ∀ {i d}, DependsOn jobs i d → d ∈ states.dependencies i :=
    fun {i d} h ↦ by rw [← hrel] at h; exact h
  have honce := hperm.trans (hl.keys ▸ Initial.keys_perm hbase hids)
  refine ⟨⟨hlayers.nonempty, honce, ?_, ?_⟩, fun i hi ↦ ?_⟩
  · intro k batch hk i hi d hd
    exact Layered.mem_take.mp (hlayers.earlier k batch hk i hi d (hmem hd))
  · intro k batch hk i hi
    rw [← hrel]
    refine ⟨hlayers.exists_chain hk hi, ?_⟩
    rintro n ⟨l, hl, rfl⟩
    exact hlayers.chain_le hk hi hl
  · obtain ⟨d, ⟨c, hc, rfl, -⟩, -⟩ := Relation.TransGen.head'_iff.mp hi
    obtain ⟨batch, hb, hm⟩ := mem_flatten.mp
      (honce.mem_iff.mpr (mem_map_of_mem hc))
    obtain ⟨k, hk⟩ := mem_iff_getElem?.mp hb
    exact hlayers.irrefl hk hm (hrel ▸ hi)

theorem planWorkflow_schedules (hash : HashOrder V) (jobs : List (JobConfig V))
    (hids : (jobs.map fun c ↦ c.job.jobId).Nodup)
    (hdeps : ∀ c ∈ jobs, ∀ d ∈ dependenciesOf c, ∃ c' ∈ jobs, c'.job.jobId = d) :
    ((∃ plan, planWorkflow hash jobs = .ok plan) ↔ Acyclic jobs) ∧
      (∀ states order, planWorkflow hash jobs = .ok (states, order) → Schedule jobs order) ∧
      ∀ states, buildJobDependencyGraph hash jobs = .ok states →
        NoUnderflow states.dependents (states.length + 1) (inDegree states) (roots states) := by
  refine ⟨⟨?_, fun h ↦ ?_⟩, fun states order hok ↦ (planWorkflow_schedule hids hok).1, ?_⟩
  · intro ⟨⟨states, order⟩, hok⟩
    exact (planWorkflow_schedule hids hok).2
  · obtain ⟨states, order, hok⟩ := planWorkflow_ok hash (valid_of_acyclic h hdeps)
    exact ⟨_, hok⟩
  · intro states hb
    obtain ⟨base, hbase, hl⟩ := buildJobDependencyGraph_linked hb
    exact (batches_spec (hl.graph hbase)).2.2

def succeedingAfter (dependsOn : List String) (jobId : String) : JobConfig Unit where
  job :=
    { jobId := jobId
      name := jobId
      dependsOn := dependsOn
      shouldSkip := fun _ ↦ .ok false
      validatePrerequisites := fun _ ↦ .ok ()
      executeWithCancellation := fun context ↦ .returned ⟨context, .success, none, []⟩ }
  required := true
  dependenciesOverride := none

def buildAndTest : List (JobConfig Unit) :=
  [succeedingAfter ["build", "build"] "test", succeedingAfter [] "build"]

theorem buildAndTest_schedule : Schedule buildAndTest [["build"], ["test"]] :=
  (planWorkflow_schedules ⟨id, fun _ ↦ .refl _⟩ buildAndTest
    (by simp [buildAndTest, succeedingAfter])
    (by simp [buildAndTest, succeedingAfter, dependenciesOf])).2.1 _ _ rfl

end Temps.Core.JobOrder
