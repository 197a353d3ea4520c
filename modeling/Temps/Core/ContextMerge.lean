import Temps.Lib.LastWriter
import Temps.Core.Workflow

namespace Temps.Core.ContextMerge

open Workflow Lib.LastWriter List

variable {V : Type} {context : WorkflowContext V} {τ σ : List (JobResult V)}

/-- Merge one level of nested maps: every entry of `result` joins the entry of the same key. -/
def mergeNested {W : Type} (context result : Map String (Map String W)) :
    Map String (Map String W) := fun jobKey ↦
  match result jobKey with
  | none => context jobKey
  | some entries => some (((context jobKey).getD Map.empty).extend entries)

/-- What the result loop of `execute_workflow` does with the context of one job result. -/
def mergeResult (context : WorkflowContext V) (result : JobResult V) : WorkflowContext V :=
  { context with
    outputs := mergeNested context.outputs result.context.outputs
    artifacts := mergeNested context.artifacts result.context.artifacts
    vars := context.vars.extend result.context.vars
    workDir := if result.context.workDir.isSome then result.context.workDir else context.workDir }

def mergeResults (context : WorkflowContext V) (results : List (JobResult V)) :
    WorkflowContext V := results.foldl mergeResult context

/-- A place of the context that merging treats as one register. -/
structure Slot (V W : Type) where
  read : WorkflowContext V → Option W
  merged : ∀ context result, read (mergeResult context result) =
    (read result.context).or (read context)

namespace Slot

variable {W : Type}

def var (k : String) : Slot V V := ⟨fun c ↦ c.vars k, fun _ _ ↦ rfl⟩

def workDir : Slot V String where
  read c := c.workDir
  merged context result := by cases h : result.context.workDir <;> simp [mergeResult, h]

theorem mergeNested_entry (m n : Map String (Map String W)) (j k : String) :
    (mergeNested m n j).bind (· k) = ((n j).bind (· k)).or ((m j).bind (· k)) := by
  cases hn : n j <;> cases hm : m j <;> simp [mergeNested, hn, hm, Map.extend, Map.empty]

theorem mergeNested_present (m n : Map String (Map String W)) (j : String) :
    (mergeNested m n j).map (fun _ ↦ ()) = ((n j).map fun _ ↦ ()).or ((m j).map fun _ ↦ ()) := by
  cases hn : n j <;> cases hm : m j <;> simp [mergeNested, hn, hm]

def output (j k : String) : Slot V V :=
  ⟨fun c ↦ (c.outputs j).bind (· k), fun c r ↦ mergeNested_entry c.outputs r.context.outputs j k⟩

def artifact (j k : String) : Slot V String :=
  ⟨fun c ↦ (c.artifacts j).bind (· k),
    fun c r ↦ mergeNested_entry c.artifacts r.context.artifacts j k⟩

def outputJob (j : String) : Slot V Unit :=
  ⟨fun c ↦ (c.outputs j).map fun _ ↦ (),
    fun c r ↦ mergeNested_present c.outputs r.context.outputs j⟩

def artifactJob (j : String) : Slot V Unit :=
  ⟨fun c ↦ (c.artifacts j).map fun _ ↦ (),
    fun c r ↦ mergeNested_present c.artifacts r.context.artifacts j⟩

def snapshots (s : Slot V W) (results : List (JobResult V)) : List (Option W) :=
  results.map fun r ↦ s.read r.context

theorem read_mergeResults (s : Slot V W) (context : WorkflowContext V)
    (results : List (JobResult V)) :
    s.read (mergeResults context results) = overwrite (s.read context) (s.snapshots results) := by
  induction results generalizing context with
  | nil => rfl
  | cons r results ih =>
    have h := ih (mergeResult context r)
    rw [s.merged] at h
    exact h

def Changed (s : Slot V W) (context : WorkflowContext V) (r : JobResult V) : Prop :=
  s.read r.context ≠ s.read context

/-- In the results `pre ++ r :: post` only `r` changed the slot. -/
def SoleWriter (s : Slot V W) (context : WorkflowContext V) (pre : List (JobResult V))
    (r : JobResult V) (post : List (JobResult V)) : Prop :=
  s.Changed context r ∧ ∀ x ∈ pre ++ post, ¬ s.Changed context x

/-- Every lone update of the slot is in the merged context, whatever the order of the results. -/
def KeepsUpdates (s : Slot V W) (context : WorkflowContext V) (results : List (JobResult V)) :
    Prop :=
  ∀ pre r post, (pre ++ r :: post).Perm results → s.SoleWriter context pre r post →
    s.read (mergeResults context (pre ++ r :: post)) = s.read r.context

/-- A lone update of the slot is not a removal, and it fills an empty slot or belongs to a batch
with a single result. -/
def UpdatesFresh (s : Slot V W) (context : WorkflowContext V) (results : List (JobResult V)) :
    Prop :=
  ∀ pre r post, results = pre ++ r :: post → s.SoleWriter context pre r post →
    s.read r.context ≠ none ∧ (s.read context = none ∨ results.length = 1)

variable {s : Slot V W} {context : WorkflowContext V} {results post pre : List (JobResult V)}
  {r : JobResult V}

theorem SoleWriter.survives_iff (h : s.SoleWriter context pre r post) :
    s.read (mergeResults context (pre ++ r :: post)) = s.read r.context ↔
      s.read context = none ∨ (post = [] ∧ s.read r.context ≠ none) := by
  have hstale : ∀ l : List (JobResult V), (∀ x ∈ l, ¬ s.Changed context x) →
      ∀ g ∈ s.snapshots l, g = s.read context := by
    intro l hl g hg
    obtain ⟨x, hx, rfl⟩ := mem_map.mp hg
    exact not_not.mp (hl x hx)
  have hiff := sole_survives_iff h.1 (hstale pre fun x hx ↦ h.2 x (by simp [hx]))
    (hstale post fun x hx ↦ h.2 x (by simp [hx]))
  rw [read_mergeResults]
  simpa [snapshots] using hiff

theorem SoleWriter.congr {pre' post' : List (JobResult V)} (h : s.SoleWriter context pre r post)
    (hp : (pre ++ post).Perm (pre' ++ post')) :
    s.SoleWriter context pre' r post' :=
  ⟨h.1, fun x hx ↦ h.2 x (hp.symm.subset hx)⟩

theorem SoleWriter.ends (h : s.SoleWriter context pre r post) :
    s.SoleWriter context [] r (pre ++ post) ∧ s.SoleWriter context (pre ++ post) r [] :=
  ⟨h.congr (by simp), h.congr (by simp)⟩

theorem keepsUpdates_iff (s : Slot V W) (context : WorkflowContext V)
    (results : List (JobResult V)) :
    s.KeepsUpdates context results ↔ s.UpdatesFresh context results := by
  constructor
  · rintro hkeep pre r post rfl hsole
    obtain ⟨hfirst, hlast⟩ := hsole.ends
    have h₁ := hfirst.survives_iff.mp (hkeep [] r (pre ++ post) perm_middle.symm hfirst)
    have h₂ := hlast.survives_iff.mp (hkeep (pre ++ post) r []
      ((perm_append_singleton _ _).trans perm_middle.symm) hlast)
    refine ⟨?_, ?_⟩
    · rcases h₂ with hn | hn
      · intro hr
        exact hsole.1 (by rw [hr, hn])
      · exact hn.2
    · rcases h₁ with hn | ⟨hnil, -⟩
      · exact Or.inl hn
      · rw [append_eq_nil_iff] at hnil
        simp [hnil.1, hnil.2]
  · intro hfresh pre r post hp hsole
    rw [hsole.survives_iff]
    have hm : r ∈ results := hp.subset (by simp)
    obtain ⟨pre', post', rfl⟩ := append_of_mem hm
    have hq := List.Perm.cons_inv ((perm_middle.symm.trans hp).trans perm_middle)
    obtain ⟨hsome, hn | hl⟩ := hfresh pre' r post' rfl (hsole.congr hq)
    · exact Or.inl hn
    · have hlen := hp.length_eq
      simp only [length_append, length_cons] at hl hlen
      exact Or.inr ⟨length_eq_zero_iff.mp (by omega), hsome⟩

def Disjoint (s : Slot V W) (context : WorkflowContext V) (results : List (JobResult V)) : Prop :=
  results.Pairwise fun x y ↦ ¬ (s.Changed context x ∧ s.Changed context y)

/-- A lone update of the slot fills an empty slot, is a removal, or stands alone in its batch. -/
def Reorderable (s : Slot V W) (context : WorkflowContext V) (results : List (JobResult V)) :
    Prop :=
  ∀ pre r post, results = pre ++ r :: post → s.SoleWriter context pre r post →
    s.read context = none ∨ s.read r.context = none ∨ results.length = 1

theorem Disjoint.atMostOne (h : s.Disjoint context results) :
    AtMostOne (s.read context) (s.snapshots results) := by
  rw [AtMostOne, snapshots, pairwise_map]
  exact h.imp or_iff_not_and_not.mpr

theorem Reorderable.safe (h : s.Reorderable context results) :
    Safe (s.read context) (s.snapshots results) := by
  rintro w ⟨pre, post, he, hw, hrest⟩
  obtain ⟨l₁, l₂, rfl, rfl, h₂⟩ := map_eq_append_iff.mp he
  obtain ⟨r, l₃, rfl, rfl, rfl⟩ := map_eq_cons_iff.mp h₂
  have hsole : s.SoleWriter context l₁ r l₃ := by
    refine ⟨hw, fun x hx ↦ not_not.mpr (hrest _ ?_)⟩
    rw [← map_append]
    exact mem_map_of_mem hx
  simpa [snapshots] using h l₁ r l₃ rfl hsole

theorem order_free_iff (h : s.Disjoint context results) :
    (∀ σ τ : List (JobResult V), σ.Perm results → τ.Perm results →
      s.read (mergeResults context σ) = s.read (mergeResults context τ)) ↔
      s.Reorderable context results := by
  constructor
  · rintro hord pre r post rfl hsole
    obtain ⟨hfirst, hlast⟩ := hsole.ends
    have he := hord ([] ++ r :: (pre ++ post)) ((pre ++ post) ++ r :: [])
      perm_middle.symm ((perm_append_singleton _ _).trans perm_middle.symm)
    by_contra hn
    rw [not_or, not_or] at hn
    have hsurv := hlast.survives_iff.mpr (Or.inr ⟨rfl, hn.2.1⟩)
    rcases hfirst.survives_iff.mp (he.trans hsurv) with hnone | ⟨hnil, -⟩
    · exact hn.1 hnone
    · rw [append_eq_nil_iff] at hnil
      exact hn.2.2 (by simp [hnil.1, hnil.2])
  · intro hre σ τ hσ hτ
    rw [read_mergeResults, read_mergeResults]
    exact overwrite_perm h.atMostOne hre.safe (hσ.map _) (hτ.map _)

end Slot

/-- No variable, output, artifact or work directory is changed by two jobs of the batch. -/
structure DisjointWrites (context : WorkflowContext V) (results : List (JobResult V)) : Prop where
  vars : ∀ k, (Slot.var k).Disjoint context results
  workDir : Slot.workDir.Disjoint context results
  outputs : ∀ j k, (Slot.output j k).Disjoint context results
  artifacts : ∀ j k, (Slot.artifact j k).Disjoint context results

/-- Merging a batch loses no update: whatever the order of the results, the merged context holds
the value of the only job that changed a variable or the work directory, and disjoint writes
merge to one context. -/
structure MergeLossless (context : WorkflowContext V) (results : List (JobResult V)) : Prop where
  vars : ∀ k, (Slot.var k).KeepsUpdates context results
  workDir : Slot.workDir.KeepsUpdates context results
  orderFree : DisjointWrites context results → ∀ σ τ : List (JobResult V),
    σ.Perm results → τ.Perm results → mergeResults context σ = mergeResults context τ

/-- The lone updates of a batch fill slots the incoming context left empty, unless the batch has
one result; a lone update of a variable or of the work directory is not a removal. -/
structure UpdatesMergeable (context : WorkflowContext V) (results : List (JobResult V)) :
    Prop where
  vars : ∀ k, (Slot.var k).UpdatesFresh context results
  workDir : Slot.workDir.UpdatesFresh context results
  outputs : DisjointWrites context results → ∀ j k, (Slot.output j k).Reorderable context results
  artifacts : DisjointWrites context results →
    ∀ j k, (Slot.artifact j k).Reorderable context results

theorem Slot.UpdatesFresh.reorderable {W : Type} {s : Slot V W} {results : List (JobResult V)}
    (h : s.UpdatesFresh context results) :
    s.Reorderable context results := by
  intro pre r post he hsole
  rcases (h pre r post he hsole).2 with hn | hl
  · exact Or.inl hn
  · exact Or.inr (Or.inr hl)

theorem mergeResults_ids (context : WorkflowContext V) (results : List (JobResult V)) :
    (mergeResults context results).workflowRunId = context.workflowRunId ∧
    (mergeResults context results).deploymentId = context.deploymentId ∧
    (mergeResults context results).projectId = context.projectId ∧
    (mergeResults context results).environmentId = context.environmentId := by
  induction results generalizing context with
  | nil => exact ⟨rfl, rfl, rfl, rfl⟩
  | cons r results ih => exact ih (mergeResult context r)

theorem read_present_perm (s : Slot V Unit) (context : WorkflowContext V) (h : σ.Perm τ) :
    s.read (mergeResults context σ) = s.read (mergeResults context τ) := by
  have hs : (s.read (mergeResults context σ)).isSome = (s.read (mergeResults context τ)).isSome := by
    rw [s.read_mergeResults, s.read_mergeResults, overwrite_isSome, overwrite_isSome]
    have hany : (s.snapshots σ).any Option.isSome = (s.snapshots τ).any Option.isSome := by
      rw [Bool.eq_iff_iff, any_eq_true, any_eq_true]
      have hm : (s.snapshots σ).Perm (s.snapshots τ) := h.map _
      exact ⟨fun ⟨x, hx, hp⟩ ↦ ⟨x, hm.subset hx, hp⟩, fun ⟨x, hx, hp⟩ ↦ ⟨x, hm.symm.subset hx, hp⟩⟩
    rw [hany]
  cases h₁ : s.read (mergeResults context σ) <;> cases h₂ : s.read (mergeResults context τ) <;>
    simp_all

theorem nested_ext {W : Type} {m n : Map String (Map String W)}
    (hentry : ∀ j k, (m j).bind (· k) = (n j).bind (· k))
    (hjob : ∀ j, (m j).map (fun _ ↦ ()) = (n j).map fun _ ↦ ()) : m = n := by
  funext j
  have hj := hjob j
  have he := hentry j
  cases hm : m j <;> cases hn : n j <;> simp_all
  exact funext he

theorem mergeResults_perm (hp : σ.Perm τ)
    (hvars : ∀ k, (mergeResults context σ).vars k = (mergeResults context τ).vars k)
    (hdir : (mergeResults context σ).workDir = (mergeResults context τ).workDir)
    (hout : ∀ j k, (Slot.output j k).read (mergeResults context σ) =
      (Slot.output j k).read (mergeResults context τ))
    (hart : ∀ j k, (Slot.artifact j k).read (mergeResults context σ) =
      (Slot.artifact j k).read (mergeResults context τ)) :
    mergeResults context σ = mergeResults context τ := by
  obtain ⟨h₁, h₂, h₃, h₄⟩ := mergeResults_ids context σ
  obtain ⟨h₁', h₂', h₃', h₄'⟩ := mergeResults_ids context τ
  refine WorkflowContext.ext (h₁.trans h₁'.symm) (h₂.trans h₂'.symm) (h₃.trans h₃'.symm)
    (h₄.trans h₄'.symm) (funext hvars) ?_ ?_ hdir
  · exact nested_ext hout fun j ↦ read_present_perm (Slot.outputJob j) context hp
  · exact nested_ext hart fun j ↦ read_present_perm (Slot.artifactJob j) context hp

/-- Merging a batch loses no update exactly when every lone update of the batch fills a slot that
the incoming context left empty, or is alone in its batch. -/
theorem mergeLossless_iff (context : WorkflowContext V) (results : List (JobResult V)) :
    MergeLossless context results ↔ UpdatesMergeable context results := by
  constructor
  · intro h
    refine ⟨fun k ↦ ((Slot.var k).keepsUpdates_iff context results).mp (h.vars k),
      (Slot.workDir.keepsUpdates_iff context results).mp h.workDir, fun hd j k ↦ ?_,
      fun hd j k ↦ ?_⟩
    · exact (Slot.order_free_iff (hd.outputs j k)).mp fun σ τ hσ hτ ↦ by
        rw [h.orderFree hd σ τ hσ hτ]
    · exact (Slot.order_free_iff (hd.artifacts j k)).mp fun σ τ hσ hτ ↦ by
        rw [h.orderFree hd σ τ hσ hτ]
  · intro h
    refine ⟨fun k ↦ ((Slot.var k).keepsUpdates_iff context results).mpr (h.vars k),
      (Slot.workDir.keepsUpdates_iff context results).mpr h.workDir, fun hd σ τ hσ hτ ↦ ?_⟩
    apply mergeResults_perm (hσ.trans hτ.symm)
    · intro k
      exact (Slot.order_free_iff (hd.vars k)).mpr (h.vars k).reorderable σ τ hσ hτ
    · exact (Slot.order_free_iff hd.workDir).mpr h.workDir.reorderable σ τ hσ hτ
    · intro j k
      exact (Slot.order_free_iff (hd.outputs j k)).mpr (h.outputs hd j k) σ τ hσ hτ
    · intro j k
      exact (Slot.order_free_iff (hd.artifacts j k)).mpr (h.artifacts hd j k) σ τ hσ hτ

/-- A batch of two jobs over a context whose variable `image` is already set: the first job sets
it anew, the second returns its clone untouched. -/
def incoming : WorkflowContext String :=
  { WorkflowContext.new "run" 1 1 1 with vars := Map.empty.insert "image" "app:old" }

def setter : JobResult String :=
  ⟨{ incoming with vars := incoming.vars.insert "image" "app:new" }, .success, none, []⟩

def bystander : JobResult String := ⟨incoming, .success, none, []⟩

theorem stale_clone_overwrites_update : ¬ MergeLossless incoming [setter, bystander] := by
  intro h
  have hsole : (Slot.var "image").SoleWriter incoming [] setter [bystander] := by
    refine ⟨?_, fun x hx ↦ ?_⟩
    · show some "app:new" ≠ some "app:old"
      decide
    · obtain rfl : x = bystander := by simpa using hx
      exact not_not.mpr rfl
  have hkept := h.vars "image" [] setter [bystander] (List.Perm.refl _) hsole
  have hread : (mergeResults incoming [setter, bystander]).vars "image" = some "app:old" := by
    decide
  have hnew : setter.context.vars "image" = some "app:new" := by decide
  exact absurd (hread.symm.trans (hkept.trans hnew)) (by decide)

end Temps.Core.ContextMerge
