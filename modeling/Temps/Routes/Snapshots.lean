import Temps.Routes.Generations

namespace Temps.Routes

open Lib.Machine List Function Option

def Claim.value (claim : Claim) : Option ℕ :=
  match claim.phase with
  | .committed value => some value
  | _ => none

namespace System

variable {environment deployment : ℕ} {s t : System} {a : Act} {old : Claim}

/-- A process that has not published a table, nor begun anything that follows that. -/
structure Unloaded (s : System) : Prop where
  loaded : s.loaded = false
  counter : s.counter = 0
  retry : s.retry = none
  claims : ∀ claim ∈ s.claims, claim.owner = none
  reload : ∀ event, s.reload ≠ .published event ∧ s.reload ≠ .claiming event

/-- The table was published by a load, and is at least as recent as the one for which the generation
was published. -/
structure Fits (s : System) (generation : ℕ) (table : Table) : Prop where
  loaded : table ∈ s.loads
  known : generation = 0 ∨ generation ∈ s.published.map Prod.fst
  recent : ∀ serial, (generation, serial) ∈ s.published → serial ≤ table.serial

def values (s : System) : List ℕ := s.claims.filterMap Claim.value ++ s.published.map Prod.fst

structure Traced (s : System) : Prop where
  serials : ∀ table ∈ s.loads, table.serial ≤ s.loads.length
  published : ∀ entry ∈ s.published, entry.2 ≤ s.loads.length
  values_nodup : s.values.Nodup
  values_le : ∀ value ∈ s.values, 0 < value ∧ value ≤ s.row
  current : s.Unloaded ∨ s.Fits s.counter s.table
  generated : ∀ node generation, (s.workers node).tick = .polling (.generated generation) →
    s.Fits generation s.table
  built : ∀ node generation table,
    (s.workers node).tick = .polling (.built generation table) → s.Fits generation table

def tables (s : System) := (s.table, s.loads, s.published, s.counter, s.workers)

theorem Traced.of_values (h : Traced s) (htables : t.tables = s.tables) (hnodup : t.values.Nodup)
    (hle : ∀ value ∈ t.values, 0 < value ∧ value ≤ t.row)
    (hcurrent : t.Unloaded ∨ s.Fits s.counter s.table) : Traced t := by
  simp only [tables, Prod.mk.injEq] at htables
  obtain ⟨htable, hloads, hpublished, hcounter, hworkers⟩ := htables
  have hfits {generation : ℕ} {table : Table} (hf : s.Fits generation table) :
      t.Fits generation table :=
    ⟨hloads ▸ hf.loaded, hpublished ▸ hf.known, hpublished ▸ hf.recent⟩
  refine ⟨hloads ▸ h.serials, ?_, hnodup, hle, ?_, ?_, ?_⟩
  · rw [hpublished, hloads]
    exact h.published
  · rw [htable, hcounter]
    exact hcurrent.imp_right hfits
  · rw [htable, hworkers]
    exact fun node generation hg ↦ hfits (h.generated node generation hg)
  · rw [hworkers]
    exact fun node generation table hb ↦ hfits (h.built node generation table hb)

theorem Traced.unmoved (h : Traced s) (htables : t.tables = s.tables)
    (hvalues : t.values = s.values) (hrow : t.row = s.row) (hcurrent : s.Unloaded → t.Unloaded) :
    Traced t :=
  h.of_values htables (hvalues ▸ h.values_nodup) (hvalues ▸ hrow ▸ h.values_le)
    (h.current.imp_left hcurrent)

theorem Unloaded.hasLoaded (h : s.Unloaded) : s.hasLoaded = false := by
  simp [System.hasLoaded, h.loaded, h.counter]

theorem values_withClaim {new : Claim} :
    (s.withClaim old new).values.Perm
      (new.value.toList ++ ((s.claims.erase old).filterMap Claim.value ++
        s.published.map Prod.fst)) := by
  simp only [values, withClaim, filterMap_cons]
  cases new.value <;> simp

variable {claim : Claim} {value : ℕ} {worker : Worker}

theorem values_perm (hmem : claim ∈ s.claims) :
    s.values.Perm (claim.value.toList ++ ((s.claims.erase claim).filterMap Claim.value ++
      s.published.map Prod.fst)) := by
  have hperm := ((perm_cons_erase hmem).filterMap Claim.value).append_right
    (s.published.map Prod.fst)
  refine hperm.trans ?_
  rw [filterMap_cons]
  cases claim.value <;> simp

theorem Traced.withClaim (h : Traced s) (hmem : old ∈ s.claims) (new : Claim)
    (hvalue : new.value = old.value) (howner : new.owner ≠ none → old.owner ≠ none) :
    Traced (s.withClaim old new) := by
  have hperm : (s.withClaim old new).values.Perm s.values :=
    values_withClaim.trans (hvalue ▸ (values_perm hmem).symm)
  refine h.of_values rfl (hperm.nodup_iff.mpr h.values_nodup) ?_ ?_
  · exact fun value hmem' ↦ h.values_le value (hperm.mem_iff.mp hmem')
  · refine h.current.imp_left fun hu ↦ { hu with claims := forall_withClaim ?_ hu.claims }
    by_contra hne
    exact howner hne (hu.claims old hmem)

theorem Traced.commit (h : Traced s) (hmem : claim ∈ s.claims) (hnone : claim.value = none)
    (hvalue : s.row < value) : Traced (s.commitClaim claim value) := by
  have hperm : (s.commitClaim claim value).values.Perm (value :: s.values) := by
    have hrest := values_perm hmem
    rw [hnone] at hrest
    exact values_withClaim.trans (hrest.symm.cons value)
  have hnew : value ∉ s.values := fun hold ↦
    absurd (h.values_le value hold).2 (Nat.not_le.mpr hvalue)
  refine h.of_values rfl ?_ ?_ ?_
  · exact hperm.nodup_iff.mpr (nodup_cons.mpr ⟨hnew, h.values_nodup⟩)
  · intro v hv
    rcases mem_cons.mp (hperm.mem_iff.mp hv) with rfl | hold
    · exact ⟨Nat.zero_lt_of_lt hvalue, Nat.le_refl v⟩
    · exact ⟨(h.values_le v hold).1, (h.values_le v hold).2.trans hvalue.le⟩
  · exact h.current.imp_left fun hu ↦
      { hu with claims := forall_withClaim (hu.claims claim hmem) hu.claims }

theorem Fits.publish {generation : ℕ} {table : Table} (hf : s.Fits generation table)
    (hpos : 0 < value) (hnew : value ∉ s.published.map Prod.fst) {published : List (ℕ × ℕ)}
    (hpublished : published = (value, s.table.serial) :: s.published) (ht : t.loads = s.loads)
    (ht' : t.published = published) : t.Fits generation table where
  loaded := ht ▸ hf.loaded
  known := by
    rw [ht', hpublished]
    exact hf.known.imp_right (mem_cons_of_mem _)
  recent := by
    intro serial hserial
    rw [ht', hpublished] at hserial
    rcases mem_cons.mp hserial with heq | hold
    · obtain ⟨rfl, -⟩ := Prod.mk.inj heq
      rcases hf.known with hzero | hknown
      · exact absurd hzero hpos.ne'
      · exact absurd hknown hnew
    · exact hf.recent serial hold

section

variable (h : Traced s)
include h

namespace Traced

section

variable (hmem : claim ∈ s.claims)
include hmem

theorem of_owned (howner : claim.owner ≠ none) : s.Fits s.counter s.table :=
  h.current.resolve_left fun hu ↦ howner (hu.claims claim hmem)

theorem adopt (hvalue : claim.value = some value)
    (howner : claim.owner ≠ none) : Traced ((s.dropClaim claim).adopt value) := by
  have hcurrent := h.of_owned hmem howner
  have hperm := values_perm hmem
  rw [hvalue, toList_some, singleton_append] at hperm
  have hnodup := hperm.nodup_iff.mp h.values_nodup
  have hle := fun v hv ↦ h.values_le v (hperm.mem_iff.mpr hv)
  obtain ⟨hnew, hrest⟩ := nodup_cons.mp hnodup
  have hfree : value ∉ s.published.map Prod.fst := fun hold ↦ hnew (mem_append_right _ hold)
  have hpos := (hle value mem_cons_self).1
  by_cases hlt : s.counter < value
  · have hpublished : ((s.dropClaim claim).adopt value).published =
        (value, s.table.serial) :: s.published := if_pos hlt
    have hcounter : ((s.dropClaim claim).adopt value).counter = value := Nat.max_eq_right hlt.le
    have hvalues : ((s.dropClaim claim).adopt value).values.Perm
        (value :: ((s.claims.erase claim).filterMap Claim.value ++ s.published.map Prod.fst)) := by
      simp only [values, hpublished]
      exact perm_middle
    have hfits {generation : ℕ} {table : Table} (hf : s.Fits generation table) :
        ((s.dropClaim claim).adopt value).Fits generation table :=
      hf.publish hpos hfree rfl rfl hpublished
    refine ⟨h.serials, ?_, hvalues.nodup_iff.mpr hnodup, ?_, .inr ?_, ?_, ?_⟩
    · rw [hpublished]
      exact forall_mem_cons.mpr ⟨h.serials s.table hcurrent.loaded, h.published⟩
    · exact fun v hv ↦ hle v (hvalues.mem_iff.mp hv)
    · refine ⟨hcurrent.loaded, .inr ?_, ?_⟩
      · rw [hcounter, hpublished]
        exact mem_cons_self
      · intro serial hserial
        rw [hcounter, hpublished] at hserial
        rcases mem_cons.mp hserial with heq | hold
        · exact (Prod.mk.inj heq).2.le
        · exact absurd (mem_map_of_mem hold) hfree
    · exact fun node generation hg ↦ hfits (h.generated node generation hg)
    · exact fun node generation table hb ↦ hfits (h.built node generation table hb)
  · have hpublished : ((s.dropClaim claim).adopt value).published = s.published := if_neg hlt
    have hcounter : ((s.dropClaim claim).adopt value).counter = s.counter :=
      Nat.max_eq_left (Nat.le_of_not_lt hlt)
    have hvalues : ((s.dropClaim claim).adopt value).values =
        (s.claims.erase claim).filterMap Claim.value ++ s.published.map Prod.fst := by
      simp only [values, hpublished]
      rfl
    refine h.of_values ?_ (hvalues ▸ hrest) (fun v hv ↦ ?_) (.inr hcurrent)
    · rw [tables, hpublished, hcounter]
      rfl
    · rw [hvalues] at hv
      exact hle v (mem_cons_of_mem _ hv)

end

section

variable (hcurrent : s.Fits s.counter s.table) (owner : Owner)
include hcurrent

theorem succeed : Traced (s.succeed owner) := by
  cases owner with
  | reload =>
    simp only [System.succeed]
    split <;> exact h.of_values rfl h.values_nodup h.values_le (.inr hcurrent)
  | retry => exact h.of_values rfl h.values_nodup h.values_le (.inr hcurrent)

theorem giveUp : Traced (s.giveUp owner) := by
  cases owner <;> exact h.of_values rfl h.values_nodup h.values_le (.inr hcurrent)

theorem startClaim (loaded : Bool) (reload : Reload) (retry : Option Retry) :
    Traced { s with
      loaded := loaded
      reload := reload
      retry := retry
      claims := ⟨some owner, s.counter, .started⟩ :: s.claims } :=
  h.of_values rfl h.values_nodup h.values_le (.inr hcurrent)

end

theorem claimStep (hmem : claim ∈ s.claims) (hmove : ClaimMove s claim t) : Traced t := by
  cases hmove with
  | read hphase => exact h.withClaim hmem _ (by simp [Claim.value, hphase]) id
  | commit acked hphase =>
    exact h.commit hmem (by simp [Claim.value, hphase]) (row_lt_claimValue ..)
  | adopt owner value howner hphase =>
    have hvalue : claim.value = some value := by simp [Claim.value, hphase]
    have hpos := (h.values_le value (mem_append_left _ (mem_filterMap.mpr ⟨claim, hmem, hvalue⟩))).1
    have hadopted := h.adopt hmem hvalue (by simp [howner])
    refine hadopted.succeed (hadopted.current.resolve_left fun hu ↦ ?_) owner
    have hle : value ≤ ((s.dropClaim claim).adopt value).counter := Nat.le_max_right ..
    rw [hu.counter] at hle
    exact absurd hpos (Nat.not_lt.mpr hle)
  | fail owner howner =>
    have hcurrent := h.of_owned hmem (by simp [howner])
    have hgone := h.withClaim hmem { claim with owner := none } rfl fun hne ↦ absurd rfl hne
    exact hgone.giveUp { hcurrent with } owner

theorem publish (readAt : ℕ) (empty : Bool) (reload : Reload) :
    Traced { s with
      table := ⟨s.loads.length + 1, readAt, empty⟩
      loads := ⟨s.loads.length + 1, readAt, empty⟩ :: s.loads
      reload := reload } := by
  have hrecent (generation serial : ℕ) (hserial : (generation, serial) ∈ s.published) :
      serial ≤ s.loads.length + 1 := (h.published _ hserial).trans (Nat.le_succ _)
  have hknown : s.counter = 0 ∨ s.counter ∈ s.published.map Prod.fst := by
    rcases h.current with hu | hf
    · exact .inl hu.counter
    · exact hf.known
  refine ⟨?_, ?_, h.values_nodup, h.values_le, .inr ?_, ?_, ?_⟩
  · exact forall_mem_cons.mpr
      ⟨Nat.le_refl _, fun table htable ↦ (h.serials table htable).trans (Nat.le_succ _)⟩
  · exact fun entry hentry ↦ (h.published entry hentry).trans (Nat.le_succ _)
  · exact ⟨mem_cons_self, hknown, hrecent s.counter⟩
  · exact fun node g hg ↦ ⟨mem_cons_self, (h.generated node g hg).known, hrecent g⟩
  · intro node g table hb
    have hf := h.built node g table hb
    exact ⟨mem_cons_of_mem _ hf.loaded, hf.known, hf.recent⟩

theorem loadStep (hmove : LoadMove s t) : Traced t := by
  cases hmove with
  | begin | fail =>
    exact h.unmoved rfl rfl rfl fun hu ↦ { hu with reload := fun _ ↦ ⟨nofun, nofun⟩ }
  | publish event readAt empty => exact h.publish readAt empty (.published event)
  | claim event hreload =>
    have hcurrent := h.current.resolve_left fun hu ↦ (hu.reload event).1 hreload
    exact h.startClaim hcurrent .reload true (.claiming event) s.retry
  | retry hretry =>
    have hcurrent := h.current.resolve_left fun hu ↦ by simp [hu.retry] at hretry
    exact h.startClaim hcurrent .retry s.loaded s.reload (some .claiming)
  | send => exact h.unmoved rfl rfl rfl fun hu ↦ { hu with }

theorem setWorker {node : ℕ} (acks : List Ack)
    (hgenerated : ∀ generation, worker.tick = .polling (.generated generation) →
      s.Fits generation s.table)
    (hbuilt : ∀ generation table, worker.tick = .polling (.built generation table) →
      s.Fits generation table) :
    Traced { s.setWorker node worker with acks := acks } := by
  have hfits {generation : ℕ} {table : Table} (hf : s.Fits generation table) :
      ({ s.setWorker node worker with acks := acks } : System).Fits generation table :=
    { hf with }
  refine ⟨h.serials, h.published, h.values_nodup, h.values_le, ?_, ?_, ?_⟩
  · exact h.current.imp (fun hu ↦ { hu with }) hfits
  · intro x generation hx
    simp only [System.setWorker, update_apply] at hx
    split at hx
    · exact hfits (hgenerated generation hx)
    · exact hfits (h.generated x generation hx)
  · intro x generation table hx
    simp only [System.setWorker, update_apply] at hx
    split at hx
    · exact hfits (hbuilt generation table hx)
    · exact hfits (h.built x generation table hx)

end Traced

end

/-- A request reads the generation only from a process that has published a table. -/
def ReadsLoaded (s : System) : Act → Prop
  | .worker _ .generation => s.hasLoaded = true
  | _ => True

theorem Traced.workerStep (h : Traced s) {node : ℕ} {act : WorkerAct}
    (hloaded : ReadsLoaded s (.worker node act)) (hmove : WorkerMove s node act t) : Traced t := by
  cases hmove with
  | resend | apply => exact h.setWorker _ nofun nofun
  | go _ _ _ htick =>
    refine h.setWorker s.acks (fun _ hg ↦ ?_) fun _ _ hb ↦ ?_
    · exact nomatch htick _ hg
    · exact nomatch htick _ hb
  | generation =>
    have hcurrent : s.Fits s.counter s.table :=
      h.current.resolve_left fun hu ↦ by simp [ReadsLoaded, hu.hasLoaded] at hloaded
    refine h.setWorker s.acks (fun generation hg ↦ ?_) nofun
    cases hg
    exact hcurrent
  | build generation htick =>
    refine h.setWorker s.acks nofun fun g table hb ↦ ?_
    cases hb
    exact h.generated node generation htick
  | restart => exact h.setWorker s.acks nofun nofun

theorem disconnect_tick {request : Request} (h : worker.disconnect.tick = .polling request) :
    worker.tick = .polling request ∧ ∃ generation table, request = .built generation table := by
  unfold Worker.disconnect at h
  split at h
  · exact nomatch h
  · exact nomatch h
  · rename_i hwaiting hgenerated
    refine ⟨h, ?_⟩
    cases request with
    | waiting => exact absurd h hwaiting
    | generated generation => exact absurd h (hgenerated generation)
    | built generation table => exact ⟨generation, table, rfl⟩

theorem Traced.restarted (h : Traced s) : Traced s.restarted := by
  have hvalues : s.restarted.values = s.values := by
    simp only [values, System.restarted, filterMap_map]
    rfl
  refine ⟨h.serials, h.published, hvalues ▸ h.values_nodup, hvalues ▸ h.values_le, .inl ?_, ?_, ?_⟩
  · refine ⟨rfl, rfl, rfl, fun claim hclaim ↦ ?_, fun _ ↦ ⟨nofun, nofun⟩⟩
    obtain ⟨old, -, rfl⟩ := mem_map.mp hclaim
    rfl
  · intro node generation hg
    obtain ⟨-, _, _, hbuilt⟩ := disconnect_tick hg
    exact nomatch hbuilt
  · intro node generation table hb
    have hf := h.built node generation table (disconnect_tick hb).1
    exact { hf with }

theorem Traced.step (h : Traced s) (hloaded : ReadsLoaded s a)
    (hstep : s.step environment deployment a = some t) : Traced t := by
  cases step_move hstep with
  | aside => exact h.unmoved rfl rfl rfl fun hu ↦ { hu with }
  | load hmove => exact h.loadStep hmove
  | claim hmem hmove => exact h.claimStep hmem hmove
  | worker hmove => exact h.workerStep hloaded hmove
  | ack _ hmove =>
    obtain ⟨_, _, _, rfl⟩ := hmove.eq
    exact h.unmoved rfl rfl rfl fun hu ↦ { hu with }
  | barrier hmove =>
    obtain ⟨_, _, _, _, -, rfl⟩ := hmove.eq
    exact h.unmoved rfl rfl rfl fun hu ↦ { hu with }
  | restart => exact h.restarted

theorem traced_start (origin : Origin) : Traced origin.system where
  serials := nofun
  published := nofun
  values_nodup := nodup_nil
  values_le := nofun
  current := .inl ⟨rfl, rfl, rfl, nofun, fun _ ↦ ⟨nofun, nofun⟩⟩
  generated := nofun
  built := nofun

/-- The snapshots that workers apply come from loads, and each from one that is at least as recent
as the load for which its generation was published, if no request reads the generation of a process
that has not loaded. -/
theorem applied_routes_are_loaded (origin : Origin)
    (h : Reaches (step environment deployment) ReadsLoaded origin.system s) :
    ∀ node store, s.replacement node = some store → store.table ∈ s.loads ∧
        ∀ serial, (store.generation, serial) ∈ s.published → serial ≤ store.table.serial := by
  have htraced : Traced s := h.invariant (fun hs ha hstep ↦ hs.step ha hstep) (traced_start origin)
  intro node store hstore
  unfold replacement at hstore
  split at hstore
  case h_1 generation table htick =>
    obtain ⟨-, hsome⟩ := ite_none_right_eq_some.mp hstore
    cases hsome
    have hf := htraced.built node generation table htick
    exact ⟨hf.loaded, hf.recent⟩
  case h_2 => exact nomatch hstore

def readsLoaded (s : System) : Act → Bool
  | .worker _ .generation => s.hasLoaded
  | _ => true

theorem readsLoaded_of_passes (s : System) (a : Act) (h : readsLoaded s a) : ReadsLoaded s a := by
  cases a with
  | worker node act =>
    cases act with
    | generation => exact h
    | _ => trivial
  | _ => trivial

def loadThenPoll : List Act :=
  reloadActs none 0 5 6 ++ [.worker 1 .tick, .worker 1 (.acked false), .worker 1 .generation,
    .worker 1 .build]

theorem applied_routes_are_loaded_poll :
    ((exec (step 3 2) readsLoaded sampleStart.system loadThenPoll).any fun s ↦
      s.replacement 1 == some ⟨6, 1, 10, false⟩) = true ∧
    ∀ s ∈ exec (step 3 2) readsLoaded sampleStart.system loadThenPoll,
      ∀ store, s.replacement 1 = some store → store.table ∈ s.loads :=
  ⟨by decide +kernel, fun _ hs store hstore ↦ (applied_routes_are_loaded sampleStart.toOrigin
    (reaches_exec readsLoaded_of_passes hs) 1 store hstore).1⟩

def pollAfterRestart : List Act :=
  reloadActs none 0 5 6 ++ pollActs 6 5 ++
    [.restart, .worker 1 .tick, .worker 1 .generation, .worker 1 .build]

/-- The worker replaces the routes of generation 6 by the initial empty table. -/
theorem restarted_process_empties_worker :
    ((exec (step 3 2) (fun _ _ ↦ true) sampleStart.system pollAfterRestart).any fun s ↦
      (s.workers 1).store == ⟨6, 1, 10, false⟩ && s.replacement 1 == some ⟨0, .initial⟩ &&
        !s.loads.contains .initial) = true := by
  decide +kernel

end System

end Temps.Routes
