import Mathlib.Data.List.MinMax
import Mathlib.Data.List.Nodup
import Mathlib.Data.Prod.Lex
import Temps.Lib.Machine

namespace Temps.Queue.Durable

inductive Consumer where
  | deployments
  | routes
  deriving DecidableEq

inductive JobKind where
  | gitPushEvent
  | deployImageRequested
  | redeploySourceBundleRequested
  | deploymentGateRecheck
  | customDomainAdded
  | customDomainRemoved
  | customRouteAdded
  | customRouteRemoved
  | forceRouteReload
  | other (name : String)
  deriving DecidableEq

structure Job (β : Type*) where
  kind : JobKind
  fields : β

def maxPendingDurableJobs : ℕ := 10000

def maxRetainedTerminalJobs : ℕ := 1000

def maxDurableDeliveryAttempts : ℕ := 5

def consumers : JobKind → List Consumer
  | .gitPushEvent | .deployImageRequested | .redeploySourceBundleRequested
  | .deploymentGateRecheck => [.deployments]
  | .customDomainAdded | .customDomainRemoved | .customRouteAdded | .customRouteRemoved
  | .forceRouteReload => [.routes]
  | .other _ => []

inductive QueueError where
  | unsupportedInStateless (jobType guidance : String)
  | saturated (job : JobKind) (pending limit : ℕ)
  | invalidData
  deriving DecidableEq

/-- How jobs are written to the payload column and read back. -/
structure Codec (β π : Type*) where
  toJson : Job β → Option π
  fromJson : π → Option (Job β)

structure JobRow (π : Type*) where
  id : ℕ
  createdAt : ℕ
  payload : π

structure Key where
  jobId : ℕ
  consumer : Consumer
  deriving DecidableEq

/-- A row of `durable_job_deliveries`; of the two times only whether they are set is read. -/
structure Delivery where
  key : Key
  claimed : Bool
  completed : Bool
  attempts : ℕ
  lastError : Option String
  deriving DecidableEq

structure Db (π : Type*) where
  jobs : List (JobRow π)
  deliveries : List Delivery

namespace Db

variable {π : Type*} (db : Db π)

/-- `UPDATE … WHERE job_id = $1 AND consumer = $2 AND completed_at IS NULL`. -/
def settle (k : Key) (f : Delivery → Delivery) : Db π :=
  { db with
    deliveries := db.deliveries.map fun d ↦ if d.key = k ∧ d.completed = false then f d else d }

def hasIncomplete (jobId : ℕ) : Bool :=
  db.deliveries.any fun d ↦ d.key.jobId == jobId && !d.completed

def delete (ids : List ℕ) : Db π where
  jobs := db.jobs.filter fun j ↦ !ids.contains j.id
  deliveries := db.deliveries.filter fun d ↦ !ids.contains d.key.jobId

def releaseClaims : Db π :=
  { db with
    deliveries := db.deliveries.map fun d ↦
      if d.completed = false then { d with claimed := false } else d }

def claimable (consumer : Consumer) (j : JobRow π) : Bool :=
  db.deliveries.any fun d ↦ d.key = ⟨j.id, consumer⟩ && !d.completed && !d.claimed

/-- The order `created_at, id`. -/
def age (j : JobRow π) : ℕ ×ₗ ℕ := toLex (j.createdAt, j.id)

def candidate (consumer : Consumer) : Option (JobRow π) :=
  (db.jobs.filter (db.claimable consumer)).argmin age

def claim (consumer : Consumer) : Option (JobRow π × Db π) :=
  (db.candidate consumer).map fun j ↦
    (j, { db with
      deliveries := db.deliveries.map fun d ↦
        if d.key = ⟨j.id, consumer⟩ then { d with claimed := true, attempts := d.attempts + 1 }
        else d })

def failClaim (k : Key) (details : String) : Db π :=
  db.settle k fun d ↦
    if maxDurableDeliveryAttempts ≤ d.attempts then
      { d with completed := true, lastError := some details }
    else { d with claimed := false, completed := false, lastError := some details }

def acknowledge (k : Key) : Db π :=
  let done := db.settle k fun d ↦ { d with completed := true, lastError := none }
  if done.hasIncomplete k.jobId then done else done.delete [k.jobId]

def prunable : List ℕ :=
  (((db.jobs.filter fun j ↦ !db.hasIncomplete j.id).mergeSort fun a b ↦ age b ≤ age a).drop
    maxRetainedTerminalJobs).map JobRow.id

def pendingJobs : ℕ := (db.jobs.filter fun j ↦ db.hasIncomplete j.id).length

def insert (j : JobRow π) (cs : List Consumer) : Db π where
  jobs := j :: db.jobs
  deliveries := cs.map (fun c ↦ ⟨⟨j.id, c⟩, false, false, 0, none⟩) ++ db.deliveries

end Db

/-- How far the transaction of the sender that holds the advisory lock has come. -/
inductive Stage where
  | locked
  | pruned (ids : List ℕ)
  | counted (ids : List ℕ) (pending : ℕ)

structure SendTx (β : Type*) where
  job : Job β
  createdAt : ℕ
  stage : Stage

/-- A delivery in the hands of a receiver, until it is settled. A malformed one is still inside
`claim`, which is about to fail it. -/
structure Hold where
  receiver : ℕ
  key : Key
  malformed : Bool
  deriving DecidableEq

/-- The tables, what the receivers of the process hold, the transaction of the current sender, and
the ids drawn so far. -/
structure State (β π : Type*) where
  db : Db π
  held : List Hold
  sending : Option (SendTx β)
  used : List ℕ

inductive Act (β : Type*) where
  | lock (job : Job β) (createdAt : ℕ)
  | prune
  | count
  | commit (id : ℕ)
  | rollback
  | claim (receiver : ℕ) (consumer : Consumer)
  | failClaim (receiver : ℕ) (key : Key) (details : String)
  | acknowledge (receiver : ℕ) (key : Key)
  | fail (receiver : ℕ) (key : Key) (details : String)
  | restart

/-- The check at the start of `send`: the consumers for which the job is stored. -/
def durableConsumers (kind : JobKind) : Except QueueError (List Consumer) :=
  if kind = .gitPushEvent then
    .error (.unsupportedInStateless "GitPushEvent"
      "build the image in CI, push it to a registry, then deploy the prebuilt image")
  else .ok (consumers kind)

def onBroadcast {β : Type*} (consumer : Consumer) (job : Job β) : Option (Job β) :=
  if consumer ∈ consumers job.kind then none else some job

namespace State

variable {β π : Type*} (codec : Codec β π) (s : State β π)

/-- The end of the transaction of `send`: every error rolls the transaction back. -/
def commit (tx : SendTx β) (ids : List ℕ) (pending id : ℕ) : State β π × Except QueueError Unit :=
  if maxPendingDurableJobs ≤ pending then
    ({ s with sending := none },
      .error (.saturated tx.job.kind pending maxPendingDurableJobs))
  else match codec.toJson tx.job with
    | none => ({ s with sending := none }, .error .invalidData)
    | some payload =>
      ({ s with
          db := (s.db.delete ids).insert ⟨id, tx.createdAt, payload⟩ (consumers tx.job.kind)
          sending := none
          used := id :: s.used }, .ok ())

def settle (h : Hold) (db : Db π) : Option (State β π) :=
  if h ∈ s.held then some { s with db := db, held := s.held.erase h } else none

/-- One step of the process: a statement of the sender that holds the lock, or the one statement
or transaction of another operation. -/
def step : Act β → Option (State β π)
  | .lock job createdAt =>
    match s.sending, durableConsumers job.kind with
    | none, .ok (_ :: _) => some { s with sending := some ⟨job, createdAt, .locked⟩ }
    | _, _ => none
  | .prune =>
    match s.sending with
    | some ⟨job, createdAt, .locked⟩ =>
      some { s with sending := some ⟨job, createdAt, .pruned s.db.prunable⟩ }
    | _ => none
  | .count =>
    match s.sending with
    | some ⟨job, createdAt, .pruned ids⟩ =>
      some { s with sending := some ⟨job, createdAt, .counted ids s.db.pendingJobs⟩ }
    | _ => none
  | .commit id =>
    match s.sending with
    | some ⟨job, createdAt, .counted ids pending⟩ =>
      if id ∈ s.used then none
      else some (s.commit codec ⟨job, createdAt, .counted ids pending⟩ ids pending id).1
    | _ => none
  | .rollback => some { s with sending := none }
  | .claim receiver consumer =>
    (s.db.claim consumer).map fun (j, db) ↦
      { s with
        db := db
        held := ⟨receiver, ⟨j.id, consumer⟩, (codec.fromJson j.payload).isNone⟩ :: s.held }
  | .failClaim receiver key details => s.settle ⟨receiver, key, true⟩ (s.db.failClaim key details)
  | .acknowledge receiver key => s.settle ⟨receiver, key, false⟩ (s.db.acknowledge key)
  | .fail receiver key details => s.settle ⟨receiver, key, false⟩ (s.db.failClaim key details)
  | .restart => some { s with db := s.db.releaseClaims, held := [], sending := none }

end State

def init {β π : Type*} : State β π := ⟨⟨[], []⟩, [], none, []⟩

open Lib.Machine List

variable {β π : Type*}

namespace Db

variable {db db' : Db π} {d : Delivery} {k : Key}

/-- What an operation may do to the deliveries: an old row keeps its key, and it keeps everything
once it is completed; a new row belongs to the job with the id `fresh`. -/
def Evolves (fresh : Option ℕ) (db db' : Db π) : Prop :=
  ∀ d' ∈ db'.deliveries,
    (∃ d ∈ db.deliveries, d.key = d'.key ∧ (d.completed = true → d' = d)) ∨
      fresh = some d'.key.jobId

/-- The incomplete rows stay as they are, but for those with a key in `touched`. -/
def Untouched (touched : Key → Prop) (db db' : Db π) : Prop :=
  ∀ d ∈ db.deliveries, d.completed = false → ¬ touched d.key → d ∈ db'.deliveries

/-- Every incomplete delivery stays incomplete, but for those with a key in `finished`. -/
def Keeps (finished : Key → Prop) (db db' : Db π) : Prop :=
  ∀ d ∈ db.deliveries, d.completed = false → finished d.key ∨
    ∃ d' ∈ db'.deliveries, d'.key = d.key ∧ d'.completed = false

structure Valid (db : Db π) : Prop where
  jobs : (db.jobs.map JobRow.id).Nodup
  keys : (db.deliveries.map Delivery.key).Nodup
  parents : ∀ d ∈ db.deliveries, ∃ j ∈ db.jobs, j.id = d.key.jobId

variable {j : JobRow π} {c : Consumer} {f : Delivery → Delivery} {id : ℕ} {touched : Key → Prop}
  {fresh : Option ℕ} {db'' : Db π}

theorem mem_hasIncomplete :
    db.hasIncomplete id ↔ ∃ d ∈ db.deliveries, d.key.jobId = id ∧ d.completed = false := by
  simp [hasIncomplete]

theorem mem_claimable :
    db.claimable c j ↔
      ∃ d ∈ db.deliveries, d.key = ⟨j.id, c⟩ ∧ d.completed = false ∧ d.claimed = false := by
  simp [claimable, and_assoc]

def rewrite (db : Db π) (f : Delivery → Delivery) : Db π :=
  { db with deliveries := db.deliveries.map f }

theorem rewrite_evolves (hkey : ∀ d, (f d).key = d.key) (hdone : ∀ d, d.completed → f d = d) :
    Evolves none db (db.rewrite f) := by
  intro d' hd'
  obtain ⟨d, hd, rfl⟩ := mem_map.mp hd'
  exact .inl ⟨d, hd, (hkey d).symm, hdone d⟩

theorem rewrite_valid (hkey : ∀ d, (f d).key = d.key) (h : db.Valid) : (db.rewrite f).Valid where
  __ := h
  keys := by
    rw [rewrite, map_map, show Delivery.key ∘ f = Delivery.key from funext hkey]
    exact h.keys
  parents := by
    intro d' hd'
    obtain ⟨d, hd, rfl⟩ := mem_map.mp hd'
    rw [hkey]
    exact h.parents d hd

theorem delete_evolves (ids : List ℕ) : Evolves none db (db.delete ids) :=
  fun d hd ↦ .inl ⟨d, mem_of_mem_filter hd, rfl, fun _ ↦ rfl⟩

theorem delete_valid (ids : List ℕ) (h : db.Valid) : (db.delete ids).Valid where
  jobs := h.jobs.sublist (filter_sublist.map _)
  keys := h.keys.sublist (filter_sublist.map _)
  parents := by
    intro d hd
    obtain ⟨hd, hkept⟩ := mem_filter.mp hd
    obtain ⟨j, hj, hid⟩ := h.parents d hd
    exact ⟨j, mem_filter.mpr ⟨hj, hid ▸ hkept⟩, hid⟩

theorem delete_untouched {ids : List ℕ} (hids : ∀ id ∈ ids, db.hasIncomplete id = false) :
    Untouched (fun _ ↦ False) db (db.delete ids) := by
  intro d hd hopen _
  refine mem_filter.mpr ⟨hd, ?_⟩
  rw [Bool.not_eq_true', ← Bool.not_eq_true, contains_iff_mem]
  intro hmem
  have hin := mem_hasIncomplete.mpr ⟨d, hd, rfl, hopen⟩
  rw [hids _ hmem] at hin
  exact nomatch hin

theorem rewrite_untouched (hf : ∀ d, ¬ touched d.key → f d = d) :
    Untouched touched db (db.rewrite f) :=
  fun d hd _ hk ↦ mem_map.mpr ⟨d, hd, hf d hk⟩

theorem Untouched.trans (h : Untouched touched db db')
    (h' : Untouched (fun _ ↦ False) db' db'') : Untouched touched db db'' :=
  fun d hd hopen hk ↦ h' d (h d hd hopen hk) hopen id

theorem Evolves.trans (h : Evolves none db db')
    (h' : Evolves fresh db' db'') : Evolves fresh db db'' := by
  intro d'' hd''
  rcases h' d'' hd'' with ⟨d', hd', hkey', hdone'⟩ | hfresh
  · rcases h d' hd' with ⟨d, hd, hkey, hdone⟩ | hnone
    · refine .inl ⟨d, hd, hkey.trans hkey', fun hd ↦ ?_⟩
      obtain rfl := hdone hd
      exact hdone' hd
    · exact nomatch hnone
  · exact .inr hfresh

theorem Evolves.hasIncomplete (h : Evolves fresh db db') (hid : fresh ≠ some id)
    (hin : db'.hasIncomplete id) : db.hasIncomplete id := by
  obtain ⟨d', hd', rfl, hopen⟩ := mem_hasIncomplete.mp hin
  rcases h d' hd' with ⟨d, hd, hkey, hdone⟩ | hfresh
  · refine mem_hasIncomplete.mpr ⟨d, hd, by rw [hkey], ?_⟩
    by_contra hne
    rw [hdone (by simpa using hne)] at hopen
    exact hne hopen
  · exact absurd hfresh hid

theorem candidate_spec (h : db.candidate c = some j) :
    j ∈ db.jobs ∧ db.claimable c j ∧ ∀ j' ∈ db.jobs, db.claimable c j' → age j ≤ age j' := by
  obtain ⟨hj, hc⟩ := mem_filter.mp (argmin_mem h)
  exact ⟨hj, hc, fun j' hj' hc' ↦ le_of_mem_argmin (mem_filter.mpr ⟨hj', hc'⟩) h⟩

theorem candidate_isSome (hj : j ∈ db.jobs) (hc : db.claimable c j) :
    ∃ j', db.candidate c = some j' := by
  rw [← Option.ne_none_iff_exists', candidate, Ne, argmin_eq_none]
  exact ne_nil_of_mem (mem_filter.mpr ⟨hj, hc⟩)

theorem eq_of_key (h : db.Valid) {d' : Delivery} (hd : d ∈ db.deliveries)
    (hd' : d' ∈ db.deliveries) (hkey : d.key = d'.key) : d = d' :=
  inj_on_of_nodup_map h.keys hd hd' hkey

theorem pendingJobs_le (hjobs : db'.jobs.Sublist db.jobs) (h : Evolves none db db') :
    db'.pendingJobs ≤ db.pendingJobs := by
  rw [pendingJobs, pendingJobs, ← countP_eq_length_filter, ← countP_eq_length_filter]
  calc db'.jobs.countP (fun j ↦ db'.hasIncomplete j.id)
      ≤ db.jobs.countP (fun j ↦ db'.hasIncomplete j.id) := hjobs.countP_le
    _ ≤ db.jobs.countP (fun j ↦ db.hasIncomplete j.id) :=
      countP_mono_left fun j _ hin ↦ h.hasIncomplete (by simp) hin

theorem settle_evolves (hf : ∀ d, (f d).key = d.key) : Evolves none db (db.settle k f) := by
  refine rewrite_evolves (fun d ↦ ?_) fun d hdone ↦ ?_
  · split
    · exact hf d
    · rfl
  · rw [if_neg (by simp [hdone])]

theorem settle_valid (hf : ∀ d, (f d).key = d.key) (h : db.Valid) : (db.settle k f).Valid := by
  refine rewrite_valid (fun d ↦ ?_) h
  split
  · exact hf d
  · rfl

theorem settle_untouched (f : Delivery → Delivery) : Untouched (· = k) db (db.settle k f) :=
  rewrite_untouched fun _ hk ↦ if_neg fun hboth ↦ hk hboth.1

theorem failClaim_evolves (details : String) : Evolves none db (db.failClaim k details) :=
  settle_evolves fun _ ↦ by split <;> rfl

theorem failClaim_untouched (details : String) : Untouched (· = k) db (db.failClaim k details) :=
  settle_untouched _

theorem failClaim_open (details : String) (hd : d ∈ db.deliveries) (hopen : d.completed = false)
    (hleft : ¬ maxDurableDeliveryAttempts ≤ d.attempts) :
    { d with claimed := false, completed := false, lastError := some details } ∈
      (db.failClaim d.key details).deliveries := by
  refine mem_map.mpr ⟨d, hd, ?_⟩
  rw [if_pos ⟨rfl, hopen⟩]
  exact if_neg hleft

theorem failClaim_spent (h : db.Valid) (details : String) (hd : d ∈ db.deliveries)
    (hspent : maxDurableDeliveryAttempts ≤ d.attempts) :
    ∀ d' ∈ (db.failClaim d.key details).deliveries, d'.key = d.key → d'.completed := by
  intro d' hd' hkey
  obtain ⟨e, he, rfl⟩ := mem_map.mp hd'
  by_cases hboth : e.key = d.key ∧ e.completed = false
  · obtain rfl := eq_of_key h he hd hboth.1
    rw [if_pos hboth]
    exact congrArg Delivery.completed (if_pos hspent)
  · rw [if_neg hboth] at hkey ⊢
    by_contra hopen
    exact hboth ⟨hkey, by simpa using hopen⟩

theorem acknowledge_cases (db : Db π) (k : Key) : ∃ done : Db π,
    done = db.settle k (fun d ↦ { d with completed := true, lastError := none }) ∧
      (db.acknowledge k = done ∨
        done.hasIncomplete k.jobId = false ∧ db.acknowledge k = done.delete [k.jobId]) := by
  refine ⟨_, rfl, ?_⟩
  rw [acknowledge]
  split
  case isTrue => exact .inl rfl
  case isFalse hnone => exact .inr ⟨by simpa using hnone, rfl⟩

theorem acknowledge_evolves : Evolves none db (db.acknowledge k) := by
  obtain ⟨done, hdone, heq⟩ := acknowledge_cases db k
  have hsettle : Evolves none db done := hdone ▸ settle_evolves fun _ ↦ rfl
  rcases heq with heq | ⟨-, heq⟩
  · exact heq ▸ hsettle
  · exact heq ▸ hsettle.trans (delete_evolves _)

theorem acknowledge_valid (h : db.Valid) : (db.acknowledge k).Valid := by
  obtain ⟨done, rfl, heq | ⟨-, heq⟩⟩ := acknowledge_cases db k
  · rw [heq]
    exact settle_valid (fun _ ↦ rfl) h
  · rw [heq]
    exact delete_valid _ (settle_valid (fun _ ↦ rfl) h)

theorem acknowledge_untouched : Untouched (· = k) db (db.acknowledge k) := by
  obtain ⟨done, rfl, heq | ⟨hnone, heq⟩⟩ := acknowledge_cases db k
  · rw [heq]
    exact settle_untouched _
  · rw [heq]
    exact (settle_untouched _).trans (delete_untouched (by simpa using hnone))

theorem acknowledge_jobs : (db.acknowledge k).jobs.Sublist db.jobs := by
  obtain ⟨done, rfl, heq | ⟨-, heq⟩⟩ := acknowledge_cases db k
  · rw [heq]
    exact List.Sublist.refl _
  · rw [heq]
    exact filter_sublist

theorem acknowledge_done (hd : d ∈ (db.acknowledge k).deliveries)
    (hkey : d.key = k) : d.completed := by
  have hdone : ∀ d ∈ (db.settle k fun d ↦
      { d with completed := true, lastError := none }).deliveries, d.key = k → d.completed := by
    intro d' hd' hkey'
    obtain ⟨d, -, rfl⟩ := mem_map.mp hd'
    split at hkey'
    · rw [if_pos ‹_›]
    · rw [if_neg ‹_›]
      by_contra hopen
      exact ‹¬ (d.key = k ∧ d.completed = false)› ⟨hkey', by simpa using hopen⟩
  obtain ⟨done, rfl, heq | ⟨-, heq⟩⟩ := acknowledge_cases db k
  · exact hdone d (heq ▸ hd) hkey
  · rw [heq] at hd
    exact hdone d (mem_of_mem_filter hd) hkey

theorem releaseClaims_evolves : Evolves none db db.releaseClaims := by
  refine rewrite_evolves (fun d ↦ ?_) fun d hdone ↦ ?_
  · split <;> rfl
  · rw [if_neg (by simp [hdone])]

theorem releaseClaims_valid (h : db.Valid) : db.releaseClaims.Valid := by
  refine rewrite_valid (fun d ↦ ?_) h
  split <;> rfl

theorem claim_spec (h : db.Valid) (hc : db.claim c = some (j, db')) :
    db.candidate c = some j ∧ db' = db.rewrite (fun d ↦
        if d.key = ⟨j.id, c⟩ then { d with claimed := true, attempts := d.attempts + 1 } else d) ∧
      ∃ d ∈ db.deliveries, d.key = ⟨j.id, c⟩ ∧ d.completed = false ∧ d.claimed = false ∧
        ∀ d' ∈ db.deliveries, d'.key = ⟨j.id, c⟩ → d' = d := by
  obtain ⟨j', hj', heq⟩ := Option.map_eq_some_iff.mp hc
  obtain ⟨rfl, rfl⟩ := Prod.mk.inj heq
  obtain ⟨d, hd, hkey, hopen, hfree⟩ := mem_claimable.mp (candidate_spec hj').2.1
  exact ⟨hj', rfl, d, hd, hkey, hopen, hfree, fun d' hd' hkey' ↦
    eq_of_key h hd' hd (hkey'.trans hkey.symm)⟩

section

variable (h : db.Valid) (hc : db.claim c = some (j, db'))
include h hc

theorem claim_evolves : Evolves none db db' := by
  obtain ⟨-, rfl, d, -, -, hopen, -, huniq⟩ := claim_spec h hc
  intro d' hd'
  obtain ⟨e, he, rfl⟩ := mem_map.mp hd'
  split
  case isTrue hkey =>
    refine .inl ⟨e, he, rfl, fun hdone ↦ ?_⟩
    rw [huniq e he hkey, hopen] at hdone
    exact nomatch hdone
  case isFalse => exact .inl ⟨e, he, rfl, fun _ ↦ rfl⟩

theorem claim_valid : db'.Valid := by
  obtain ⟨-, rfl, -⟩ := claim_spec h hc
  refine rewrite_valid (fun d ↦ ?_) h
  split <;> rfl

theorem claim_untouched : Untouched (· = ⟨j.id, c⟩) db db' := by
  obtain ⟨-, rfl, -⟩ := claim_spec h hc
  exact rewrite_untouched fun d hk ↦ if_neg hk

end

theorem consumers_nodup (kind : JobKind) : (consumers kind).Nodup := by
  cases kind <;> simp [consumers]

theorem insert_evolves (j : JobRow π) (cs : List Consumer) :
    Evolves (some j.id) db (db.insert j cs) := by
  intro d hd
  rcases mem_append.mp hd with hd | hd
  · obtain ⟨c, -, rfl⟩ := mem_map.mp hd
    exact .inr rfl
  · exact .inl ⟨d, hd, rfl, fun _ ↦ rfl⟩

theorem insert_untouched (j : JobRow π) (cs : List Consumer) :
    Untouched (fun _ ↦ False) db (db.insert j cs) :=
  fun _ hd _ _ ↦ mem_append_right _ hd

theorem insert_valid {cs : List Consumer} (h : db.Valid) (hfresh : ∀ j' ∈ db.jobs, j'.id ≠ j.id)
    (hcs : cs.Nodup) : (db.insert j cs).Valid where
  jobs := by
    rw [insert, map_cons, nodup_cons]
    refine ⟨fun hmem ↦ ?_, h.jobs⟩
    obtain ⟨j', hj', hid⟩ := mem_map.mp hmem
    exact hfresh j' hj' hid
  keys := by
    rw [insert, map_append, map_map, nodup_append']
    refine ⟨hcs.map fun c c' heq ↦ by simpa using heq, h.keys, ?_⟩
    rintro k hk hk'
    obtain ⟨c, -, rfl⟩ := mem_map.mp hk
    obtain ⟨d, hd, hkey⟩ := mem_map.mp hk'
    obtain ⟨j', hj', hid⟩ := h.parents d hd
    exact hfresh j' hj' (by rw [hid, hkey]; rfl)
  parents := by
    intro d hd
    rcases mem_append.mp hd with hd | hd
    · obtain ⟨c, -, rfl⟩ := mem_map.mp hd
      exact ⟨j, mem_cons_self, rfl⟩
    · obtain ⟨j', hj', hid⟩ := h.parents d hd
      exact ⟨j', mem_cons_of_mem _ hj', hid⟩

theorem insert_pending (cs : List Consumer) (hfresh : ∀ j' ∈ db.jobs, j'.id ≠ j.id) :
    (db.insert j cs).pendingJobs ≤ db.pendingJobs + 1 := by
  rw [pendingJobs, pendingJobs, ← countP_eq_length_filter, ← countP_eq_length_filter,
    insert, countP_cons]
  have hle : db.jobs.countP (fun j' ↦ (db.insert j cs).hasIncomplete j'.id) ≤
      db.jobs.countP fun j' ↦ db.hasIncomplete j'.id :=
    countP_mono_left fun j' hj' hin ↦ (insert_evolves j cs).hasIncomplete
      (fun heq ↦ hfresh j' hj' (Option.some.inj heq).symm) hin
  refine Nat.add_le_add hle ?_
  split <;> omega

theorem prunable_spec (h : id ∈ db.prunable) :
    db.hasIncomplete id = false ∧ ∃ j ∈ db.jobs, j.id = id := by
  obtain ⟨j, hj, rfl⟩ := mem_map.mp h
  have hmem := mem_mergeSort.mp (mem_of_mem_drop hj)
  obtain ⟨hj, hterm⟩ := mem_filter.mp hmem
  exact ⟨by simpa using hterm, j, hj, rfl⟩

end Db

end Temps.Queue.Durable
