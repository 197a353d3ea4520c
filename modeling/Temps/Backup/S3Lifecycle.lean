import Mathlib.Data.List.Dedup
import Mathlib.Data.List.Sort
import Temps.Lib.Machine

namespace Temps.Backup.S3Lifecycle

open Option

structure Schedule where
  id : Nat
  enabled : Bool
  retentionPeriod : Int

structure LifecycleRule where
  id : String
  tagValue : String
  days : Int
deriving DecidableEq

def enabledSchedules (schedules : List Schedule) : List Schedule :=
  schedules.filter Schedule.enabled

def distinctRetentions (schedules : List Schedule) : List Int :=
  (((enabledSchedules schedules).map Schedule.retentionPeriod).filter (0 < ·)).dedup.insertionSort
    (· ≤ ·)

def buildLifecycleRules (retentions : List Int) : List LifecycleRule :=
  retentions.map fun days ↦ ⟨"temps-retention-" ++ toString days ++ "d", toString days, days⟩

inductive Edit
  | create (schedule : Schedule)
  | update (id : Nat) (retention : Option Int) (enabled : Option Bool)
  | enable (id : Nat)
  | disable (id : Nat)
  | delete (id : Nat)

def editRow (id : Nat) (f : Schedule → Schedule) (schedules : List Schedule) : List Schedule :=
  schedules.map fun s ↦ if s.id = id then f s else s

def Edit.apply (schedules : List Schedule) : Edit → List Schedule
  | .create schedule => schedules ++ [schedule]
  | .update id retention enabled => editRow id (fun s ↦
      ⟨s.id, enabled.getD s.enabled, retention.getD s.retentionPeriod⟩) schedules
  | .enable id => editRow id (fun s ↦ { s with enabled := true }) schedules
  | .disable id => editRow id (fun s ↦ { s with enabled := false }) schedules
  | .delete id => schedules.filter fun s ↦ s.id ≠ id

def Edit.known (schedules : List Schedule) : Edit → Bool
  | .create _ => true
  | .update id _ _ | .enable id | .disable id | .delete id => schedules.any fun s ↦ s.id = id

def Edit.fires : Edit → Bool
  | .update _ retention enabled => retention.isSome || enabled.isSome
  | _ => true

inductive Reply
  | ok
  | failed
  | lost
deriving DecidableEq

inductive Stage
  | claimed
  | loaded (rules : List LifecycleRule)
  | pushed (failed : Bool)

/-- A source, its bucket and the reconciles of the process. `waiting` counts those that were
started and do not yet hold the lock. -/
structure Source where
  schedules : List Schedule
  managedByCloud : Bool
  failedAt : Bool
  generation : Nat
  bucket : List LifecycleRule
  waiting : Nat
  running : Option (Nat × Stage)

def effects : List Reply → Nat
  | [] => 0
  | .ok :: _ => 1
  | .failed :: rest => effects rest
  | .lost :: rest => effects rest + 1

inductive Act
  | edit (e : Edit) (reply : Reply)
  | sweep (reply : Reply)
  | begin (tries : List Reply)
  | load (reply : Reply)
  | push (reply : Reply)
  | record (tries : List Reply)
  | restart

namespace Source

variable (s : Source)

def desired : List LifecycleRule := buildLifecycleRules (distinctRetentions s.schedules)

def inScope : Bool :=
  s.managedByCloud || !(enabledSchedules s.schedules).isEmpty || s.failedAt

def commit (e : Edit) (reply : Reply) : Source :=
  if e.known s.schedules && reply ≠ .failed then
    -- the handler returns early when the answer is lost, so only an answered commit fires
    { s with
      schedules := e.apply s.schedules
      waiting := s.waiting + if e.fires && reply = .ok then 1 else 0 }
  else s

/-- Taking the lock and claiming a generation: `UPDATE … RETURNING`, retried. -/
def beginReconcileAttempt (tries : List Reply) : Source :=
  let generation := s.generation + effects tries
  if .ok ∈ tries then
    { s with generation, waiting := s.waiting - 1, running := some (generation, .claimed) }
  else { s with generation, waiting := s.waiting - 1 }

def recordReconcileAttempt (generation : Nat) (failed : Bool) (tries : List Reply) : Source :=
  if 0 < effects tries ∧ s.generation = generation then
    { s with failedAt := failed, running := none }
  else { s with running := none }

def step : Act → Source
  | .edit e reply => s.commit e reply
  | .sweep reply => if reply = .ok && s.inScope then { s with waiting := s.waiting + 1 } else s
  | .begin tries =>
    if 0 < s.waiting && s.running.isNone then s.beginReconcileAttempt tries else s
  | .load reply =>
    match s.running with
    | some (generation, .claimed) =>
      if reply = .ok then { s with running := some (generation, .loaded s.desired) }
      else { s with running := some (generation, .pushed true) }
    | _ => s
  | .push reply =>
    match s.running with
    | some (generation, .loaded rules) =>
      { s with
        bucket := if reply = .failed then s.bucket else rules
        running := some (generation, .pushed (reply ≠ .ok)) }
    | _ => s
  | .record tries =>
    match s.running with
    | some (generation, .pushed failed) => s.recordReconcileAttempt generation failed tries
    | _ => s
  | .restart => { s with waiting := 0, running := none }

def anchored : Bool := s.managedByCloud || !(enabledSchedules s.schedules).isEmpty

def Quiet : Prop := s.waiting = 0 ∧ s.running = none

/-- A bucket whose rules differ from those a reconcile would push is one the sweep looks at. -/
def Retried : Prop := s.Quiet → s.bucket ≠ s.desired → s.inScope = true

/-- The steps that can lose the trace of a change, each with what makes it harmless. -/
def Traceable : Act → Prop
  | .edit e .lost => e.known s.schedules = true → e.fires = true →
    ({ s with schedules := e.apply s.schedules } : Source).anchored = true
  | .begin tries => .ok ∉ tries → s.inScope = true
  | .record tries => effects tries = 0 → (∃ generation, s.running = some (generation, .pushed true)) →
    s.inScope = true
  | .restart => ¬ s.Quiet → s.inScope = true
  | _ => True

/-- What the lock holder has read is current, unless another reconcile is still to come. -/
structure Follows : Prop where
  retried : s.Retried
  claimed : ∀ generation stage, s.running = some (generation, stage) → s.generation = generation
  loaded : ∀ generation rules, s.waiting = 0 → s.running = some (generation, .loaded rules) →
    rules = s.desired ∨ s.anchored = true
  pushed : ∀ generation, s.waiting = 0 → s.running = some (generation, .pushed false) →
    s.bucket = s.desired ∨ s.anchored = true

variable {s} {tries : List Reply}

theorem inScope_of_anchored (h : s.anchored) : s.inScope := by
  rw [inScope, Bool.or_eq_true]
  exact .inl h

theorem follows_of_waiting (hwaiting : 0 < s.waiting)
    (hclaimed : ∀ generation stage, s.running = some (generation, stage) →
      s.generation = generation) : Follows s where
  retried hquiet := absurd hquiet.1 hwaiting.ne'
  claimed := hclaimed
  loaded _ _ hzero := absurd hzero hwaiting.ne'
  pushed _ hzero := absurd hzero hwaiting.ne'

theorem apply_of_not_fires {e : Edit} (h : e.fires = false) (schedules : List Schedule) :
    e.apply schedules = schedules := by
  cases e with
  | update id retention enabled =>
    obtain ⟨rfl, rfl⟩ : retention = none ∧ enabled = none := by simpa [Edit.fires] using h
    simp [Edit.apply, editRow]
  | create | enable | disable | delete => exact (nomatch h)

theorem Follows.commit {e : Edit} {reply : Reply} (h : Follows s)
    (htrace : s.Traceable (.edit e reply)) : Follows (s.commit e reply) := by
  unfold Source.commit
  split
  case isFalse => exact h
  case isTrue hgoes =>
    obtain ⟨hknown, hreply⟩ : e.known s.schedules ∧ reply ≠ .failed := by simpa using hgoes
    cases hfires : e.fires with
    | false =>
      rw [apply_of_not_fires hfires]
      exact h
    | true =>
      cases reply with
      | failed => exact absurd rfl hreply
      | ok => exact follows_of_waiting (by simp) h.claimed
      | lost =>
        have hanchored := htrace hknown hfires
        exact ⟨fun _ _ ↦ inScope_of_anchored hanchored, h.claimed, fun _ _ _ _ ↦ .inr hanchored,
          fun _ _ _ ↦ .inr hanchored⟩

theorem follows_begin (hidle : s.running = none)
    (htrace : s.Traceable (.begin tries)) : Follows (s.beginReconcileAttempt tries) := by
  unfold beginReconcileAttempt
  split
  case isTrue =>
    refine ⟨fun hquiet ↦ (nomatch hquiet.2), fun generation stage hrun ↦ ?_, nofun, nofun⟩
    exact congrArg Prod.fst (some.inj hrun)
  case isFalse hfailed =>
    refine ⟨fun _ _ ↦ htrace hfailed, fun _ _ hrun ↦ ?_, fun _ _ _ hrun ↦ ?_, fun _ _ hrun ↦ ?_⟩ <;>
      exact (nomatch hidle.symm.trans hrun)

theorem Follows.record {generation : Nat} {failed : Bool} (h : Follows s)
    (hrun : s.running = some (generation, .pushed failed)) (htrace : s.Traceable (.record tries)) :
    Follows (s.recordReconcileAttempt generation failed tries) := by
  have hdone {t : Source} (hidle : t.running = none) (hretried : t.Retried) : Follows t := by
    refine ⟨hretried, fun _ _ hrun ↦ ?_, fun _ _ _ hrun ↦ ?_, fun _ _ hrun ↦ ?_⟩ <;>
      exact (nomatch hidle.symm.trans hrun)
  have hclean (hzero : s.waiting = 0) (hfailed : failed = false) (hstale : s.bucket ≠ s.desired) :
      s.anchored := by
    subst hfailed
    exact (h.pushed generation hzero hrun).resolve_left hstale
  unfold recordReconcileAttempt
  split
  case isTrue =>
    refine hdone rfl fun hquiet hstale ↦ ?_
    cases failed with
    | true => simp [inScope]
    | false => exact inScope_of_anchored (hclean hquiet.1 rfl hstale)
  case isFalse hno =>
    refine hdone rfl fun hquiet hstale ↦ ?_
    have hnone : effects tries = 0 := by
      have := h.claimed generation _ hrun
      exact Nat.eq_zero_of_not_pos fun hpos ↦ hno ⟨hpos, this⟩
    cases failed with
    | true => exact htrace hnone ⟨generation, hrun⟩
    | false => exact inScope_of_anchored (hclean hquiet.1 rfl hstale)

theorem Follows.step {act : Act} (h : Follows s) (htrace : s.Traceable act) :
    Follows (s.step act) := by
  fun_cases Source.step s act
  case case1 => exact h.commit htrace
  case case2 => exact follows_of_waiting (Nat.succ_pos _) h.claimed
  case case4 hfree => exact follows_begin (by simpa using (Bool.and_eq_true_iff.mp hfree).2) htrace
  case case6 hrun =>
    refine ⟨fun hquiet ↦ (nomatch hquiet.2), fun g stage hg ↦ ?_, fun g rules _ hg ↦ ?_, nofun⟩
    · exact (h.claimed _ _ hrun).trans (congrArg Prod.fst (some.inj hg))
    · exact .inl (Stage.loaded.inj (congrArg Prod.snd (some.inj hg))).symm
  case case7 hrun _ =>
    refine ⟨fun hquiet ↦ (nomatch hquiet.2), fun g stage hg ↦ ?_, nofun, nofun⟩
    exact (h.claimed _ _ hrun).trans (congrArg Prod.fst (some.inj hg))
  case case9 reply _ _ hrun =>
    refine ⟨fun hquiet ↦ (nomatch hquiet.2), fun g stage hg ↦ ?_, nofun, fun g hzero hg ↦ ?_⟩
    · exact (h.claimed _ _ hrun).trans (congrArg Prod.fst (some.inj hg))
    · have hok : reply = .ok := by simpa using Stage.pushed.inj (congrArg Prod.snd (some.inj hg))
      subst hok
      exact h.loaded _ _ hzero hrun
  case case11 hrun => exact h.record hrun htrace
  case case13 =>
    refine ⟨fun _ hstale ↦ ?_, nofun, nofun, nofun⟩
    by_cases hquiet : s.Quiet
    · exact h.retried hquiet hstale
    · exact htrace hquiet
  all_goals exact h

end Source

def fresh (managedByCloud : Bool) : Source := ⟨[], managedByCloud, false, 0, [], 0, none⟩

/-- On every run that loses no trace of a change, a bucket with stale rules is swept again. -/
theorem stale_bucket_retried (managedByCloud : Bool) {acts : List Act}
    (h : Lib.Machine.Along Source.step Source.Traceable (fresh managedByCloud) acts) :
    (acts.foldl Source.step (fresh managedByCloud)).Retried := by
  have hfresh : (fresh managedByCloud).Follows := ⟨fun _ hne ↦ absurd rfl hne, nofun, nofun, nofun⟩
  exact (Lib.Machine.along_invariant (fun _ _ hs ha ↦ hs.step ha) hfresh h).retried

def reconciled : List Act := [.begin [.ok], .load .ok, .push .ok, .record [.ok]]

theorem refused_clear_retried :
    let acts := [.edit (.create ⟨1, true, 7⟩) .ok] ++ reconciled ++
      [.edit (.disable 1) .ok, .begin [.ok], .load .ok, .push .failed, .record [.ok]]
    (acts.foldl Source.step (fresh false)).Quiet ∧ (acts.foldl Source.step (fresh false)).bucket ≠
        (acts.foldl Source.step (fresh false)).desired ∧
      (acts.foldl Source.step (fresh false)).Retried := by
  refine ⟨⟨rfl, rfl⟩, by decide, stale_bucket_retried false ?_⟩
  have hok {P : Prop} (h : Reply.ok ∉ [Reply.ok]) : P := absurd (List.mem_singleton_self _) h
  exact ⟨trivial, hok, trivial, trivial, nofun, trivial, hok, trivial, trivial, nofun, trivial⟩

/-- The only schedule is disabled and the process stops before the reconcile has begun: the rules
stay in the bucket and no sweep will look at the source. -/
theorem restart_strands_rules :
    let acts := [.edit (.create ⟨1, true, 7⟩) .ok] ++ reconciled ++
      [.edit (.disable 1) .ok, .restart]
    (acts.foldl Source.step (fresh false)).Quiet ∧ (acts.foldl Source.step (fresh false)).bucket ≠
        (acts.foldl Source.step (fresh false)).desired ∧
      (acts.foldl Source.step (fresh false)).inScope = false := by
  exact ⟨⟨rfl, rfl⟩, by decide, by decide⟩

end Temps.Backup.S3Lifecycle
