import Temps.Lib.Machine

namespace Temps.BackupCore

open Lib.Machine Function

def retryBackoffsSecs : List ℕ := [0, 30, 60, 120]

inductive JobState where
  | pending
  | running
  | failed
  | completed
  deriving DecidableEq

def JobState.unfinished : JobState → Bool
  | .pending | .running => true
  | .failed | .completed => false

/-- A row of `backups`, with the state of its row in `external_service_backups` if it has one. -/
structure Backup where
  state : JobState
  child : Option JobState
  run : Option ℕ
  deriving DecidableEq

namespace Backup

def new (child : Bool) (run : Option ℕ) : Backup :=
  ⟨.pending, if child then some .pending else none, run⟩

variable (r : Backup)

def unfinished : Bool := r.state.unfinished

def markRunning : Backup :=
  if r.state = .pending then
    { r with
      state := .running
      child := r.child.map fun child ↦ if child = .pending then .running else child }
  else r

def markFailed : Backup :=
  if r.unfinished then
    { r with
      state := .failed
      child := r.child.map fun child ↦ if child.unfinished then .failed else child }
  else r

def finalizeCompleted : Backup :=
  { r with
    state := .completed
    child := r.child.map fun _ ↦ .completed }

/-- What `cancel_backup` and `reconcile_orphans_on_startup` do, to the parent alone. -/
def flip : Backup := if r.unfinished then { r with state := .failed } else r

end Backup

/-- How far a call of `spawn`, and the task it starts, have come. -/
inductive Call where
  | idle
  | waiting (backup : ℕ)
  | granted (backup : ℕ)
  | starting (backup : ℕ)
  | attempting (backup attempt : ℕ)
  | engine (backup attempt : ℕ)
  | succeeded (backup : ℕ)
  | erred (backup : ℕ)
  | cancelled (backup : ℕ)
  | completing (backup : ℕ)
  | failing (backup : ℕ)
  | leaving (backup : ℕ)
  | panicked (backup : ℕ)
  | reporting (backup : ℕ)
  deriving DecidableEq

def Call.backup : Call → Option ℕ
  | .idle => none
  | .waiting b | .granted b | .starting b | .attempting b _ | .engine b _ => some b
  | .succeeded b | .erred b | .cancelled b | .completing b | .failing b | .leaving b => some b
  | .panicked b | .reporting b => some b

def Call.task : Call → Option ℕ
  | .idle | .waiting _ | .granted _ | .panicked _ | .reporting _ => none
  | .starting b | .attempting b _ | .engine b _ | .succeeded b | .erred b | .cancelled b => some b
  | .completing b | .failing b | .leaving b => some b

/-- What happens in `run_with_retries`. A timeout is a permanent failure. -/
inductive Event where
  | attempt
  | succeed
  | fail (permanent : Bool)
  | observeCancel
  deriving DecidableEq

def Call.next (token : Bool) : Event → Call → Option Call
  | .attempt, .attempting b n => some (if token then .cancelled b else .engine b n)
  | .succeed, .engine b _ => some (.succeeded b)
  | .fail permanent, .engine b n =>
    some (if permanent ∨ n + 1 = retryBackoffsSecs.length then .erred b else .attempting b (n + 1))
  | .observeCancel, .engine b _ => if token then some (.cancelled b) else none
  | _, _ => none

def Call.marking : Call → Option (ℕ × Call)
  | .cancelled b | .completing b | .failing b => some (b, .leaving b)
  | .reporting b => some (b, .idle)
  | _ => none

/-- How far a cancellation has come: the row is flipped, the schedule run is marked, and then the
executor is told. -/
inductive Cancel where
  | idle
  | flipped (backup : ℕ)
  | marked (backup : ℕ)
  deriving DecidableEq

def Cancel.target : Cancel → Option ℕ
  | .idle => none
  | .flipped b | .marked b => some b

/-- The tables, and the executor with its in-flight map, which leads to the call whose token it has.
Rows that have not been inserted yet stand as failed ones without a schedule run. -/
structure Executor where
  rows : ℕ → Backup
  count : ℕ
  finished : ℕ → Bool
  runCount : ℕ
  calls : ℕ → Call
  tokens : ℕ → Bool
  inFlight : ℕ → Option ℕ
  permits : ℕ
  maxConcurrent : ℕ
  cancels : ℕ → Cancel
  reconciling : Bool

inductive Act where
  | insertRows (children : List Bool) (scheduled : Bool)
  | spawn (k b : ℕ)
  | spawnUnknown (b : ℕ)
  | spawnUnavailable (k b : ℕ)
  | acquire (k : ℕ)
  | spawnTask (k : ℕ)
  | markRunning (k : ℕ)
  | engine (k : ℕ) (event : Event)
  | panic (k : ℕ)
  | finalizeCompleted (k : ℕ)
  | finalizeFailed (k : ℕ)
  | markRunFinished (k : ℕ)
  | removeFromInFlight (k : ℕ)
  | cancelBackup (c b : ℕ)
  | cancelMark (c : ℕ)
  | cancelFire (c : ℕ)
  | crash
  | reconcileOrphans
  deriving DecidableEq

namespace Executor

def init (maxConcurrent : ℕ) : Executor where
  rows := fun _ ↦ ⟨.failed, none, none⟩
  count := 0
  finished := fun _ ↦ false
  runCount := 0
  calls := fun _ ↦ .idle
  tokens := fun _ ↦ false
  inFlight := fun _ ↦ none
  permits := maxConcurrent
  maxConcurrent := maxConcurrent
  cancels := fun _ ↦ .idle
  reconciling := false

variable (s : Executor)

def setCall (k : ℕ) (call : Call) : Executor := { s with calls := Function.update s.calls k call }

def setCancel (c : ℕ) (cancel : Cancel) : Executor :=
  { s with cancels := Function.update s.cancels c cancel }

def update (b : ℕ) (f : Backup → Backup) : Executor :=
  { s with rows := Function.update s.rows b (f (s.rows b)) }

def insertRows (children : List Bool) (scheduled : Bool) : Executor :=
  let run := if scheduled then some s.runCount else none
  { s with
    rows := fun i ↦
      match children[i - s.count]? with
      | some child => if s.count ≤ i then .new child run else s.rows i
      | none => s.rows i
    count := s.count + children.length
    runCount := if scheduled then s.runCount + 1 else s.runCount }

def liveIn (run : ℕ) : Bool :=
  (List.range s.count).any fun i ↦ (s.rows i).run = some run ∧ (s.rows i).unfinished

def markRunFinished (b : ℕ) : Executor :=
  match (s.rows b).run with
  | none => s
  | some run =>
    if s.liveIn run then s else { s with finished := Function.update s.finished run true }

def step : Act → Option Executor
  | .insertRows children scheduled =>
    if children = [] then none else some (s.insertRows children scheduled)
  | .spawn k b =>
    if s.calls k = .idle ∧ b < s.count ∧ s.inFlight b = none then some (s.setCall k (.waiting b))
    else none
  | .spawnUnknown b => if b < s.count then some (s.update b Backup.markFailed) else none
  | .spawnUnavailable k b =>
    if s.calls k = .idle ∧ b < s.count then
      if (s.rows b).unfinished then some ((s.update b Backup.markFailed).setCall k (.reporting b))
      else some s
    else none
  | .acquire k =>
    match s.calls k with
    | .waiting b =>
      if s.permits = 0 then none else some { s.setCall k (.granted b) with permits := s.permits - 1 }
    | _ => none
  | .spawnTask k =>
    match s.calls k with
    | .granted b =>
      if s.inFlight b = none then
        some { s.setCall k (.starting b) with
          tokens := Function.update s.tokens k false
          inFlight := Function.update s.inFlight b (some k) }
      else some { s.setCall k .idle with permits := s.permits + 1 }
    | _ => none
  | .markRunning k =>
    match s.calls k with
    | .starting b => some ((s.update b Backup.markRunning).setCall k (.attempting b 0))
    | _ => none
  | .engine k event => ((s.calls k).next (s.tokens k) event).map (s.setCall k)
  | .panic k =>
    match s.calls k with
    | .engine b _ => some { s.setCall k (.panicked b) with permits := s.permits + 1 }
    | _ => none
  | .finalizeCompleted k =>
    match s.calls k with
    | .succeeded b => some ((s.update b Backup.finalizeCompleted).setCall k (.completing b))
    | _ => none
  | .finalizeFailed k =>
    match s.calls k with
    | .erred b =>
      some ((s.update b Backup.markFailed).setCall k
        (if (s.rows b).unfinished then .failing b else .leaving b))
    | _ => none
  | .markRunFinished k => (s.calls k).marking.map fun (b, call) ↦ (s.markRunFinished b).setCall k call
  | .removeFromInFlight k =>
    match s.calls k with
    | .leaving b =>
      some { s.setCall k .idle with
        inFlight := Function.update s.inFlight b none
        permits := s.permits + 1 }
    | _ => none
  | .cancelBackup c b =>
    if s.cancels c = .idle ∧ b < s.count then
      some ((s.update b Backup.flip).setCancel c (.flipped b))
    else none
  | .cancelMark c =>
    match s.cancels c with
    | .flipped b => some ((s.markRunFinished b).setCancel c (.marked b))
    | _ => none
  | .cancelFire c =>
    match s.cancels c with
    | .marked b =>
      match s.inFlight b with
      | some k => some { s.setCancel c .idle with tokens := Function.update s.tokens k true }
      | none => some (s.setCancel c .idle)
    | _ => none
  | .crash =>
    some { s with
      calls := fun _ ↦ .idle
      inFlight := fun _ ↦ none
      permits := s.maxConcurrent
      cancels := fun _ ↦ .idle
      reconciling := true }
  | .reconcileOrphans =>
    if s.reconciling then some { s with rows := fun i ↦ (s.rows i).flip, reconciling := false }
    else none

end Executor

inductive Move (s : Executor) : Act → Executor → Prop
  | insertRows {children scheduled} (hsome : children ≠ []) :
    Move s (.insertRows children scheduled) (s.insertRows children scheduled)
  | spawn {k b} (hcall : s.calls k = .idle) (hb : b < s.count) (hnone : s.inFlight b = none) :
    Move s (.spawn k b) (s.setCall k (.waiting b))
  | spawnUnknown {b} (hb : b < s.count) : Move s (.spawnUnknown b) (s.update b Backup.markFailed)
  | spawnUnavailable {k b} (hcall : s.calls k = .idle) (hb : b < s.count)
    (hrow : (s.rows b).unfinished = true) :
    Move s (.spawnUnavailable k b) ((s.update b Backup.markFailed).setCall k (.reporting b))
  | spawnUnavailableLate {k b} : Move s (.spawnUnavailable k b) s
  | acquire {k b} (hcall : s.calls k = .waiting b) :
    Move s (.acquire k) { s.setCall k (.granted b) with permits := s.permits - 1 }
  | spawnTask {k b} (hcall : s.calls k = .granted b) (hnone : s.inFlight b = none) :
    Move s (.spawnTask k)
      { s.setCall k (.starting b) with
        tokens := Function.update s.tokens k false
        inFlight := Function.update s.inFlight b (some k) }
  | alreadyInFlight {k b} (hcall : s.calls k = .granted b) :
    Move s (.spawnTask k) { s.setCall k .idle with permits := s.permits + 1 }
  | markRunning {k b} (hcall : s.calls k = .starting b) :
    Move s (.markRunning k) ((s.update b Backup.markRunning).setCall k (.attempting b 0))
  | engine {k event call} (hcall : (s.calls k).next (s.tokens k) event = some call) :
    Move s (.engine k event) (s.setCall k call)
  | panic {k b n} (hcall : s.calls k = .engine b n) :
    Move s (.panic k) { s.setCall k (.panicked b) with permits := s.permits + 1 }
  | finalizeCompleted {k b} (hcall : s.calls k = .succeeded b) :
    Move s (.finalizeCompleted k)
      ((s.update b Backup.finalizeCompleted).setCall k (.completing b))
  | finalizeFailed {k b} (hcall : s.calls k = .erred b) :
    Move s (.finalizeFailed k)
      ((s.update b Backup.markFailed).setCall k
        (if (s.rows b).unfinished then .failing b else .leaving b))
  | markRunFinished {k b call} (hcall : (s.calls k).marking = some (b, call)) :
    Move s (.markRunFinished k) ((s.markRunFinished b).setCall k call)
  | removeFromInFlight {k b} (hcall : s.calls k = .leaving b) :
    Move s (.removeFromInFlight k)
      { s.setCall k .idle with
        inFlight := Function.update s.inFlight b none
        permits := s.permits + 1 }
  | cancelBackup {c b} (hcancel : s.cancels c = .idle) (hb : b < s.count) :
    Move s (.cancelBackup c b) ((s.update b Backup.flip).setCancel c (.flipped b))
  | cancelMark {c b} (hcancel : s.cancels c = .flipped b) :
    Move s (.cancelMark c) ((s.markRunFinished b).setCancel c (.marked b))
  | cancelFire {c b k} (hcancel : s.cancels c = .marked b) (hentry : s.inFlight b = some k) :
    Move s (.cancelFire c) { s.setCancel c .idle with tokens := Function.update s.tokens k true }
  | cancelFireNone {c b} (hcancel : s.cancels c = .marked b) (hentry : s.inFlight b = none) :
    Move s (.cancelFire c) (s.setCancel c .idle)
  | crash :
    Move s .crash
      { s with
        calls := fun _ ↦ .idle
        inFlight := fun _ ↦ none
        permits := s.maxConcurrent
        cancels := fun _ ↦ .idle
        reconciling := true }
  | reconcileOrphans (hreconciling : s.reconciling = true) :
    Move s .reconcileOrphans { s with rows := fun i ↦ (s.rows i).flip, reconciling := false }

variable {s t : Executor} {r : Backup} {b : ℕ}

theorem Backup.flip_finished (r : Backup) : r.flip.unfinished = false := by
  rw [Backup.flip]
  split
  case isTrue => rfl
  case isFalse hr => simpa using hr

theorem Backup.markFailed_finished (r : Backup) : r.markFailed.unfinished = false := by
  rw [Backup.markFailed]
  split
  case isTrue => rfl
  case isFalse hr => simpa using hr

theorem Backup.markRunning_unfinished (r : Backup) : r.markRunning.unfinished = r.unfinished := by
  rw [Backup.markRunning]
  split
  case isTrue hr => rw [Backup.unfinished, Backup.unfinished, hr]; rfl
  case isFalse => rfl

theorem Executor.rows_insertRows (children : List Bool) (scheduled : Bool) (hb : b < s.count) :
    (s.insertRows children scheduled).rows b = s.rows b := by
  simp only [Executor.insertRows]
  split
  case h_1 => exact if_neg (Nat.not_le.mpr hb)
  case h_2 => rfl

theorem Executor.markRunFinished_eq (b : ℕ) :
    ∃ finished, s.markRunFinished b = { s with finished := finished } := by
  fun_cases Executor.markRunFinished s b <;> exact ⟨_, rfl⟩

@[simp]
theorem Executor.calls_markRunFinished (b : ℕ) : (s.markRunFinished b).calls = s.calls := by
  obtain ⟨finished, heq⟩ := s.markRunFinished_eq b
  rw [heq]

@[simp]
theorem Executor.cancels_markRunFinished (b : ℕ) : (s.markRunFinished b).cancels = s.cancels := by
  obtain ⟨finished, heq⟩ := s.markRunFinished_eq b
  rw [heq]

theorem Backup.flip_of_finished (h : r.unfinished = false) : r.flip = r := if_neg (by simp [h])

theorem Backup.markFailed_of_finished (h : r.unfinished = false) : r.markFailed = r :=
  if_neg (by simp [h])

theorem Backup.markRunning_of_finished (h : r.unfinished = false) : r.markRunning = r := by
  refine if_neg fun hpending ↦ ?_
  rw [Backup.unfinished, hpending] at h
  cases h

theorem Executor.rows_update_of_fixed {f : Backup → Backup} {i : ℕ}
    (hf : i = b → f (s.rows b) = s.rows b) : (s.update b f).rows i = s.rows i := by
  rcases eq_or_ne i b with rfl | hne
  · simp only [Executor.update, update_self, hf rfl]
  · simp only [Executor.update, update_of_ne hne]

theorem Executor.calls_setCall (s : Executor) (j : ℕ) (call : Call) (k : ℕ) :
    (s.setCall j call).calls k = if k = j then call else s.calls k := update_apply _ _ _ _

theorem Call.marking_of_next {call next : Call} {token : Bool} {event : Event}
    (h : call.next token event = some next) : call.marking = none := by
  revert h
  fun_cases Call.next token event call <;> rintro ⟨⟩ <;> rfl

theorem step_move {a : Act} (h : s.step a = some t) : Move s a t := by
  revert h
  fun_cases Executor.step s a
  case case18 =>
    intro h
    obtain ⟨call, hcall, rfl⟩ := Option.map_eq_some_iff.mp h
    exact .engine hcall
  case case25 =>
    intro h
    obtain ⟨⟨b, call⟩, hcall, rfl⟩ := Option.map_eq_some_iff.mp h
    exact .markRunFinished hcall
  all_goals rintro ⟨⟩
  case case2 hsome => exact .insertRows hsome
  case case3 h => exact .spawn h.1 h.2.1 h.2.2
  case case5 hb => exact .spawnUnknown hb
  case case7 h hrow => exact .spawnUnavailable h.1 h.2 hrow
  case case8 => exact .spawnUnavailableLate
  case case11 hcall _ => exact .acquire hcall
  case case13 hcall hnone => exact .spawnTask hcall hnone
  case case14 hcall _ => exact .alreadyInFlight hcall
  case case16 hcall => exact .markRunning hcall
  case case19 hcall => exact .panic hcall
  case case21 hcall => exact .finalizeCompleted hcall
  case case23 hcall => exact .finalizeFailed hcall
  case case26 hcall => exact .removeFromInFlight hcall
  case case28 h => exact .cancelBackup h.1 h.2
  case case30 hcancel => exact .cancelMark hcancel
  case case32 hcancel k hentry => exact .cancelFire hcancel hentry
  case case33 hcancel hentry => exact .cancelFireNone hcancel hentry
  case case35 => exact .crash
  case case36 hreconciling => exact .reconcileOrphans hreconciling

end Temps.BackupCore
