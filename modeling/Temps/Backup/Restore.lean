import Mathlib.Data.List.Basic

namespace Temps.Backup.Restore

inductive Mode
  | inPlace
  | newService
  | pitr (toNewService : Bool)
deriving DecidableEq

inductive RunStatus
  | running
  | completed
  | failed
  | cancelled
  | interrupted
deriving DecidableEq

inductive Phase
  | prepare
  | download
  | provision
  | restore
  | recover
  | verify
  | completed
  | failed
deriving DecidableEq

def RunStatus.active (status : RunStatus) : Bool := status == .running

def Mode.destructive : Mode → Bool
  | .inPlace | .pitr false => true
  | .newService | .pitr true => false

def Mode.writePhase : Mode → Phase
  | .pitr _ => .recover
  | .inPlace | .newService => .restore

def Mode.cancellablePhases (mode : Mode) : List Phase :=
  if mode.destructive then [.prepare, .download] else [.prepare, .download, .provision, .recover]

def Mode.lastPhase (mode : Mode) : Phase := if mode.destructive then mode.writePhase else .verify

inductive Outcome
  | completed (targetServiceId : Option Nat)
  | failed
  | cancelled

/-- Where the worker of a run stands. `refused` is an engine that its gate has turned away, because
of a cancellation or because the gate could not ask. -/
inductive Stage
  | preparing
  | staging
  | refused
  | writing
  | provisioning
  | provisioned
  | registering
  | registered (serviceId : Nat)
  | finished (outcome : Outcome)

/-- The row of a run with its worker in this process. The last three fields record what has
happened: the row has passed the point of no return, the engine has written into the existing
service, and the services registered. -/
structure Run where
  mode : Mode
  defers : Bool
  status : RunStatus
  phase : Phase
  cancelRequested : Bool
  targetServiceId : Option Nat
  worker : Option Stage
  token : Bool
  signalDue : Bool
  orphan : Bool
  passed : Bool
  wroteTarget : Bool
  registered : List Nat

/-- A statement is answered, fails, or commits while its answer is lost. -/
inductive Reply
  | ok
  | failed
  | lost
deriving DecidableEq

inductive Entry
  | entered
  | cancelled
  | error
deriving DecidableEq

namespace Run

variable (run : Run)

def admitted (mode : Mode) (defers : Bool) : Run :=
  ⟨mode, defers, .running, .prepare, false, none, some .preparing, false, false, false, false,
    false, []⟩

def recordCancellation (reply : Reply) : Run :=
  if reply ≠ .failed ∧ run.status.active ∧ !run.cancelRequested ∧
      run.phase ∈ run.mode.cancellablePhases then
    { run with cancelRequested := true, signalDue := reply = .ok }
  else run

def signal : Run :=
  if run.signalDue then { run with signalDue := false, token := run.token || run.worker.isSome }
  else run

def enterPhaseUnlessCancelled (phase : Phase) (reply : Reply) : Run × Entry :=
  if reply = .failed then (run, .error)
  else if run.status.active && !run.cancelRequested then
    ({ run with phase, passed := run.passed || phase == run.mode.lastPhase },
      if reply = .ok then .entered else .error)
  else (run, if reply = .ok && run.cancelRequested then .cancelled else .error)

def go (stage : Stage) : Run := { run with worker := some stage }

def finish (outcome : Outcome) : Run := run.go (.finished outcome)

def leavePrepare (reply : Reply) : Run :=
  let (phase, stage) :=
    if run.mode.destructive then
      if run.defers then (.download, .staging) else (run.mode.writePhase, .writing)
    else (.provision, .provisioning)
  match run.enterPhaseUnlessCancelled phase reply with
  | (next, .entered) => next.go stage
  | (next, .cancelled) => next.finish .cancelled
  | (next, .error) => next.finish .failed

def beginTargetWrites (reply : Reply) : Run :=
  match run.enterPhaseUnlessCancelled run.mode.writePhase reply with
  | (next, .entered) => next.go .writing
  | (next, .cancelled) | (next, .error) => next.go .refused

def enterVerify (reply : Reply) : Run :=
  match run.enterPhaseUnlessCancelled .verify reply with
  | (next, .entered) => next.go .registering
  | (next, .cancelled) => next.finish .cancelled
  | (next, .error) => if reply = .ok then next.finish .failed else next

def persistNewService (serviceId : Nat) (reply : Reply) : Run :=
  if reply ≠ .failed ∧ run.status.active ∧ run.targetServiceId = none ∧
      !run.cancelRequested then
    { run with
      targetServiceId := some serviceId
      registered := serviceId :: run.registered
      worker := some (if reply = .ok then .registered serviceId else .finished .failed) }
  else run.finish .failed

def settled : Outcome := if run.token then .cancelled else .failed

/-- The engine returns. `verified` says whether the write of the `verify` phase succeeds. -/
def engineReturns (ok verified : Bool) : Run :=
  match run.worker with
  | some .staging => if ok then run else run.finish run.settled
  | some .refused => run.finish run.settled
  | some .writing =>
    if ok then
      { run with phase := if verified then .verify else run.phase }.finish (.completed none)
    else run.finish .failed
  | some .provisioning =>
    if run.token then run.finish .cancelled
    else if ok then run.go .provisioned else run.finish .failed
  | _ => run

def confirmStagedRestoreStopped (confirmed : Bool) : Run :=
  if confirmed then run.finish .cancelled else { run with worker := none }

/-- The engine reports a staged download that may still run; the worker tries to confirm that it
has stopped and otherwise leaves the run active. -/
def stagedStillRunning (confirmed : Bool) : Run :=
  let stopped := run.confirmStagedRestoreStopped confirmed
  match run.worker with
  | some .staging | some .refused | some .writing => stopped
  | some .provisioning => if run.token then run.finish .cancelled else stopped
  | _ => run

def recorded : Outcome → Run
  | .completed serviceId =>
    { run with status := .completed, phase := .completed, targetServiceId := serviceId }
  | .cancelled => { run with status := .cancelled }
  | .failed => { run with status := .failed, phase := .failed }

def persistTerminalState (outcome : Outcome) (reply : Reply) : Run :=
  let written := if run.status.active && reply ≠ .failed then run.recorded outcome else run
  if reply = .ok then { written with worker := none } else written

def restart : Run :=
  { run with worker := none, token := false, signalDue := false, orphan := true }

end Run

inductive Act
  | cancel (reply : Reply)
  | signal
  | leavePrepare (reply : Reply)
  | beginTargetWrites (reply : Reply)
  | engineWrites
  | engineReturns (ok verified : Bool)
  | stagedStillRunning (confirmed : Bool)
  | enterVerify (reply : Reply)
  | register (reply : Reply)
  | returns
  | fail
  | panic (fenced : Bool)
  | persist (reply : Reply)
  | giveUp
  | reconcile

def Run.step (serviceId : Nat) (run : Run) (act : Act) : Run :=
  match act, run.worker with
  | .cancel reply, _ => run.recordCancellation reply
  | .signal, _ => run.signal
  | .leavePrepare reply, some .preparing => run.leavePrepare reply
  | .beginTargetWrites reply, some .staging => run.beginTargetWrites reply
  | .engineWrites, some .writing => { run with wroteTarget := true }
  | .engineReturns ok verified, _ => run.engineReturns ok verified
  | .stagedStillRunning confirmed, _ => run.stagedStillRunning confirmed
  | .enterVerify reply, some .provisioned => run.enterVerify reply
  | .register reply, some .registering => run.persistNewService serviceId reply
  | .returns, some (.registered id) => run.finish (.completed (some id))
  | .fail, some .preparing | .fail, some .provisioned | .fail, some .registering =>
    run.finish .failed
  | .panic _, some (.finished _) => run
  | .panic fenced, some _ => if fenced then run.finish .failed else { run with worker := none }
  | .persist reply, some (.finished outcome) => run.persistTerminalState outcome reply
  | .giveUp, some (.finished _) => { run with worker := none }
  | .reconcile, _ =>
    if run.orphan && run.status.active then { run with status := .interrupted } else run
  | _, _ => run

structure Restores where
  runs : Nat → Option Run
  nextService : Nat

inductive Event
  | start (r : Nat) (mode : Mode) (defers : Bool)
  | act (r : Nat) (act : Act)
  | restart

def Restores.step (s : Restores) : Event → Restores
  | .start r mode defers =>
    if (s.runs r).isSome then s
    else { s with runs := Function.update s.runs r (some (.admitted mode defers)) }
  | .act r act =>
    match s.runs r with
    | none => s
    | some run =>
      { runs := Function.update s.runs r (some (run.step s.nextService act))
        nextService := s.nextService + 1 }
  | .restart => { s with runs := fun r ↦ (s.runs r).map Run.restart }

def Restores.empty : Restores := ⟨fun _ ↦ none, 0⟩

end Temps.Backup.Restore
