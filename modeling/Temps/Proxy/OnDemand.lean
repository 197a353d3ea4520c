import Mathlib.Data.Int.Notation
import Mathlib.Data.List.Basic

namespace Temps.Proxy.OnDemand

structure Environment where
  sleeping : Bool
  currentDeploymentId : Option ℕ

/-- A row of `deployment_containers`. -/
structure ContainerRow where
  containerId : String
  deploymentId : ℕ
  nodeId : Option ℕ
  deleted : Bool

structure World where
  environment : Option Environment
  containers : List ContainerRow
  running : String → Bool

inductive OnDemandError where
  | database
  | containerOperation (containerId reason : String)
  | wakeTimeout (environmentId timeoutSecs : ℤ)
  | noDeployment (environmentId : ℤ)
  | notFound (environmentId : ℤ)
  deriving DecidableEq

structure Manager where
  localNodeId : Option ℕ
  environmentId : ℤ
  wakeTimeoutSeconds : ℤ

def Manager.isLocalContainer (m : Manager) (nodeId : Option ℕ) : Bool :=
  match nodeId with
  | none => true
  | some id => m.localNodeId = some id

namespace World

variable (w : World)

def sleeping : Option Bool := w.environment.map Environment.sleeping

/-- `UPDATE environments SET sleeping = … WHERE id = $1`. -/
def setSleeping (flag : Bool) : World :=
  { w with environment := w.environment.map fun env ↦ { env with sleeping := flag } }

def stopContainer (id : String) : World := { w with running := Function.update w.running id false }

def startContainer (id : String) : World := { w with running := Function.update w.running id true }

def stopAll (ids : List String) : World := ids.foldl stopContainer w

def startAll (ids : List String) : World := ids.foldl startContainer w

def containersOf (deploymentId : ℕ) : List ContainerRow :=
  w.containers.filter fun c ↦ c.deploymentId == deploymentId && !c.deleted

def localIds (m : Manager) (deploymentId : ℕ) : List String :=
  ((w.containersOf deploymentId).filter fun c ↦ m.isLocalContainer c.nodeId).map
    ContainerRow.containerId

def currentLocals (m : Manager) : List String :=
  match w.environment.bind Environment.currentDeploymentId with
  | some deploymentId => w.localIds m deploymentId
  | none => []

end World

/-- The operations of a call that may fail; those that undo its own changes do not. -/
inductive Point where
  | flag
  | environment
  | containers
  | stop (id : String)
  | start (id : String)
  | ready
  deriving DecidableEq

variable (m : Manager) (failing : Option Point)

def failedStops (failed total : ℕ) : OnDemandError :=
  .containerOperation "multiple" <|
    "Failed to stop " ++ toString failed ++ "/" ++ toString total ++ " containers during sleep"

/-- The part of `sleep_environment` after the containers are known. -/
def stopLocals (w : World) (ids : List String) : World × Except OnDemandError Bool :=
  let failed := ids.filter fun id ↦ failing = some (.stop id)
  let stopped := w.stopAll (ids.filter fun id ↦ failing ≠ some (.stop id))
  if failed.isEmpty then (stopped, .ok true)
  else (stopped.setSleeping false, .error (failedStops failed.length ids.length))

/-- `sleep_environment`, running alone, with at most one failing operation. -/
def sleepEnvironment (w : World) : World × Except OnDemandError Bool :=
  if failing = some .flag then (w, .error .database)
  else if w.sleeping ≠ some false then (w, .ok false)
  else
    let w := w.setSleeping true
    if failing = some .environment then (w, .error .database)
    else match w.environment with
      | none => (w, .error (.notFound m.environmentId))
      | some env => match env.currentDeploymentId with
        | none => (w, .ok false)
        | some deploymentId =>
          if failing = some .containers then (w, .error .database)
          else stopLocals failing w (w.localIds m deploymentId)

/-- The part of `do_wake` that starts the local containers and waits for them. -/
def startLocals (w : World) (ids : List String) : World × Except OnDemandError Unit :=
  let failed := ids.filter fun id ↦ failing = some (.start id)
  let started := ids.filter fun id ↦ failing ≠ some (.start id)
  let running := w.startAll started
  if !failed.isEmpty then
    ((running.stopAll started).setSleeping true,
      .error (.containerOperation "multiple" <|
        "Failed to start " ++ toString failed.length ++ "/" ++
          toString (started.length + failed.length) ++ " containers"))
  else if failing = some .ready ∧ started ≠ [] then
    ((running.stopAll started).setSleeping true,
      .error (.wakeTimeout m.environmentId m.wakeTimeoutSeconds))
  else (running, .ok ())

/-- `do_wake`, called by a `wake_environment` that finds no other waker. -/
def doWake (w : World) : World × Except OnDemandError Unit :=
  if failing = some .flag then (w, .error .database)
  else if w.sleeping ≠ some true then (w, .ok ())
  else
    let w := w.setSleeping false
    if failing = some .environment then (w, .error .database)
    else match w.environment with
      | none => (w, .error (.notFound m.environmentId))
      | some env => match env.currentDeploymentId with
        | none => (w, .error (.noDeployment m.environmentId))
        | some deploymentId =>
          if failing = some .containers then (w, .error .database)
          else if (w.containersOf deploymentId).isEmpty then (w, .ok ())
          else if (w.localIds m deploymentId).isEmpty then
            (w.setSleeping true,
              .error (.containerOperation "remote" <|
                "All " ++ toString (w.containersOf deploymentId).length ++
                  " container(s) are on remote nodes; remote wake is not supported"))
          else startLocals m failing w (w.localIds m deploymentId)

inductive Operation where
  | sleep
  | wake
  deriving DecidableEq

def Operation.finds : Operation → Bool
  | .sleep => false
  | .wake => true

def run : Operation → World → World × Except OnDemandError Bool
  | .sleep, w => sleepEnvironment m failing w
  | .wake, w => ((doWake m failing w).1, (doWake m failing w).2.map fun _ ↦ true)

section Lemmas

variable {m failing} {w : World} {ids : List String}

@[simp] theorem running_setSleeping (flag : Bool) : (w.setSleeping flag).running = w.running := rfl

@[simp] theorem localIds_setSleeping (flag : Bool) (d : ℕ) :
    (w.setSleeping flag).localIds m d = w.localIds m d := rfl

@[simp] theorem containersOf_setSleeping (flag : Bool) (d : ℕ) :
    (w.setSleeping flag).containersOf d = w.containersOf d := rfl

@[simp] theorem sleeping_setSleeping (flag : Bool) :
    (w.setSleeping flag).sleeping = w.sleeping.map fun _ ↦ flag := by
  simp only [World.sleeping, World.setSleeping, Option.map_map]
  rfl

theorem locals_of_deployment {d : ℕ}
    (hd : w.environment.bind Environment.currentDeploymentId = some d) :
    w.currentLocals m = w.localIds m d := by
  simp only [World.currentLocals, hd]

theorem environment_foldl {op : World → String → World}
    (hop : ∀ w id, (op w id).environment = w.environment) :
    (ids.foldl op w).environment = w.environment := by
  induction ids generalizing w with
  | nil => rfl
  | cons id ids ih => rw [List.foldl_cons, ih, hop]

@[simp] theorem sleeping_stopAll : (w.stopAll ids).sleeping = w.sleeping :=
  congrArg (Option.map _) (environment_foldl fun _ _ ↦ rfl)

@[simp] theorem sleeping_startAll : (w.startAll ids).sleeping = w.sleeping :=
  congrArg (Option.map _) (environment_foldl fun _ _ ↦ rfl)

theorem running_foldl (flag : Bool) (c : String) :
    (ids.foldl (fun w id ↦ { w with running := Function.update w.running id flag }) w).running c =
      if c ∈ ids then flag else w.running c := by
  induction ids generalizing w with
  | nil => simp
  | cons id ids ih =>
    rw [List.foldl_cons, ih]
    by_cases hc : c = id <;> by_cases hmem : c ∈ ids <;> simp [hc]

theorem running_stopAll (c : String) :
    (w.stopAll ids).running c = if c ∈ ids then false else w.running c := running_foldl false c

theorem running_startAll (c : String) :
    (w.startAll ids).running c = if c ∈ ids then true else w.running c := running_foldl true c

end Lemmas

def Restored (w after : World) : Prop :=
  after.sleeping = w.sleeping ∧ ∀ c ∈ w.currentLocals m, after.running c = w.running c

/-- A call that does not do its work changes nothing. -/
def NoEffect (op : Operation) (w : World) : Prop :=
  (run m failing op w).2 ≠ .ok true → Restored m w (run m failing op w).1

/-- When a call that does not do its work undoes what it did: if the flag is its to set and the
compare-and-set succeeds, the environment has a deployment, both reads succeed, and when a container
cannot be stopped or started, or does not get ready, none of the others was running. -/
def Compensated (op : Operation) (w : World) : Prop :=
  w.sleeping = some op.finds → failing ≠ some .flag →
    failing ≠ some .environment ∧ w.environment.bind Environment.currentDeploymentId ≠ none ∧
    failing ≠ some .containers ∧
    match op with
    | .sleep => ∀ id ∈ w.currentLocals m, failing = some (.stop id) →
        ∀ c ∈ w.currentLocals m, c ≠ id → w.running c = false
    | .wake => (∀ id ∈ w.currentLocals m, failing = some (.start id) →
        ∀ c ∈ w.currentLocals m, c ≠ id → w.running c = false) ∧
      (failing = some .ready → ∀ c ∈ w.currentLocals m, w.running c = false)

def sampleManager : Manager := ⟨none, 7, 30⟩

def sampleWorld (sleeping : Bool) (deployment : Option ℕ) (running : List String) : World where
  environment := some ⟨sleeping, deployment⟩
  containers := [⟨"web", 3, none, false⟩, ⟨"worker", 3, none, false⟩, ⟨"old", 2, none, true⟩]
  running id := running.contains id

end Temps.Proxy.OnDemand
