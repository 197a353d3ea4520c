import Mathlib.Data.Nat.Notation

namespace Temps.Core.Workflow

inductive WorkflowError
  | jobExecutionFailed (message : String)
  | jobValidationFailed (message : String)
  | dependencyCycleDetected (message : String)
  | jobNotFound (message : String)
  | workflowCancelled
  | buildCancelled
  | ioError (message : String)
  | serializationError (message : String)
  | other (message : String)
  | invalidArchiveEntry (path reason : String)
  | archiveTooLarge (limitBytes : ℕ)
  | invalidBundlePath (path reason : String)
  | crossNodeServiceUnreachable (nodeName : String) (blockerCount : ℕ) (details : String)
  | localWorkloadsDisabled (message : String)
  | dockerSocketNotMounted (node projectSlug env : String)
  | dockerSocketDeployRequiresAdmin (projectSlug : String)
  deriving DecidableEq

def dockerSocketProjectsEnv : String := "TEMPS_DOCKER_SOCKET_PROJECTS"

def grantedProjectDeployReason (slug : String) : String :=
  "Project '" ++ slug ++ "' is declared in " ++ dockerSocketProjectsEnv ++
  " on this control plane (ADR 045), so its containers receive `/var/run/docker.sock` and are " ++
  "root-equivalent on the host that runs them. Deploying it is therefore restricted to instance " ++
  "admins — holding deploy permission on the project is not enough, because the deployed image " ++
  "and command would run as host root. Ask an admin to deploy it, or remove the slug from " ++
  dockerSocketProjectsEnv ++
  " and restart the control plane if it should no longer hold host Docker access."

def WorkflowError.display : WorkflowError → String
  | jobExecutionFailed m => "Job execution failed: " ++ m
  | jobValidationFailed m => "Job validation failed: " ++ m
  | dependencyCycleDetected m => "Dependency cycle detected: " ++ m
  | jobNotFound m => "Job not found: " ++ m
  | workflowCancelled => "Workflow was cancelled"
  | buildCancelled => "Build was cancelled"
  | ioError m => "IO error: " ++ m
  | serializationError m => "Serialization error: " ++ m
  | other m => "Other error: " ++ m
  | invalidArchiveEntry path reason => "Invalid archive entry '" ++ path ++ "': " ++ reason
  | archiveTooLarge limitBytes =>
    "Archive exceeds maximum allowed decompressed size of " ++ toString limitBytes ++ " bytes"
  | invalidBundlePath path reason => "Invalid bundle path '" ++ path ++ "': " ++ reason
  | crossNodeServiceUnreachable nodeName blockerCount details =>
    "Replica scheduled on node '" ++ nodeName ++ "' cannot reach " ++ toString blockerCount ++
    " linked service(s) of this project: " ++ details
  | localWorkloadsDisabled m => m
  | dockerSocketNotMounted node projectSlug env =>
    "Deployment of project '" ++ projectSlug ++ "' was placed on host '" ++ node ++
    "' because it requires host Docker access (ADR 045), but that host reported it did not mount " ++
    "/var/run/docker.sock. Set " ++ env ++ "=" ++ projectSlug ++ " on '" ++ node ++
    "' — `temps agent` on a worker node, `temps serve` on the control plane — and restart it, " ++
    "then redeploy"
  | dockerSocketDeployRequiresAdmin projectSlug => grantedProjectDeployReason projectSlug

def WorkflowError.detail : WorkflowError → String
  | jobExecutionFailed m => m
  | e => e.display

inductive JobStatus
  | pending | waiting | running | success | failure | cancelled | skipped
  deriving DecidableEq

def JobStatus.terminal : JobStatus → Bool
  | success | failure | cancelled | skipped => true
  | pending | waiting | running => false

/-- A hash map seen through its lookups. -/
abbrev Map (K V : Type) := K → Option V

namespace Map

variable {K V : Type}

def empty : Map K V := fun _ ↦ none

def extend (m n : Map K V) : Map K V := fun k ↦ (n k).or (m k)

def insert [DecidableEq K] (m : Map K V) (k : K) (v : V) : Map K V :=
  fun k' ↦ if k' = k then some v else m k'

end Map

/-- The context that flows between jobs; `V` is the type of JSON values. -/
@[ext] structure WorkflowContext (V : Type) where
  workflowRunId : String
  deploymentId : Int
  projectId : Int
  environmentId : Int
  vars : Map String V
  outputs : Map String (Map String V)
  artifacts : Map String (Map String String)
  workDir : Option String

variable {V : Type}

def WorkflowContext.new (workflowRunId : String) (deploymentId projectId environmentId : Int) :
    WorkflowContext V where
  workflowRunId := workflowRunId
  deploymentId := deploymentId
  projectId := projectId
  environmentId := environmentId
  vars := Map.empty
  outputs := Map.empty
  artifacts := Map.empty
  workDir := none

structure JobResult (V : Type) where
  context : WorkflowContext V
  status : JobStatus
  message : Option String
  logs : List String

def JobResult.failure (context : WorkflowContext V) (message : String) : JobResult V :=
  ⟨context, .failure, some message, []⟩

def JobResult.cancelled (context : WorkflowContext V) : JobResult V :=
  ⟨context, .cancelled, some "Job was cancelled", []⟩

/-- What a job's future can come to: it returns, it returns an error, or it panics. -/
inductive Completion (V : Type)
  | returned (result : JobResult V)
  | failed (error : WorkflowError)
  | panicked (joinError : String)

/-- A workflow task through its observable behaviour. Every job runs at most once in a workflow,
so a function of the context it is given covers every outcome it can have. -/
structure WorkflowTask (V : Type) where
  jobId : String
  name : String
  dependsOn : List String
  shouldSkip : WorkflowContext V → Except WorkflowError Bool
  validatePrerequisites : WorkflowContext V → Except WorkflowError Unit
  executeWithCancellation : WorkflowContext V → Completion V

structure JobConfig (V : Type) where
  job : WorkflowTask V
  required : Bool
  dependenciesOverride : Option (List String)

structure WorkflowConfig (V : Type) where
  workflowRunId : String
  deploymentId : Int
  projectId : Int
  environmentId : Int
  initialContext : Map String V
  jobs : List (JobConfig V)
  continueOnFailure : Bool

/-- The provider's answer to the poll before each batch. -/
abbrev CancellationProvider := ℕ → Except WorkflowError Bool

end Temps.Core.Workflow
