import Mathlib.Algebra.Group.Nat.Defs
import Mathlib.Logic.Function.Basic

namespace Temps.Routes

/-- A published table of routes. Its load has the number `serial`, began to read the database when
it was at version `readAt`, and found no route if `empty`. -/
structure Table where
  serial : ℕ
  readAt : ℕ
  empty : Bool
  deriving DecidableEq

def Table.initial : Table := ⟨0, 0, true⟩

/-- Who waits for a claim of a route generation: the reload that holds the lock, or the background
retry. -/
inductive Owner where
  | reload
  | retry
  deriving DecidableEq

/-- How far `claim_and_commit` has come: the statement reads the highest stored ACK, and then
commits. -/
inductive ClaimPhase where
  | started
  | read (acked : ℕ)
  | committed (value : ℕ)
  deriving DecidableEq

/-- A claim after the in-memory generation `previous`. It has no owner once the caller gave up, or
died; the transaction can still commit. -/
structure Claim where
  owner : Option Owner
  previous : ℕ
  phase : ClaimPhase
  deriving DecidableEq

def i64Max : ℕ := 2 ^ 63 - 1

/-- `GREATEST(current, $1, <highest stored node ACK>) + 1`. -/
def claimValue (row previous acked : ℕ) : ℕ :=
  max (max row (min previous (i64Max - 1))) acked + 1

/-- How far the reload under `route_reload_lock` has come. It ends with `RouteTableUpdated` for
`event`; the initial load sends none. -/
inductive Reload where
  | idle
  | reading (event : Option (Option ℕ)) (readAt : ℕ)
  | published (event : Option (Option ℕ))
  | claiming (event : Option (Option ℕ))
  deriving DecidableEq

inductive Retry where
  | sleeping
  | claiming
  deriving DecidableEq

/-- A `RouteTableUpdated` event, with the version of the database that its load began to read. -/
structure Update where
  environment : Option ℕ
  readAt : ℕ
  deriving DecidableEq

/-- A `RouteTableUpdated` for the environment, or for none. -/
def concerns (environment : ℕ) (event : Option ℕ) : Bool :=
  event == some environment || event == none

structure Store where
  generation : ℕ
  table : Table
  deriving DecidableEq

def Store.fresh : Store := ⟨0, .initial⟩

/-- A request of `get_routes_snapshot`: the handler reads the generation first, and then the
table. -/
inductive Request where
  | waiting
  | generated (generation : ℕ)
  | built (generation : ℕ) (table : Table)
  deriving DecidableEq

inductive Tick where
  | idle
  | resending
  | polling (request : Request)
  | acking
  deriving DecidableEq

structure Worker where
  store : Store
  disk : Option Store
  lastAcked : Option ℕ
  tick : Tick

def Worker.disconnect (worker : Worker) : Worker :=
  match worker.tick with
  | .polling .waiting | .polling (.generated _) => { worker with tick := .idle }
  | _ => worker

/-- A call of `post_routes_ack`; `accepted` is the process whose handler found the generation not
above its own. -/
structure Ack where
  node : ℕ
  generation : ℕ
  accepted : Option ℕ
  deriving DecidableEq

/-- How far the completion of a deployment has come. `mark` is the version of the database with its
`current_deployment_id`. -/
inductive Barrier where
  | none
  | subscribed
  | promoted (mark : ℕ)
  | ready (mark : ℕ)
  | targeted (mark target : ℕ)
  | listed (mark target : ℕ) (nodes : List ℕ)
  | passed (mark : ℕ) (nodes : List ℕ)
  | failed
  deriving DecidableEq

/-- The database, the authoritative process, the processes that number locally, the workers, and one
deployment that waits for its routes. The last five fields only record what happened: the committed
claims, the published generations with the load they were published for, the tables that loads
published, the stored ACKs with the process that accepted them, and the version that the table had
read when a value was committed. -/
structure System where
  version : ℕ
  currentDeployment : ℕ
  row : ℕ
  stored : List (ℕ × ℕ)
  active : List ℕ
  epoch : ℕ
  counter : ℕ
  loaded : Bool
  table : Table
  reload : Reload
  retry : Option Retry
  claims : List Claim
  outbox : List Update
  locals : ℕ → ℕ
  workers : ℕ → Worker
  acks : List Ack
  barrier : Barrier
  inbox : List Update
  committed : List ℕ
  published : List (ℕ × ℕ)
  loads : List Table
  ackLog : List (ℕ × ℕ)
  floor : ℕ → ℕ

inductive LoadAct where
  | begin (event : Option (Option ℕ))
  | fail
  | publish (empty : Bool)
  | claim
  | retry
  | send (update : Update)

inductive ClaimAct where
  | read
  | commit
  | adopt
  | fail

inductive WorkerAct where
  | tick
  | acked (ok : Bool)
  | generation
  | build
  | lose
  | deliver (persisted : Bool)
  | restart

inductive AckAct where
  | judge
  | store
  | drop

inductive BarrierAct where
  | subscribe
  | promote
  | receive (readable : Bool)
  | lag
  | readTarget
  | listNodes
  | check

inductive Act where
  | write (deployment : Option ℕ)
  | nodes (active : List ℕ)
  | load (act : LoadAct)
  | claim (claim : Claim) (act : ClaimAct)
  | worker (node : ℕ) (act : WorkerAct)
  | ack (ack : Ack) (act : AckAct)
  | barrier (act : BarrierAct)
  | localAdvance (process : ℕ)
  | restart

namespace System

variable (s : System)

def hasLoaded : Bool := s.loaded || 0 < s.counter

/-- `COALESCE(MAX(applied_generation), 0)`. -/
def highestAck : ℕ := (s.stored.map Prod.snd).foldl max 0

/-- The steps of `load_routes`, of the retry task, and the event after a load. -/
def loadStep : LoadAct → Option System
  | .begin event =>
    match s.reload with
    | .idle => some { s with reload := .reading event s.version }
    | _ => none
  | .fail =>
    match s.reload with
    | .reading _ _ => some { s with reload := .idle }
    | _ => none
  | .publish empty =>
    match s.reload with
    | .reading event readAt =>
      some { s with
        table := ⟨s.loads.length + 1, readAt, empty⟩
        loads := ⟨s.loads.length + 1, readAt, empty⟩ :: s.loads
        reload := .published event }
    | _ => none
  | .claim =>
    match s.reload with
    | .published event =>
      some { s with
        loaded := true
        reload := .claiming event
        claims := ⟨some .reload, s.counter, .started⟩ :: s.claims }
    | _ => none
  | .retry =>
    match s.retry with
    | some .sleeping =>
      some { s with
        retry := some .claiming
        claims := ⟨some .retry, s.counter, .started⟩ :: s.claims }
    | _ => none
  | .send update =>
    if update ∈ s.outbox then
      some { s with
        outbox := s.outbox.erase update
        inbox := if s.barrier = .none then s.inbox else s.inbox ++ [update] }
    else none

/-- `adopt_claimed_generation`. -/
def adopt (value : ℕ) : System :=
  { s with
    counter := max s.counter value
    published :=
      if s.counter < value then (value, s.table.serial) :: s.published else s.published }

def succeed : Owner → System
  | .reload =>
    match s.reload with
    | .claiming (some environment) =>
      { s with reload := .idle, outbox := ⟨environment, s.table.readAt⟩ :: s.outbox }
    | _ => { s with reload := .idle }
  | .retry => { s with retry := none }

def giveUp : Owner → System
  | .reload => { s with reload := .idle, retry := some (s.retry.getD .sleeping) }
  | .retry => { s with retry := some .sleeping }

def withClaim (old new : Claim) : System := { s with claims := new :: s.claims.erase old }

def dropClaim (claim : Claim) : System := { s with claims := s.claims.erase claim }

def commitClaim (claim : Claim) (value : ℕ) : System :=
  { s.withClaim claim { claim with phase := .committed value } with
    row := value
    committed := value :: s.committed
    floor := Function.update s.floor value s.table.readAt }

def claimStep (claim : Claim) : ClaimAct → Option System
  | .read =>
    match claim.phase with
    | .started => some (s.withClaim claim { claim with phase := .read s.highestAck })
    | _ => none
  | .commit =>
    match claim.phase with
    | .read acked =>
      if claimValue s.row claim.previous acked ≤ i64Max then
        some (s.commitClaim claim (claimValue s.row claim.previous acked))
      else none
    | _ => none
  | .adopt =>
    match claim.owner, claim.phase with
    | some owner, .committed value =>
      some (((s.dropClaim claim).adopt value).succeed owner)
    | _, _ => none
  | .fail =>
    match claim.owner with
    | some owner => some ((s.withClaim claim { claim with owner := none }).giveUp owner)
    | none => none

def setWorker (node : ℕ) (worker : Worker) : System :=
  { s with workers := Function.update s.workers node worker }

def replacement (node : ℕ) : Option Store :=
  match (s.workers node).tick with
  | .polling (.built generation table) =>
    if generation ≠ (s.workers node).store.generation ∨ (s.workers node).store.table.empty then
      some ⟨generation, table⟩
    else none
  | _ => none

def sendAck (node : ℕ) (worker : Worker) (tick : Tick) : System :=
  { s.setWorker node { worker with tick := tick } with
    acks := ⟨node, worker.store.generation, none⟩ :: s.acks }

def workerStep (node : ℕ) : WorkerAct → Option System
  | .tick =>
    match (s.workers node).tick with
    | .idle =>
      if (s.workers node).store.generation ≠ 0 ∧
          (s.workers node).lastAcked ≠ some (s.workers node).store.generation then
        some (s.sendAck node (s.workers node) .resending)
      else some (s.setWorker node { s.workers node with tick := .polling .waiting })
    | _ => none
  | .acked ok =>
    match (s.workers node).tick with
    | .resending =>
      some (s.setWorker node { s.workers node with
        lastAcked :=
          if ok then some (s.workers node).store.generation else (s.workers node).lastAcked
        tick := .polling .waiting })
    | .acking =>
      some (s.setWorker node { s.workers node with
        lastAcked :=
          if ok then some (s.workers node).store.generation else (s.workers node).lastAcked
        tick := .idle })
    | _ => none
  | .generation =>
    match (s.workers node).tick with
    | .polling .waiting =>
      some (s.setWorker node { s.workers node with tick := .polling (.generated s.counter) })
    | _ => none
  | .build =>
    match (s.workers node).tick with
    | .polling (.generated generation) =>
      some (s.setWorker node
        { s.workers node with tick := .polling (.built generation s.table) })
    | _ => none
  | .lose =>
    match (s.workers node).tick with
    | .polling _ => some (s.setWorker node { s.workers node with tick := .idle })
    | _ => none
  | .deliver persisted =>
    match (s.workers node).tick with
    | .polling (.built _ _) =>
      match s.replacement node with
      | some store =>
        some (s.sendAck node { s.workers node with
          store := store
          disk := if persisted then some store else (s.workers node).disk } .acking)
      | none => some (s.setWorker node { s.workers node with tick := .idle })
    | _ => none
  | .restart =>
    some (s.setWorker node { s.workers node with
      store := (s.workers node).disk.getD .fresh
      lastAcked := none
      tick := .idle })

def ackStep (ack : Ack) : AckAct → Option System
  | .judge =>
    match ack.accepted with
    | none =>
      if ack.generation ≤ s.counter then
        some { s with acks := { ack with accepted := some s.epoch } :: s.acks.erase ack }
      else some { s with acks := s.acks.erase ack }
    | some _ => none
  | .store =>
    match ack.accepted with
    | some epoch =>
      some { s with
        acks := s.acks.erase ack
        stored := (ack.node, ack.generation) :: s.stored.filter (·.1 ≠ ack.node)
        ackLog := (epoch, ack.generation) :: s.ackLog }
    | none => none
  | .drop => some { s with acks := s.acks.erase ack }

def storedOf (node : ℕ) : Option ℕ := (s.stored.find? (·.1 == node)).map Prod.snd

end System

namespace System

variable (environment deployment : ℕ) (s : System)

/-- `verify_environment_deployment`, if the row can be read: a deployment that was overtaken fails
on an event for its environment, and waits on after one for none. -/
def verify (mark : ℕ) (update : Update) : Barrier :=
  if s.currentDeployment = deployment then .ready mark
  else if update.environment = some environment then .failed
  else .promoted mark

/-- The steps of a deployment from its subscription to the end of `wait_for_worker_apply`. -/
def barrierStep : BarrierAct → Option System
  | .subscribe =>
    match s.barrier with
    | .none => some { s with barrier := .subscribed, inbox := [] }
    | _ => none
  | .promote =>
    match s.barrier with
    | .subscribed =>
      some { s with
        version := s.version + 1
        currentDeployment := deployment
        barrier := .promoted (s.version + 1) }
    | _ => none
  | .receive readable =>
    match s.barrier, s.inbox with
    | .promoted mark, update :: rest =>
      some { s with
        inbox := rest
        barrier :=
          if concerns environment update.environment && readable then
            s.verify environment deployment mark update
          else .promoted mark }
    | _, _ => none
  | .lag =>
    match s.inbox with
    | _ :: rest => some { s with inbox := rest }
    | [] => none
  | .readTarget =>
    match s.barrier with
    | .ready mark => some { s with barrier := .targeted mark s.row }
    | _ => none
  | .listNodes =>
    match s.barrier with
    | .targeted mark target => some { s with barrier := .listed mark target s.active }
    | _ => none
  | .check =>
    match s.barrier with
    | .listed mark target nodes =>
      if nodes.all fun node ↦ (s.storedOf node).any (target ≤ ·) then
        some { s with barrier := .passed mark nodes }
      else none
    | _ => none

/-- The control plane dies and starts again: the table is the initial one, its handlers and its
claims have nobody behind them, and what they sent goes on. -/
def restarted : System :=
  { s with
    epoch := s.epoch + 1
    counter := 0
    loaded := false
    table := .initial
    reload := .idle
    retry := none
    claims := s.claims.map fun claim ↦ { claim with owner := none }
    outbox := []
    workers := fun node ↦ (s.workers node).disconnect
    barrier := .none
    inbox := [] }

def step : Act → Option System
  | .write none => some { s with version := s.version + 1 }
  | .write (some other) => some { s with version := s.version + 1, currentDeployment := other }
  | .nodes active => some { s with active := active }
  | .load act => s.loadStep act
  | .claim claim act => if claim ∈ s.claims then s.claimStep claim act else none
  | .worker node act => s.workerStep node act
  | .ack ack act => if ack ∈ s.acks then s.ackStep ack act else none
  | .barrier act => s.barrierStep environment deployment act
  | .localAdvance process =>
    some { s with locals := Function.update s.locals process (s.locals process + 1) }
  | .restart => some s.restarted

end System

/-- What earlier processes left: the database, and the snapshots of the workers. -/
structure Origin where
  version : ℕ
  currentDeployment : ℕ
  row : ℕ
  stored : List (ℕ × ℕ)
  active : List ℕ
  stores : ℕ → Store
  disks : ℕ → Option Store

def Origin.system (origin : Origin) : System where
  version := origin.version
  currentDeployment := origin.currentDeployment
  row := origin.row
  stored := origin.stored
  active := origin.active
  epoch := 1
  counter := 0
  loaded := false
  table := .initial
  reload := .idle
  retry := none
  claims := []
  outbox := []
  locals := fun _ ↦ 0
  workers := fun node ↦ ⟨origin.stores node, origin.disks node, none, .idle⟩
  acks := []
  barrier := .none
  inbox := []
  committed := []
  published := []
  loads := []
  ackLog := origin.stored.map fun entry ↦ (0, entry.2)
  floor := fun _ ↦ 0

/-- An origin whose stored ACKs and worker generations are not above the row. -/
structure Start extends Origin where
  stored_le : ∀ entry ∈ stored, entry.2 ≤ row
  stores_le : ∀ node, (stores node).generation ≤ row

def sampleStart : Start where
  version := 10
  currentDeployment := 1
  row := 5
  stored := [(1, 5)]
  active := [1]
  stores := fun _ ↦ ⟨5, 5, 9, false⟩
  disks := fun _ ↦ some ⟨5, 5, 9, false⟩
  stored_le := by simp
  stores_le := by simp

def reloadActs (event : Option (Option ℕ)) (previous acked value : ℕ) : List Act :=
  [.load (.begin event), .load (.publish false), .load .claim,
   .claim ⟨some .reload, previous, .started⟩ .read,
   .claim ⟨some .reload, previous, .read acked⟩ .commit,
   .claim ⟨some .reload, previous, .committed value⟩ .adopt]

/-- The first round of a worker that serves `old`: its ACK of that is lost, it applies the current
generation, and its ACK of it is stored. -/
def pollActs (value old : ℕ) : List Act :=
  [.worker 1 .tick, .ack ⟨1, old, none⟩ .drop, .worker 1 (.acked false), .worker 1 .generation,
   .worker 1 .build, .worker 1 (.deliver true), .ack ⟨1, value, none⟩ .judge,
   .ack ⟨1, value, some 1⟩ .store, .worker 1 (.acked true)]

end Temps.Routes
