import Temps.Lib.Machine
import Temps.Proxy.OnDemand

namespace Temps.Proxy.OnDemand

open Lib.Machine List Function

/-- How far a call that won its compare-and-set has come. The stops, and the starts, run at once, so
they end in any order; the readiness checks follow one another. -/
inductive Phase where
  | read
  | change (todo : List String)
  | check (todo : List String)
  | revert
  deriving DecidableEq

/-- A call of `sleep_environment`, or of `do_wake` by a proxy. -/
inductive Caller where
  | sleep
  | wake (proxy : ℕ)
  deriving DecidableEq

structure Call where
  caller : Caller
  phase : Phase
  deriving DecidableEq

/-- The world, the calls that won their compare-and-set, the proxies that have a waker, and those of
them whose waker has not come to the compare-and-set. -/
structure Calls where
  world : World
  active : List Call
  waking : List ℕ
  entered : List ℕ

inductive Act where
  | sleepCas
  | wakeEnter (proxy : ℕ)
  | wakeCas (proxy : ℕ)
  | read (caller : Caller)
  | change (call : Call) (id : String)
  | started (call : Call)
  | check (call : Call)
  | revert (call : Call)
  | finish (call : Call)

def Caller.proxies : Caller → List ℕ
  | .sleep => []
  | .wake proxy => [proxy]

namespace Calls

variable (m : Manager) (s : Calls)

def advance (call : Call) (phase : Phase) (world : World) : Calls :=
  { s with world := world, active := ⟨call.caller, phase⟩ :: s.active.erase call }

def leave (call : Call) (world : World) : Calls :=
  { s with
    world := world
    active := s.active.erase call
    waking := s.waking.filter fun proxy ↦ !call.caller.proxies.contains proxy }

def afterRead (call : Call) : Calls :=
  match s.world.environment.bind Environment.currentDeploymentId with
  | none => s.leave call s.world
  | some deploymentId =>
    match call.caller with
    | .sleep => s.advance call (.change (s.world.localIds m deploymentId)) s.world
    | .wake _ =>
      if (s.world.containersOf deploymentId).isEmpty then s.leave call s.world
      else if (s.world.localIds m deploymentId).isEmpty then s.advance call .revert s.world
      else s.advance call (.change (s.world.localIds m deploymentId)) s.world

def changed (caller : Caller) (id : String) : World :=
  match caller with
  | .sleep => s.world.stopContainer id
  | .wake _ => s.world.startContainer id

/-- One step of one of the calls; no operation fails, and a container that does not run does not
get ready. -/
def step : Act → Option Calls
  | .sleepCas =>
    if s.world.sleeping = some false then
      some { s with world := s.world.setSleeping true, active := ⟨.sleep, .read⟩ :: s.active }
    else some s
  | .wakeEnter proxy =>
    if proxy ∈ s.waking then none
    else some { s with waking := proxy :: s.waking, entered := proxy :: s.entered }
  | .wakeCas proxy =>
    if proxy ∈ s.entered then
      if s.world.sleeping = some true then
        some { s with
          world := s.world.setSleeping false
          active := ⟨.wake proxy, .read⟩ :: s.active
          entered := s.entered.erase proxy }
      else some { s with waking := s.waking.erase proxy, entered := s.entered.erase proxy }
    else none
  | .read caller =>
    if ⟨caller, .read⟩ ∈ s.active then some (s.afterRead m ⟨caller, .read⟩) else none
  | .change ⟨caller, phase⟩ id =>
    match phase with
    | .change todo =>
      if ⟨caller, .change todo⟩ ∈ s.active ∧ id ∈ todo then
        some (s.advance ⟨caller, .change todo⟩ (.change (todo.erase id)) (s.changed caller id))
      else none
    | _ => none
  | .started call =>
    match call with
    | ⟨.wake proxy, .change []⟩ =>
      if ⟨.wake proxy, .change []⟩ ∈ s.active then
        some (s.advance ⟨.wake proxy, .change []⟩ (.check (s.world.currentLocals m)) s.world)
      else none
    | _ => none
  | .check call =>
    match call with
    | ⟨caller, .check (id :: todo)⟩ =>
      if ⟨caller, .check (id :: todo)⟩ ∈ s.active ∧ s.world.running id = true then
        some (s.advance ⟨caller, .check (id :: todo)⟩ (.check todo) s.world)
      else none
    | _ => none
  | .revert call =>
    if call.phase = .revert ∧ call ∈ s.active then
      some (s.leave call (s.world.setSleeping true))
    else none
  | .finish call =>
    if (call = ⟨.sleep, .change []⟩ ∨ call.phase = .check []) ∧ call ∈ s.active then
      some (s.leave call s.world)
    else none

def Quiescent : Prop := s.active = [] ∧ s.waking = []

/-- A sleeping environment has no local container that runs, one that is awake has no other. -/
def Consistent (w : World) : Prop :=
  (w.sleeping = some true → ∀ id ∈ w.currentLocals m, w.running id = false) ∧
    (w.sleeping = some false → ∀ id ∈ w.currentLocals m, w.running id = true)

/-- The step is a compare-and-set that finds the value it looks for. -/
def Wins : Act → Prop
  | .sleepCas => s.world.sleeping = some false
  | .wakeCas proxy => proxy ∈ s.entered ∧ s.world.sleeping = some true
  | _ => False

/-- No call wins its compare-and-set while another winner is still at work. -/
def Exclusive (a : Act) : Prop := s.Wins a → s.active = []

end Calls

def idle (w : World) : Calls := ⟨w, [], [], []⟩

variable {m : Manager} {w : World} {s t : Calls}

@[simp] theorem currentLocals_setSleeping (flag : Bool) :
    (w.setSleeping flag).currentLocals m = w.currentLocals m := by
  cases h : w.environment with
  | none => simp [World.currentLocals, World.setSleeping, h]
  | some env =>
    simp only [World.currentLocals, World.setSleeping, h]
    rfl

namespace Calls

/-- What holds while one winner is at work: the flag is the one it set, and the containers that are
not yet as it wants them are still to be changed. -/
def Busy (m : Manager) (call : Call) (w : World) : Prop :=
  match call.caller, call.phase with
  | .sleep, .read => w.sleeping = some true
  | .sleep, .change todo =>
    w.sleeping = some true ∧ ∀ id ∈ w.currentLocals m, w.running id = true → id ∈ todo
  | .wake _, .read => w.sleeping = some false
  | .wake _, .change todo =>
    w.sleeping = some false ∧ ∀ id ∈ w.currentLocals m, w.running id = false → id ∈ todo
  | .wake _, .check _ => w.sleeping = some false ∧ ∀ id ∈ w.currentLocals m, w.running id = true
  | .wake _, .revert => w.currentLocals m = []
  | .sleep, _ => False

inductive Inv (m : Manager) (s : Calls) : Prop where
  | idle (hactive : s.active = []) (hc : Consistent m s.world)
  | busy (call : Call) (hactive : s.active = [call]) (hb : Busy m call s.world)

variable {call : Call}

theorem Inv.of_mem (h : Inv m s) (hmem : call ∈ s.active) :
    s.active = [call] ∧ Busy m call s.world := by
  cases h with
  | idle hactive => simp [hactive] at hmem
  | busy call' hactive hb =>
    obtain rfl : call = call' := by simpa [hactive] using hmem
    exact ⟨hactive, hb⟩

variable {world : World}

theorem inv_advance {phase : Phase} (hactive : s.active = [call])
    (hb : Busy m ⟨call.caller, phase⟩ world) : Inv m (s.advance call phase world) :=
  .busy ⟨call.caller, phase⟩ (by simp [advance, hactive]) hb

theorem inv_leave (hactive : s.active = [call])
    (hc : Consistent m world) : Inv m (s.leave call world) :=
  .idle (by simp [leave, hactive]) hc

theorem consistent_of_no_locals (h : w.currentLocals m = []) : Consistent m w := by
  simp [Consistent, h]

theorem sleep_done (hb : Busy m ⟨.sleep, .change []⟩ w) : Consistent m w := by
  obtain ⟨hflag, htodo⟩ := hb
  refine ⟨fun _ id hid ↦ ?_, fun h ↦ ?_⟩
  · by_contra hrun
    exact nomatch htodo id hid (by simpa using hrun)
  · rw [hflag] at h
    simp at h

variable {todo : List String}

theorem wake_done {proxy : ℕ} (hb : Busy m ⟨.wake proxy, .check todo⟩ w) : Consistent m w := by
  obtain ⟨hflag, hrun⟩ := hb
  refine ⟨fun h ↦ ?_, fun _ ↦ hrun⟩
  rw [hflag] at h
  simp at h

variable {caller : Caller}

theorem inv_afterRead (hactive : s.active = [⟨caller, .read⟩])
    (hb : Busy m ⟨caller, .read⟩ s.world) : Inv m (s.afterRead m ⟨caller, .read⟩) := by
  rw [afterRead]
  cases hd : s.world.environment.bind Environment.currentDeploymentId with
  | none => exact inv_leave hactive (consistent_of_no_locals (by simp [World.currentLocals, hd]))
  | some d =>
    have hlocals := locals_of_deployment (m := m) hd
    cases caller with
    | sleep => exact inv_advance hactive ⟨hb, fun id hid _ ↦ hlocals ▸ hid⟩
    | wake proxy =>
      dsimp only
      split
      case isTrue hnone =>
        refine inv_leave hactive (consistent_of_no_locals ?_)
        rw [hlocals, World.localIds, List.isEmpty_iff.mp hnone]
        rfl
      case isFalse =>
        split
        case isTrue hremote =>
          exact inv_advance hactive (hlocals.trans (List.isEmpty_iff.mp hremote))
        case isFalse => exact inv_advance hactive ⟨hb, fun id hid _ ↦ hlocals ▸ hid⟩

theorem busy_changed {id : String} (hb : Busy m ⟨caller, .change todo⟩ s.world) :
    Busy m ⟨caller, .change (todo.erase id)⟩ (s.changed caller id) := by
  cases caller with
  | sleep | wake =>
    obtain ⟨hflag, htodo⟩ := hb
    refine ⟨hflag, fun c hc hrun ↦ ?_⟩
    simp only [changed, World.stopContainer, World.startContainer, update_apply] at hrun
    split at hrun
    · simp at hrun
    · exact (mem_erase_of_ne ‹_›).mpr (htodo c hc hrun)

theorem Inv.waking (h : Inv m s) (waking entered : List ℕ) :
    Inv m { s with waking := waking, entered := entered } := by
  cases h with
  | idle hactive hc => exact .idle hactive hc
  | busy call hactive hb => exact .busy call hactive hb

theorem inv_step {a : Act} (h : Inv m s) (hex : s.Exclusive a) (hstep : s.step m a = some t) :
    Inv m t := by
  revert hex hstep
  fun_cases step m s a <;> rintro hex ⟨⟩
  case case1 hwins => exact .busy ⟨.sleep, .read⟩ (by simp [hex hwins]) (by simp [Busy, hwins])
  case case2 => exact h
  case case4 | case6 => exact h.waking _ _
  case case5 proxy hentered hwins =>
    exact .busy ⟨.wake proxy, .read⟩ (by simp [hex ⟨hentered, hwins⟩]) (by simp [Busy, hwins])
  case case8 caller hmem =>
    obtain ⟨hactive, hb⟩ := h.of_mem hmem
    exact inv_afterRead hactive hb
  case case10 caller id todo hmem =>
    obtain ⟨hactive, hb⟩ := h.of_mem hmem.1
    exact inv_advance hactive (busy_changed hb)
  case case13 proxy hmem =>
    obtain ⟨hactive, hflag, htodo⟩ := h.of_mem hmem
    refine inv_advance hactive ⟨hflag, fun id hid ↦ ?_⟩
    by_contra hrun
    exact nomatch htodo id hid (by simpa using hrun)
  case case16 caller id todo hmem =>
    obtain ⟨hactive, hb⟩ := h.of_mem hmem.1
    cases caller with
    | sleep => exact hb.elim
    | wake proxy => exact inv_advance hactive hb
  case case19 call hmem =>
    obtain ⟨hactive, hb⟩ := h.of_mem hmem.2
    obtain ⟨caller, phase⟩ := call
    obtain rfl : phase = .revert := hmem.1
    cases caller with
    | sleep => exact hb.elim
    | wake proxy =>
      exact inv_leave hactive (consistent_of_no_locals (by simpa [Busy] using hb))
  case case21 call hmem =>
    obtain ⟨hactive, hb⟩ := h.of_mem hmem.2
    obtain ⟨caller, phase⟩ := call
    rcases hmem.1 with heq | rfl
    · obtain ⟨rfl, rfl⟩ := Call.mk.inj heq
      exact inv_leave hactive (sleep_done hb)
    · cases caller with
      | sleep => exact hb.elim
      | wake proxy => exact inv_leave hactive (wake_done hb)

end Calls

/-- Sleep and wake calls leave the flag and the containers in agreement whenever all of them have
returned, as long as no call wins its compare-and-set while another winner is at work. -/
theorem quiescent_consistent (m : Manager) (w : World) (hw : Calls.Consistent m w)
    (hrun : Reaches (Calls.step m) Calls.Exclusive (idle w) s) (hq : s.Quiescent) :
    Calls.Consistent m s.world := by
  have hinv : Calls.Inv m s := hrun.invariant Calls.inv_step (.idle rfl hw)
  cases hinv with
  | idle _ hc => exact hc
  | busy call hactive => simp [hq.1] at hactive

def wakes : List Act :=
  [.wakeEnter 0, .wakeCas 0, .read (.wake 0), .change ⟨.wake 0, .change ["web", "worker"]⟩ "worker",
   .change ⟨.wake 0, .change ["web"]⟩ "web", .started ⟨.wake 0, .change []⟩,
   .check ⟨.wake 0, .check ["web", "worker"]⟩, .check ⟨.wake 0, .check ["worker"]⟩,
   .finish ⟨.wake 0, .check []⟩]

def stops : List Act :=
  [.read .sleep, .change ⟨.sleep, .change ["web", "worker"]⟩ "web",
   .change ⟨.sleep, .change ["worker"]⟩ "worker", .finish ⟨.sleep, .change []⟩]

def wakeThenSleep : List Act := wakes ++ .sleepCas :: stops

def exclusively (s : Calls) : Act → Bool
  | .sleepCas | .wakeCas _ => s.active.isEmpty
  | _ => true

theorem exclusive_of_passes (s : Calls) (a : Act) (h : exclusively s a) : s.Exclusive a := by
  intro hwins
  cases a with
  | sleepCas | wakeCas proxy => exact List.isEmpty_iff.mp h
  | _ => exact hwins.elim

theorem consistent_asleep : Calls.Consistent sampleManager (sampleWorld true (some 3) []) := by
  unfold Calls.Consistent
  decide

theorem consistent_awake :
    Calls.Consistent sampleManager (sampleWorld false (some 3) ["web", "worker"]) := by
  unfold Calls.Consistent
  decide

theorem quiescent_consistent_cycle :
    ((exec (Calls.step sampleManager) exclusively (idle (sampleWorld true (some 3) []))
      wakeThenSleep).any fun s ↦ s.active.isEmpty && s.waking.isEmpty) = true ∧
    ∀ s ∈ exec (Calls.step sampleManager) exclusively (idle (sampleWorld true (some 3) []))
      wakeThenSleep, s.Quiescent → Calls.Consistent sampleManager s.world :=
  ⟨by decide +kernel, fun _ hs hq ↦ quiescent_consistent sampleManager _ consistent_asleep
    (reaches_exec exclusive_of_passes hs) hq⟩

def wakeInsideSleep : List Act := .sleepCas :: wakes ++ stops

/-- All calls have returned, the environment is marked as awake, and nothing runs. -/
theorem wake_inside_sleep_is_inconsistent :
    Calls.Consistent sampleManager (sampleWorld false (some 3) ["web", "worker"]) ∧
    ((exec (Calls.step sampleManager) (fun _ _ ↦ true)
      (idle (sampleWorld false (some 3) ["web", "worker"])) wakeInsideSleep).any fun s ↦
        s.active.isEmpty && s.waking.isEmpty && s.world.sleeping == some false &&
          (s.world.currentLocals sampleManager == ["web", "worker"]) &&
          !s.world.running "web" && !s.world.running "worker") = true :=
  ⟨consistent_awake, by decide +kernel⟩

end Temps.Proxy.OnDemand
