import Mathlib.Logic.Function.Basic
import Temps.Lib.Machine

namespace Temps.Auth

inductive Status
  | pending
  | approved
  | denied
deriving DecidableEq

/-- The row of `cli_login_sessions`. The stored ciphertext stands for the key it decrypts to. -/
structure Session where
  status : Status
  userId : Option Nat
  apiKeyPlaintext : Option Nat
  lastPolledAt : Option Nat
  expiresAt : Nat

/-- Who asks for an approval, with what the permission, step-up and role checks say about them. -/
structure AuthContext where
  isSession : Bool
  mayCreateKeys : Bool
  recentMfa : Bool
  user : Option Nat
  primaryRole : Option Nat
  withinCeiling : Bool

def minPollSpacingMs : Nat := 750

def Session.polledTooSoon (session : Session) (now : Nat) : Bool :=
  session.lastPolledAt.any fun last ↦ last ≤ now && now - last < minPollSpacingMs

def Session.resolvable (session : Session) (now : Nat) : Bool :=
  !(session.expiresAt < now) && session.status == .pending

def mayApprove (auth : AuthContext) : Bool :=
  auth.isSession && auth.mayCreateKeys && auth.recentMfa && auth.user.isSome

/-- An approval that got past the checks, with the row it read and the time it read it. -/
structure Approval where
  auth : AuthContext
  seen : Session
  now : Nat

def Approval.passes (a : Approval) : Bool :=
  a.seen.resolvable a.now && a.auth.primaryRole.isSome && a.auth.withinCeiling

/-- Where a request stands: what it does next and what it holds in its variables. -/
inductive Task
  | pollLoad (started : Nat)
  | pollStamp (started : Nat) (session : Session)
  | deliver (started : Nat)
  | approveLoad (auth : AuthContext)
  | approveMint (approval : Approval)
  | approveWrite (approval : Approval) (key : Nat)
  | denyLoad
  | denyWrite

structure Delivery where
  key : Nat
  user : Nat
  started : Nat
  afterDenial : Bool

/-- One device session with the requests on it, the keys minted for it and the keys that its
polls returned. -/
structure Device where
  row : Session
  clock : Nat
  tasks : Nat → Option Task
  minted : List (Nat × Approval)
  returned : List Delivery
  denied : Bool

/-- A database call is answered, fails, or takes effect while its answer is lost. -/
inductive Reply
  | ok
  | failed
  | lost
deriving DecidableEq

inductive Act
  | wait (ms : Nat)
  | poll (r : Nat)
  | approve (r : Nat) (auth : AuthContext)
  | deny (r : Nat) (user : Option Nat)
  | advance (r : Nat) (reply : Reply)

namespace Device

variable (d : Device)

def put (r : Nat) (task : Task) : Device :=
  { d with tasks := Function.update d.tasks r (some task) }

def finish (r : Nat) : Device := { d with tasks := Function.update d.tasks r none }

def setRow (row : Session) : Device := { d with row }

/-- The transaction of `deliver_approved`: the row is locked, so its read and its write are one. -/
def deliverApproved (r started : Nat) (reply : Reply) : Device :=
  match d.row.apiKeyPlaintext, d.row.userId, reply with
  | some key, some user, .ok =>
    let cleared := (d.setRow { d.row with apiKeyPlaintext := none }).finish r
    { cleared with returned := ⟨key, user, started, d.denied⟩ :: d.returned }
  | some _, some _, .lost => (d.setRow { d.row with apiKeyPlaintext := none }).finish r
  | _, _, _ => d.finish r

def createApiKey (a : Approval) : Device := { d with minted := (d.minted.length, a) :: d.minted }

def advanceTask (r : Nat) (reply : Reply) : Task → Device
  | .pollLoad started =>
    if reply = .ok ∧ !(d.row.expiresAt < started) ∧ !d.row.polledTooSoon started then
      d.put r (.pollStamp started d.row)
    else d.finish r
  | .pollStamp started session =>
    -- a stamp that fails is only logged
    let stamped := if reply = .failed then d
      else d.setRow { d.row with lastPolledAt := some started }
    if session.status = .approved then stamped.put r (.deliver started) else stamped.finish r
  | .deliver started => d.deliverApproved r started reply
  | .approveLoad auth =>
    if reply = .ok ∧ Approval.passes ⟨auth, d.row, d.clock⟩ then
      d.put r (.approveMint ⟨auth, d.row, d.clock⟩)
    else d.finish r
  | .approveMint a =>
    match reply with
    | .ok => (d.createApiKey a).put r (.approveWrite a d.minted.length)
    | .lost => (d.createApiKey a).finish r
    | .failed => d.finish r
  | .approveWrite a key =>
    if reply = .failed then d.finish r
    else (d.setRow { d.row with status := .approved, userId := a.auth.user,
                                apiKeyPlaintext := some key }).finish r
  | .denyLoad =>
    if reply = .ok ∧ d.row.resolvable d.clock then d.put r .denyWrite else d.finish r
  | .denyWrite =>
    if reply = .failed then d.finish r
    else
      let written := (d.setRow { d.row with status := .denied }).finish r
      { written with denied := d.denied || reply = .ok }

def step : Act → Device
  | .wait ms => { d with clock := d.clock + ms }
  | .poll r => if (d.tasks r).isSome then d else d.put r (.pollLoad d.clock)
  | .approve r auth =>
    if (d.tasks r).isSome || !mayApprove auth then d else d.put r (.approveLoad auth)
  | .deny r user => if (d.tasks r).isSome || user.isNone then d else d.put r .denyLoad
  | .advance r reply =>
    match d.tasks r with
    | none => d
    | some task => d.advanceTask r reply task

end Device

def fresh (expiresAt : Nat) : Device where
  row := ⟨.pending, none, none, none, expiresAt⟩
  clock := 0
  tasks _ := none
  minted := []
  returned := []
  denied := false

open List Function Option Bool

variable {d : Device} {r started : Nat} {reply : Reply} {a : Approval} {task : Task} {row : Session}
  {next : Option Task} {tasks : Nat → Option Task}

def Approval.Passed (a : Approval) : Prop := mayApprove a.auth = true ∧ a.passes = true

/-- The key was minted for an approval of this user that passed its checks. -/
def MintedFor (minted : List (Nat × Approval)) (key : Nat) (user : Option Nat) : Prop :=
  ∃ a, (key, a) ∈ minted ∧ a.auth.user = user ∧ a.Passed

def Task.Traced (minted : List (Nat × Approval)) (expiresAt : Nat) : Task → Prop
  | .pollStamp started _ | .deliver started => started ≤ expiresAt
  | .approveLoad auth => mayApprove auth = true
  | .approveMint a => a.Passed
  | .approveWrite a key => MintedFor minted key a.auth.user
  | _ => True

/-- Every key can be traced to the approval it was minted for, and was asked for in time. -/
structure Traced (d : Device) : Prop where
  tasks : ∀ r, ∀ task ∈ d.tasks r, task.Traced d.minted d.row.expiresAt
  stored : ∀ key ∈ d.row.apiKeyPlaintext, MintedFor d.minted key d.row.userId
  returned : ∀ x ∈ d.returned, MintedFor d.minted x.key (some x.user) ∧ x.started ≤ d.row.expiresAt

namespace Traced

variable (h : Traced d)
include h

theorem putTask (hnext : ∀ task ∈ next, task.Traced d.minted d.row.expiresAt) :
    Traced { d with tasks := update d.tasks r next } where
  __ := h
  tasks := (forall_update_iff d.tasks fun _ next ↦
    ∀ task ∈ next, task.Traced d.minted d.row.expiresAt).mpr ⟨hnext, fun r' _ ↦ h.tasks r'⟩

theorem put (htask : task.Traced d.minted d.row.expiresAt) : Traced (d.put r task) := by
  refine h.putTask fun other hother ↦ ?_
  obtain rfl := some.inj hother
  exact htask

theorem finish : Traced (d.finish r) :=
  h.putTask fun _ hother ↦ (nomatch hother)

theorem setRow (hexpires : row.expiresAt = d.row.expiresAt)
    (hstored : ∀ key ∈ row.apiKeyPlaintext, MintedFor d.minted key row.userId) :
    Traced (d.setRow row) where
  tasks := by
    rw [Device.setRow, hexpires]
    exact h.tasks
  stored := hstored
  returned := by
    rw [Device.setRow, hexpires]
    exact h.returned

theorem createApiKey : Traced (d.createApiKey a) := by
  have hmore {key : Nat} {user : Option Nat} (hkey : MintedFor d.minted key user) :
      MintedFor (d.createApiKey a).minted key user := by
    obtain ⟨b, hb, hpassed⟩ := hkey
    exact ⟨b, mem_cons_of_mem _ hb, hpassed⟩
  refine ⟨fun r task htask ↦ ?_, fun key hkey ↦ hmore (h.stored key hkey),
    fun x hx ↦ ⟨hmore (h.returned x hx).1, (h.returned x hx).2⟩⟩
  have htraced := h.tasks r task htask
  cases task with
  | approveWrite => exact hmore htraced
  | pollLoad | pollStamp | deliver | approveLoad | approveMint | denyLoad | denyWrite =>
    exact htraced

theorem deliverApproved (hstarted : started ≤ d.row.expiresAt) :
    Traced (d.deliverApproved r started reply) := by
  have hset : Traced (d.setRow { d.row with apiKeyPlaintext := none }) :=
    h.setRow rfl fun _ hkey ↦ (nomatch hkey)
  have hcleared := hset.finish (r := r)
  unfold Device.deliverApproved
  split
  case h_1 key user hkey huser =>
    refine ⟨hcleared.tasks, hcleared.stored, forall_mem_cons.mpr ⟨⟨?_, hstarted⟩, h.returned⟩⟩
    exact huser ▸ h.stored key hkey
  case h_2 => exact hcleared
  case h_3 => exact h.finish

theorem stamp (started : Nat) : Traced (if reply = .failed then d
    else d.setRow { d.row with lastPolledAt := some started }) := by
  split
  · exact h
  · exact h.setRow rfl h.stored

theorem advanceTask (htask : task.Traced d.minted d.row.expiresAt) :
    Traced (d.advanceTask r reply task) := by
  revert htask
  fun_cases Device.advanceTask d r reply task <;> intro htask
  case case1 started hload =>
    refine h.put ?_
    have hdue := hload.2.1
    simpa [Task.Traced] using hdue
  case case3 started session _ _ =>
    refine (h.stamp started).put ?_
    split <;> exact htask
  case case4 started session _ _ => exact (h.stamp started).finish
  case case5 => exact h.deliverApproved htask
  case case6 hload => exact h.put ⟨htask, hload.2⟩
  case case8 a => exact h.createApiKey.put ⟨a, mem_cons_self, rfl, htask⟩
  case case9 => exact h.createApiKey.finish
  case case12 =>
    refine finish (h.setRow rfl fun other hother ↦ ?_)
    obtain rfl := some.inj hother
    exact htask
  case case13 => exact h.put trivial
  case case16 =>
    have hset : Traced (d.setRow { d.row with status := .denied }) := h.setRow rfl h.stored
    have hwritten := hset.finish (r := r)
    exact { hwritten with }
  all_goals exact h.finish

theorem step (act : Act) : Traced (d.step act) := by
  fun_cases Device.step d act
  case case1 => exact { h with }
  case case3 | case7 => exact h.put trivial
  case case5 hmay =>
    obtain ⟨-, hauth⟩ : _ ∧ mayApprove _ := by simpa using hmay
    exact h.put hauth
  case case9 r _ task htask => exact h.advanceTask (h.tasks r task htask)
  all_goals exact h

end Traced

def Task.resolving : Task → Bool
  | .approveMint _ | .approveWrite _ _ | .denyWrite => true
  | _ => false

def Settled (tasks : Nat → Option Task) : Prop := ∀ r, ∀ task ∈ tasks r, task.resolving = false

/-- An approval or a denial reads the session only while no other one is between its read and its
write, and an approval only if no key has been minted for the session. -/
def Undisputed (d : Device) : Act → Prop
  | .advance r _ =>
    match d.tasks r with
    | some (.approveLoad _) => Settled d.tasks ∧ d.minted = []
    | some .denyLoad => Settled d.tasks
    | _ => True
  | _ => True

/-- At most one key was made, and it is nowhere, in the row or returned. -/
structure OneKey (d : Device) : Prop where
  minted : d.minted.length ≤ 1
  blank : d.row.status ≠ .approved → d.row.apiKeyPlaintext = none ∧ d.returned = []
  used : d.row.apiKeyPlaintext.toList.length + d.returned.length ≤ 1
  denied : d.denied = true → d.row.status = .denied
  undenied : ∀ x ∈ d.returned, x.afterDenial = false

structure Decides (d : Device) (r : Nat) (task : Task) : Prop where
  running : d.tasks r = some task
  alone : Settled (Function.update d.tasks r none)
  pending : d.row.status = .pending
  unminted : ∀ a, task = .approveMint a → d.minted = []

structure Orderly (d : Device) : Prop where
  key : OneKey d
  deciding : Settled d.tasks ∨ ∃ r task, Decides d r task

theorem Settled.update (h : Settled tasks)
    (hnext : ∀ t ∈ next, t.resolving = false) : Settled (update tasks r next) :=
  (forall_update_iff tasks fun _ next ↦ ∀ t ∈ next, t.resolving = false).mpr
    ⟨hnext, fun r' _ ↦ h r'⟩

theorem none_resolving : ∀ t ∈ (none : Option Task), t.resolving = false :=
  fun _ ht ↦ (nomatch ht)

theorem Orderly.move {d' : Device} (h : Orderly d) (hkey : OneKey d')
    (hnext : ∀ t ∈ next, t.resolving = false) (htasks : d'.tasks = update d.tasks r next)
    (hstatus : d'.row.status = d.row.status) (hminted : d'.minted = d.minted) : Orderly d' := by
  refine ⟨hkey, ?_⟩
  rw [htasks]
  rcases h.deciding with hsettled | ⟨r', task, hdecides⟩
  · exact .inl (hsettled.update hnext)
  · by_cases hr : r' = r
    · subst hr
      have hsettled := hdecides.alone.update hnext (r := r')
      rw [update_idem] at hsettled
      exact .inl hsettled
    · refine .inr ⟨r', task, ?_, ?_, hstatus.trans hdecides.pending, ?_⟩
      · rw [htasks, update_of_ne hr]
        exact hdecides.running
      · rw [htasks, update_comm (Ne.symm hr)]
        exact hdecides.alone.update hnext
      · rw [hminted]
        exact hdecides.unminted

theorem Orderly.decides (h : Orderly d) (htask : d.tasks r = some task)
    (hresolving : task.resolving) : Decides d r task := by
  rcases h.deciding with hsettled | ⟨r', task', hdecides⟩
  · exact absurd hresolving (by simp [hsettled r task htask])
  · by_cases hr : r = r'
    · subst hr
      obtain rfl := some.inj (htask.symm.trans hdecides.running)
      exact hdecides
    · have hother := hdecides.alone r task (by rwa [update_of_ne hr])
      exact absurd hresolving (by simp [hother])

theorem OneKey.mint (h : OneKey d) (a : Approval) (hminted : d.minted = []) :
    OneKey { d with tasks := tasks, minted := (d.minted.length, a) :: d.minted } :=
  { h with minted := by simp [hminted] }

theorem Orderly.finish (h : Orderly d) : Orderly (d.finish r) :=
  h.move { h.key with } none_resolving rfl rfl rfl

theorem Orderly.put (h : Orderly d) (htask : task.resolving = false) : Orderly (d.put r task) := by
  refine h.move { h.key with } (fun t ht ↦ ?_) rfl rfl rfl
  obtain rfl := some.inj ht
  exact htask

theorem Orderly.stamp (h : Orderly d) (at_ : Option Nat) :
    Orderly (d.setRow { d.row with lastPolledAt := at_ }) := by
  refine ⟨{ h.key with }, ?_⟩
  exact h.deciding.imp_right fun ⟨r, task, hdecides⟩ ↦ ⟨r, task, { hdecides with }⟩

theorem Orderly.load (h : Orderly d) (hsettled : Settled d.tasks)
    (hpending : d.row.status = .pending) (hminted : ∀ a, task = .approveMint a → d.minted = []) :
    Orderly (d.put r task) := by
  refine ⟨{ h.key with }, .inr ⟨r, task, update_self .., ?_, hpending, hminted⟩⟩
  rw [Device.put, update_idem]
  exact hsettled.update none_resolving

theorem status_of_resolvable {session : Session} {now : Nat}
    (h : session.resolvable now) : session.status = .pending := by
  simpa using (and_eq_true_iff.mp h).2

theorem Orderly.deliverApproved (h : Orderly d) : Orderly (d.deliverApproved r started reply) := by
  unfold Device.deliverApproved
  split
  case h_1 key user hkey huser =>
    -- a key in the row: the session is approved, so it is not denied and nothing was returned
    have happroved : d.row.status = .approved :=
      by_contra fun hne ↦ absurd (h.key.blank hne).1 (by simp [hkey])
    have hnone : d.returned = [] := by
      have hused := h.key.used
      rw [hkey, toList_some, length_singleton] at hused
      exact length_eq_zero_iff.mp (by omega)
    have hdenied : d.denied = false :=
      eq_false_iff.mpr fun hd ↦ absurd (h.key.denied hd) (by simp [happroved])
    refine h.move ⟨h.key.minted, absurd happroved, ?_, h.key.denied, ?_⟩
      none_resolving rfl rfl rfl
    · simp [hnone, Device.finish, Device.setRow]
    · simp [hnone, hdenied]
  case h_2 =>
    refine h.move ⟨h.key.minted, fun hne ↦ ⟨rfl, (h.key.blank hne).2⟩, ?_, h.key.denied,
      h.key.undenied⟩ none_resolving rfl rfl rfl
    exact le_trans (by simp [Device.finish, Device.setRow]) h.key.used
  case h_3 => exact h.finish

theorem Orderly.advanceTask (h : Orderly d) (htask : d.tasks r = some task)
    (hundisputed : Undisputed d (.advance r reply)) : Orderly (d.advanceTask r reply task) := by
  rw [Undisputed, htask] at hundisputed
  revert htask hundisputed
  have hstamped (started : Nat) : Orderly (if reply = .failed then d
      else d.setRow { d.row with lastPolledAt := some started }) := by
    split
    · exact h
    · exact h.stamp _
  fun_cases Device.advanceTask d r reply task <;> intro htask hundisputed
  case case1 => exact h.put rfl
  case case3 started _ _ _ => exact (hstamped started).put rfl
  case case4 started _ _ _ => exact (hstamped started).finish
  case case5 => exact h.deliverApproved
  case case6 hload =>
    obtain ⟨hsettled, hminted⟩ := hundisputed
    have hopen := (and_eq_true_iff.mp (and_eq_true_iff.mp hload.2).1).1
    exact h.load hsettled (status_of_resolvable hopen) fun _ _ ↦ hminted
  case case8 a =>
    have hdecides := h.decides htask rfl
    refine ⟨h.key.mint a (hdecides.unminted a rfl),
      .inr ⟨r, _, update_self .., ?_, hdecides.pending, by simp⟩⟩
    rw [Device.put, update_idem]
    exact hdecides.alone
  case case9 a =>
    have hdecides := h.decides htask rfl
    exact ⟨h.key.mint a (hdecides.unminted a rfl), .inl hdecides.alone⟩
  case case12 =>
    have hdecides := h.decides htask rfl
    have hblank := h.key.blank (by simp [hdecides.pending])
    refine ⟨⟨h.key.minted, absurd rfl, ?_, fun hd ↦ ?_, h.key.undenied⟩,
      .inl hdecides.alone⟩
    · simp [Device.finish, Device.setRow, hblank.2]
    · exact absurd (h.key.denied hd) (by simp [hdecides.pending])
  case case13 hload => exact h.load hundisputed (status_of_resolvable hload.2) (by simp)
  case case16 =>
    have hdecides := h.decides htask rfl
    have hblank := h.key.blank (by simp [hdecides.pending])
    exact ⟨⟨h.key.minted, fun _ ↦ hblank, h.key.used, fun _ ↦ rfl, h.key.undenied⟩,
      .inl hdecides.alone⟩
  all_goals exact h.finish

theorem Orderly.step (h : Orderly d) {act : Act} (hundisputed : Undisputed d act) :
    Orderly (d.step act) := by
  revert hundisputed
  fun_cases Device.step d act <;> intro hundisputed
  case case1 =>
    refine ⟨{ h.key with }, ?_⟩
    exact h.deciding.imp_right fun ⟨r, task, hdecides⟩ ↦ ⟨r, task, { hdecides with }⟩
  case case3 | case5 | case7 => exact h.put rfl
  case case9 htask => exact h.advanceTask htask hundisputed
  all_goals exact h

theorem fresh_traced (expiresAt : Nat) : Traced (fresh expiresAt) :=
  ⟨fun _ _ ht ↦ (nomatch ht), fun _ hk ↦ (nomatch hk), fun _ hx ↦ (nomatch hx)⟩

theorem fresh_orderly (expiresAt : Nat) : Orderly (fresh expiresAt) where
  key := ⟨Nat.zero_le _, fun _ ↦ ⟨rfl, rfl⟩, Nat.zero_le _, nofun, fun _ hx ↦ (nomatch hx)⟩
  deciding := .inl fun _ _ ht ↦ (nomatch ht)

/-- At most one key is minted and returned, to an approval that passed all its checks on an open
session, never after a denial and never to a poll that started after the expiry. -/
structure Guarded (d : Device) : Prop where
  oneReturned : d.returned.length ≤ 1
  oneMinted : d.minted.length ≤ 1
  approved : ∀ x ∈ d.returned, ∃ a, (x.key, a) ∈ d.minted ∧ a.auth.user = some x.user ∧ a.Passed
  undenied : ∀ x ∈ d.returned, x.afterDenial = false
  inTime : ∀ x ∈ d.returned, x.started ≤ d.row.expiresAt

theorem undisputed_guarded (expiresAt : Nat) {acts : List Act}
    (h : Lib.Machine.Along Device.step Undisputed (fresh expiresAt) acts) :
    Guarded (acts.foldl Device.step (fresh expiresAt)) := by
  have htraced : Traced (acts.foldl Device.step (fresh expiresAt)) :=
    Lib.Machine.foldl_invariant (fun _ act hd ↦ hd.step act) (fresh_traced expiresAt) acts
  have horderly : Orderly (acts.foldl Device.step (fresh expiresAt)) :=
    Lib.Machine.along_invariant (fun _ _ hd hact ↦ hd.step hact) (fresh_orderly expiresAt) h
  exact ⟨le_trans (Nat.le_add_left _ _) horderly.key.used, horderly.key.minted,
    fun x hx ↦ (htraced.returned x hx).1, horderly.key.undenied,
    fun x hx ↦ (htraced.returned x hx).2⟩

def browser (user : Nat) : AuthContext := ⟨true, true, true, some user, some 1, true⟩

def answered (r : Nat) (calls : Nat) : List Act := List.replicate calls (.advance r .ok)

def approveThenPoll : List Act :=
  [.approve 0 (browser 7)] ++ answered 0 3 ++ [.poll 1] ++ answered 1 3

theorem approveThenPoll_guarded :
    (approveThenPoll.foldl Device.step (fresh 9000)).returned.map Delivery.user = [7] ∧
      Guarded (approveThenPoll.foldl Device.step (fresh 9000)) := by
  refine ⟨rfl, undisputed_guarded 9000 ⟨trivial, ⟨?_, rfl⟩, trivial, trivial, trivial, trivial,
    trivial, trivial, trivial⟩⟩
  have hidle : Settled (fresh 9000).tasks := fun _ _ ht ↦ (nomatch ht)
  refine hidle.update fun t ht ↦ ?_
  obtain rfl := some.inj ht
  rfl

/-- Two approvals that both read the session as pending: each mints a key, and each key is returned
by a poll. And an approval that read the session before it was denied: its key is returned after
the denial has succeeded. -/
theorem overlapping_decisions :
    let both := [.approve 0 (browser 7), .approve 1 (browser 8)] ++ answered 0 1 ++ answered 1 1 ++
      answered 0 2 ++ [.poll 2] ++ answered 2 3 ++ answered 1 2 ++ [.wait 1000, .poll 2] ++
      answered 2 3
    let denied := [.approve 0 (browser 7), .deny 1 (some 8)] ++ answered 0 1 ++ answered 1 2 ++
      answered 0 2 ++ [.poll 2] ++ answered 2 3
    (both.foldl Device.step (fresh 9000)).returned.map Delivery.user = [8, 7] ∧
      (denied.foldl Device.step (fresh 9000)).returned.map Delivery.afterDenial = [true] := by
  decide

end Temps.Auth
