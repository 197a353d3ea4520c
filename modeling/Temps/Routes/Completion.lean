import Temps.Routes.Delivery

namespace Temps.Routes

open Lib.Machine List

def Reload.coming (table : Table) : Reload → Option Update
  | .reading (some environment) readAt => some ⟨environment, readAt⟩
  | .published (some environment) | .claiming (some environment) =>
    some ⟨environment, table.readAt⟩
  | _ => none

namespace System

variable {environment deployment : ℕ} {s t : System} {a : Act}

/-- The events that wait in the queue of the deployment, that are on their way to it, and that a
reload will send. -/
def updates (s : System) : List Update :=
  s.inbox ++ s.outbox ++ (s.reload.coming s.table).toList

variable {update : Update} {claim : Claim} {act : BarrierAct}

theorem mem_updates : update ∈ s.updates ↔
    update ∈ s.inbox ∨ update ∈ s.outbox ∨ s.reload.coming s.table = some update := by
  simp only [updates, mem_append, Option.mem_toList, or_assoc]

/-- What an event can be after a step: it was there, or its load has begun in this step. -/
def Comes (s t : System) : Prop :=
  ∀ update ∈ t.updates, update ∈ s.updates ∨ s.version ≤ update.readAt

theorem comes_of_eq (hinbox : ∀ update ∈ t.inbox, update ∈ s.inbox) (houtbox : t.outbox = s.outbox)
    (hreload : t.reload.coming t.table = s.reload.coming s.table) : Comes s t := by
  intro update hupdate
  rw [mem_updates, houtbox, hreload] at hupdate
  exact .inl (mem_updates.mpr (hupdate.imp_left (hinbox update)))

theorem comes_idle (hinbox : t.inbox = s.inbox) (houtbox : t.outbox = s.outbox)
    (hreload : t.reload = .idle) : Comes s t := by
  intro update hupdate
  rw [mem_updates, hinbox, houtbox, hreload] at hupdate
  refine .inl (mem_updates.mpr ?_)
  exact hupdate.imp_right fun h ↦ .inl (h.resolve_right (by simp [Reload.coming]))

def sent (s : System) (update : Update) : Prop := update ∈ s.inbox ∨ update ∈ s.outbox

theorem sent_of_send {u : Update} (hmem : update ∈ s.outbox)
    (h : u ∈ if s.barrier = .none then s.inbox else s.inbox ++ [update]) : s.sent u := by
  split at h
  · exact .inl h
  · exact forall_mem_append.mpr ⟨fun _ ↦ .inl, forall_mem_singleton.mpr (.inr hmem)⟩ u h

theorem LoadMove.comes (hmove : LoadMove s t) : Comes s t := by
  cases hmove with
  | begin event =>
    intro update hupdate
    rcases mem_updates.mp hupdate with hin | hout | hcoming
    · exact .inl (mem_updates.mpr (.inl hin))
    · exact .inl (mem_updates.mpr (.inr (.inl hout)))
    · cases event with
      | none => exact absurd hcoming (by simp [Reload.coming])
      | some event =>
        cases hcoming
        exact .inr (Nat.le_refl _)
  | fail => exact comes_idle rfl rfl rfl
  | publish event readAt empty hreload | claim event hreload =>
    refine comes_of_eq (fun _ ↦ id) rfl ?_
    rw [hreload]
    cases event <;> rfl
  | retry => exact comes_of_eq (fun _ ↦ id) rfl rfl
  | send update hmem =>
    intro u hu
    refine .inl (mem_updates.mpr ?_)
    rcases mem_updates.mp hu with hin | hout | hcoming
    · exact (sent_of_send hmem hin).imp_right .inl
    · exact .inr (.inl (mem_of_mem_erase hout))
    · exact .inr (.inr hcoming)

theorem succeed_comes (owner : Owner) : Comes s (s.succeed owner) := by
  cases owner with
  | reload =>
    simp only [succeed]
    split
    case h_1 event hreload =>
      intro u hu
      refine .inl (mem_updates.mpr ?_)
      rcases mem_updates.mp hu with hin | hout | hcoming
      · exact .inl hin
      · rcases mem_cons.mp hout with rfl | hold
        · exact .inr (.inr (by rw [hreload]; rfl))
        · exact .inr (.inl hold)
      · exact absurd hcoming (by simp [Reload.coming])
    case h_2 => exact comes_idle rfl rfl rfl
  | retry => exact comes_of_eq (fun _ ↦ id) rfl rfl

theorem ClaimMove.comes (hmove : ClaimMove s claim t) : Comes s t := by
  cases hmove with
  | read | commit => exact comes_of_eq (fun _ ↦ id) rfl rfl
  | adopt owner value => exact succeed_comes owner
  | fail owner =>
    cases owner with
    | reload => exact comes_idle rfl rfl rfl
    | retry => exact comes_of_eq (fun _ ↦ id) rfl rfl

theorem BarrierMove.inbox_subset (hmove : BarrierMove environment deployment s act t) :
    ∀ update ∈ t.inbox, update ∈ s.inbox := by
  cases hmove with
  | subscribe => exact nofun
  | receive _ _ _ _ _ _ hinbox | lag _ _ hinbox => exact fun _ h ↦ hinbox ▸ mem_cons_of_mem _ h
  | promote | readTarget | listNodes | check => exact fun _ ↦ id

theorem comes_step (hruns : Runs a) (hstep : s.step environment deployment a = some t) :
    Comes s t := by
  cases step_move hstep with
  | aside => exact comes_of_eq (fun _ ↦ id) rfl rfl
  | load hmove => exact hmove.comes
  | claim _ hmove => exact hmove.comes
  | worker hmove =>
    obtain ⟨_, _, rfl, -⟩ := hmove.eq
    exact comes_of_eq (fun _ ↦ id) rfl rfl
  | ack _ hmove =>
    obtain ⟨_, _, _, rfl⟩ := hmove.eq
    exact comes_of_eq (fun _ ↦ id) rfl rfl
  | barrier hmove =>
    have hsubset := hmove.inbox_subset
    obtain ⟨_, _, _, _, -, rfl⟩ := hmove.eq
    exact comes_of_eq hsubset rfl rfl
  | restart => exact hruns.elim

def Posted (s : System) : Prop := ∀ update, s.sent update → update.readAt ≤ s.floor s.row

theorem Posted.of_sent (h : Posted s) (he : Extends s t)
    (hsent : ∀ update, t.sent update → s.sent update) : Posted t :=
  fun update hupdate ↦ (h update (hsent update hupdate)).trans he.top_le

theorem sent_of_eq (hinbox : ∀ update ∈ t.inbox, update ∈ s.inbox) (houtbox : t.outbox = s.outbox)
    (h : t.sent update) : s.sent update := by
  rw [sent, houtbox] at h
  exact h.imp_left (hinbox update)

theorem LoadMove.sent (hmove : LoadMove s t) (h : t.sent update) : s.sent update := by
  cases hmove with
  | send new hmem =>
    rcases h with hin | hout
    · exact sent_of_send hmem hin
    · exact .inr (mem_of_mem_erase hout)
  | begin | fail | publish | claim | retry => exact sent_of_eq (fun _ ↦ id) rfl h

theorem Floored.table_le_top (h : Floored s) (hmem : claim ∈ s.claims)
    (howner : claim.owner = some .reload) {value : ℕ} (hphase : claim.phase = .committed value) :
    s.table.readAt ≤ s.floor s.row := by
  have hof : claim.ofReload := by simp [Claim.ofReload, howner]
  have hle := h.claims_le claim hmem value (by simp [Claim.numbers, hphase])
  calc s.table.readAt ≤ s.floor value := h.claimed claim hmem hof value hphase
    _ ≤ s.floor s.row := h.floor_mono value s.row hle (Nat.le_refl _)

theorem succeed_sent (owner : Owner) (h : (s.succeed owner).sent update) :
    s.sent update ∨ owner = .reload ∧ update.readAt = s.table.readAt := by
  cases owner with
  | reload =>
    simp only [succeed] at h
    split at h
    · rcases h with hin | hout
      · exact .inl (.inl hin)
      · rcases mem_cons.mp hout with rfl | hold
        · exact .inr ⟨rfl, rfl⟩
        · exact .inl (.inr hold)
    · exact .inl h
  | retry => exact .inl h

theorem Posted.claimStep (h : Posted s) (hfloored : Floored s) (hmem : claim ∈ s.claims)
    (hmove : ClaimMove s claim t) : Posted t := by
  have he := hfloored.extends_claim hmem hmove
  cases hmove with
  | read | commit => exact h.of_sent he fun _ ↦ sent_of_eq (fun _ ↦ id) rfl
  | adopt owner value howner hphase =>
    intro update hupdate
    refine Nat.le_trans ?_ he.top_le
    rcases succeed_sent owner hupdate with hold | ⟨rfl, hnew⟩
    · exact h update hold
    · exact hnew.trans_le (hfloored.table_le_top hmem howner hphase)
  | fail owner => cases owner <;> exact h.of_sent he fun _ ↦ sent_of_eq (fun _ ↦ id) rfl

theorem Posted.step (h : Posted s) (hfloored : Floored s) (hruns : Runs a)
    (hstep : s.step environment deployment a = some t) : Posted t := by
  have he := hfloored.extends_step hstep
  cases step_move hstep with
  | aside => exact h.of_sent he fun _ ↦ sent_of_eq (fun _ ↦ id) rfl
  | load hmove => exact h.of_sent he fun _ ↦ hmove.sent
  | claim hmem hmove => exact h.claimStep hfloored hmem hmove
  | worker hmove =>
    obtain ⟨_, _, rfl, -⟩ := hmove.eq
    exact h.of_sent he fun _ ↦ sent_of_eq (fun _ ↦ id) rfl
  | ack _ hmove =>
    obtain ⟨_, _, _, rfl⟩ := hmove.eq
    exact h.of_sent he fun _ ↦ sent_of_eq (fun _ ↦ id) rfl
  | barrier hmove =>
    have hsubset := hmove.inbox_subset
    obtain ⟨_, _, _, _, -, rfl⟩ := hmove.eq
    exact h.of_sent he fun _ ↦ sent_of_eq hsubset rfl
  | restart => exact hruns.elim

/-- What a stage of the deployment says about the loads: an event for it comes from a load that
began after its update, then the row stands for such a load, and then the target does. -/
def Holds (environment : ℕ) (s : System) : Barrier → Prop
  | .promoted mark => mark ≤ s.version ∧
    ∀ update ∈ s.updates, concerns environment update.environment = true → mark ≤ update.readAt
  | .ready mark => mark ≤ s.floor s.row
  | .targeted mark target | .listed mark target _ => target ≤ s.row ∧ mark ≤ s.floor target
  | .none | .subscribed | .passed _ _ | .failed => True

theorem Holds.mono {barrier : Barrier} (h : Holds environment s barrier) (he : Extends s t)
    (hversion : s.version ≤ t.version) (hcomes : Comes s t) : Holds environment t barrier := by
  cases barrier with
  | promoted mark =>
    refine ⟨h.1.trans hversion, fun update hupdate hconcerns ↦ ?_⟩
    rcases hcomes update hupdate with hold | hnew
    · exact h.2 update hold hconcerns
    · exact h.1.trans hnew
  | ready mark => exact Nat.le_trans h he.top_le
  | targeted mark target => exact ⟨h.1.trans he.row_le, (he.floor_eq target h.1).symm ▸ h.2⟩
  | listed mark target nodes =>
    exact ⟨h.1.trans he.row_le, (he.floor_eq target h.1).symm ▸ h.2⟩
  | none | subscribed | passed | failed => trivial

/-- No process and no worker restarts. When the deployment updates its environment, no event for
the environment or for none waits in its queue, is on its way, or comes from a reload that has begun
to read. -/
def PromotesQuietly (environment : ℕ) (s : System) : Act → Prop
  | .barrier .promote => ∀ update ∈ s.updates, concerns environment update.environment = false
  | a => Runs a

theorem PromotesQuietly.runs (h : PromotesQuietly environment s a) : Runs a := by
  cases a with
  | barrier act => trivial
  | _ => exact h

theorem Holds.barrierStep (h : Holds environment s s.barrier) (hposted : Posted s)
    (hfloored : Floored s) (hquiet : PromotesQuietly environment s (.barrier act))
    (hstep : s.step environment deployment (.barrier act) = some t) :
    Holds environment t t.barrier := by
  have he := hfloored.extends_step hstep
  have hcomes := comes_step (a := .barrier act) trivial hstep
  cases barrierStep_move hstep with
  | subscribe | check => trivial
  | promote =>
    refine ⟨Nat.le_refl _, fun update hupdate hconcerns ↦ ?_⟩
    have hnone := hquiet update hupdate
    exact nomatch hnone.symm.trans hconcerns
  | receive readable mark update rest barrier hbarrier hinbox hnext =>
    rw [hbarrier] at h
    have hmem : update ∈ s.inbox := hinbox ▸ mem_cons_self
    rcases hnext with rfl | rfl | ⟨rfl, hconcerns⟩
    · exact h.mono he (Nat.le_refl _) hcomes
    · trivial
    · have hmark := h.2 update (mem_updates.mpr (.inl hmem)) hconcerns
      exact hmark.trans (hposted update (.inl hmem))
  | lag => exact h.mono he (Nat.le_refl _) hcomes
  | readTarget mark hbarrier =>
    rw [hbarrier] at h
    exact ⟨Nat.le_refl _, h⟩
  | listNodes mark target hbarrier =>
    rw [hbarrier] at h
    exact h

structure Completing (environment : ℕ) (s : System) : Prop where
  floored : Floored s
  delivered : Delivered s
  posted : Posted s
  holds : Holds environment s s.barrier

theorem Completing.step (h : Completing environment s) (hquiet : PromotesQuietly environment s a)
    (hstep : s.step environment deployment a = some t) : Completing environment t := by
  have hruns := hquiet.runs
  refine ⟨h.floored.step hruns hstep, h.delivered.step h.floored hruns hstep,
    h.posted.step h.floored hruns hstep, ?_⟩
  have hsame (hbarrier : t.barrier = s.barrier) (hversion : s.version ≤ t.version) :
      Holds environment t t.barrier :=
    hbarrier ▸ h.holds.mono (h.floored.extends_step hstep) hversion (comes_step hruns hstep)
  cases step_move hstep with
  | aside _ _ _ _ hversion => exact hsame rfl hversion
  | load hmove => cases hmove <;> exact hsame rfl (Nat.le_refl _)
  | claim _ hmove =>
    have hothers := hmove.others_eq
    simp only [others, Prod.mk.injEq] at hothers
    exact hsame hothers.2.2.2.1 hothers.2.2.2.2.ge
  | worker hmove =>
    obtain ⟨_, _, rfl, -⟩ := hmove.eq
    exact hsame rfl (Nat.le_refl _)
  | ack _ hmove =>
    obtain ⟨_, _, _, rfl⟩ := hmove.eq
    exact hsame rfl (Nat.le_refl _)
  | barrier => exact h.holds.barrierStep h.posted h.floored hquiet hstep
  | restart => exact hruns.elim

theorem completing_start (start : Start) : Completing environment start.system :=
  ⟨floored_start start, delivered_start start, nofun, trivial⟩

theorem storedOf_mem {node generation : ℕ} (h : s.storedOf node = some generation) :
    (node, generation) ∈ s.stored := by
  obtain ⟨entry, hfind, rfl⟩ := Option.map_eq_some_iff.mp h
  have hnode : entry.1 = node := by simpa using List.find?_some hfind
  exact hnode ▸ mem_of_find?_eq_some hfind

theorem Completing.worker_le (h : Completing environment s) {node target mark : ℕ}
    (hacked : (s.storedOf node).any (target ≤ ·)) (hmark : mark ≤ s.floor target) :
    mark ≤ (s.workers node).store.table.readAt := by
  obtain ⟨generation, hstored, hle⟩ := (Option.any_eq_true ..).mp hacked
  obtain ⟨hrow, hcovered⟩ := (h.delivered node).known generation
    (.inr (.inl (storedOf_mem hstored)))
  calc mark ≤ s.floor target := hmark
    _ ≤ s.floor generation := h.floored.floor_mono target generation (of_decide_eq_true hle) hrow
    _ ≤ (s.workers node).store.table.readAt := hcovered

/-- A deployment that passes the barrier is in the routes of the control plane and of the workers
that it waited for, if no event of an older load was pending when it updated its environment. -/
theorem completed_routes_are_current (start : Start) {mark target : ℕ} {nodes : List ℕ}
    (h : Reaches (step environment deployment) (PromotesQuietly environment) start.system s)
    (hlisted : s.barrier = .listed mark target nodes)
    (hcheck : s.step environment deployment (.barrier .check) = some t) :
    mark ≤ t.table.readAt ∧ ∀ node ∈ nodes, mark ≤ (t.workers node).store.table.readAt := by
  have hs : Completing environment s :=
    h.invariant (fun hs ha hstep ↦ hs.step ha hstep) (completing_start start)
  have hholds := hs.holds
  rw [hlisted] at hholds
  obtain ⟨hrow, hmark⟩ := hholds
  have hmove : BarrierMove environment deployment s .check t := barrierStep_move hcheck
  cases hmove with
  | check mark' target' nodes' hbarrier hacked =>
    cases hlisted.symm.trans hbarrier
    refine ⟨hmark.trans (hs.floored.floor_le target hrow), fun node hnode ↦ ?_⟩
    exact hs.worker_le (hacked node hnode) hmark

def promotesQuietly (environment : ℕ) (s : System) : Act → Bool
  | .barrier .promote => s.updates.all fun update ↦ !concerns environment update.environment
  | .restart | .worker _ .restart => false
  | _ => true

theorem promotesQuietly_of_passes (s : System) (a : Act)
    (h : promotesQuietly environment s a) : PromotesQuietly environment s a := by
  cases a with
  | barrier act =>
    cases act with
    | promote => exact fun update hupdate ↦ by simpa using all_eq_true.mp h update hupdate
    | _ => trivial
  | worker node act =>
    cases act with
    | restart => exact absurd h (by simp [promotesQuietly])
    | _ => trivial
  | restart => exact absurd h (by simp [promotesQuietly])
  | _ => trivial

def awaitActs (update : Update) : List Act :=
  [.load (.send update), .barrier (.receive true), .barrier .readTarget, .barrier .listNodes] ++
    pollActs 6 5

def promoteThenReload : List Act :=
  [.barrier .subscribe, .barrier .promote] ++ reloadActs (some (some 3)) 0 5 6 ++
    awaitActs ⟨some 3, 11⟩

theorem completed_routes_are_current_reload :
    ((exec (step 3 2) (promotesQuietly 3) sampleStart.system promoteThenReload).any fun s ↦
      s.barrier == .listed 11 6 [1] && (s.step 3 2 (.barrier .check)).isSome) = true ∧
    ∀ s ∈ exec (step 3 2) (promotesQuietly 3) sampleStart.system promoteThenReload,
      s.barrier = .listed 11 6 [1] → ∀ t, s.step 3 2 (.barrier .check) = some t →
        11 ≤ (t.workers 1).store.table.readAt :=
  ⟨by decide +kernel, fun _ hs hlisted _ hcheck ↦ (completed_routes_are_current sampleStart
    (reaches_exec promotesQuietly_of_passes hs) hlisted hcheck).2 1 mem_cons_self⟩

def reloadAroundPromote : List Act :=
  [.barrier .subscribe, .load (.begin (some none)), .barrier .promote] ++
    (reloadActs (some none) 0 5 6).tail ++ awaitActs ⟨none, 10⟩ ++ [.barrier .check]

/-- The deployment passes, and the control plane and the worker serve what was read before its
update. -/
theorem reload_before_update_completes :
    ((exec (step 3 2) (fun _ _ ↦ true) sampleStart.system reloadAroundPromote).any fun s ↦
      s.barrier == .passed 11 [1] && s.table.readAt == 10 &&
        (s.workers 1).store.table.readAt == 10) = true := by
  decide +kernel

end System

end Temps.Routes
