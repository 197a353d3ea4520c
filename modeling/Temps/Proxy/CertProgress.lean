import Mathlib.Algebra.BigOperators.Group.List.Basic
import Temps.Proxy.CertJobs

namespace Temps.Proxy.OnDemandCert

open Temps.Core.PublicHostname (Text toAsciiLowercase)
open Lib.Machine Lib.Unicode List Bool

def AttemptPhase.rank : AttemptPhase → ℕ
  | .begun => 6
  | .marked => 5
  | .running _ => 4
  | .ended _ | .expired => 3
  | .done => 1

namespace Process

def rank (s : Process) : ℕ :=
  9 * s.callers.countP (·.phase == .sending) + 8 * s.queue.length +
    7 * s.holding.toList.length + (s.attempts.map (·.phase.rank)).sum

/-- The steps that the process takes on its own: of its calls, its consumer, its attempts and their
timeouts. -/
def Works : Act → Prop
  | .caller _ | .receive | .permit | .issuance _ | .timeout _ => True
  | _ => False

variable {u : Tables} {cfg : OnDemandCertConfig} {s t : Process} {stale : Text → Bool}
  {call : Caller} {attempt : Attempt} {a : Act} {host : Text}

theorem sum_rank_erase_add (hmem : attempt ∈ s.attempts) :
    ((s.attempts.erase attempt).map (·.phase.rank)).sum + attempt.phase.rank =
      (s.attempts.map (·.phase.rank)).sum := by
  rw [((perm_cons_erase hmem).map _).sum_eq, map_cons, sum_cons, Nat.add_comm]

theorem rank_advance (hmem : attempt ∈ s.attempts) {phase : AttemptPhase}
    (hlt : phase.rank < attempt.phase.rank) : (s.advance attempt phase).rank < s.rank := by
  have hsum := sum_rank_erase_add hmem
  simp only [rank, advance, map_cons, sum_cons]
  omega

variable (u cfg)

theorem progress_of_sending (hmem : call ∈ s.callers) (hphase : call.phase = .sending) :
    ∃ t, s.step u cfg (.caller call) = some t ∧ t.rank < s.rank := by
  refine ⟨_, if_pos hmem, ?_⟩
  have herase := countP_erase_add (·.phase == .sending) hmem
  simp only [hphase, beq_self_eq_true, toNat_true] at herase
  simp only [callStep, hphase]
  split
  · simp only [rank, answer, length_append, length_singleton]
    omega
  · simp only [rank, answer, setState]
    omega

theorem issuanceStep_progress (hmem : attempt ∈ s.attempts)
    (hawaits : ∀ stage, attempt.phase ≠ .running stage) :
    ∃ t, s.issuanceStep attempt = some t ∧ t.rank < s.rank := by
  have hlt (state : Option OnDemandCertState) (phase : AttemptPhase)
      (h : phase.rank < attempt.phase.rank) :
      ((s.setState attempt.host state).advance attempt phase).rank < s.rank :=
    rank_advance hmem h
  unfold issuanceStep
  split
  case h_1 hphase => exact ⟨_, rfl, hlt _ .marked (by simp [hphase, AttemptPhase.rank])⟩
  case h_2 hphase =>
    exact ⟨_, rfl, rank_advance hmem (by simp [hphase, AttemptPhase.rank])⟩
  case h_3 stage hphase => exact absurd hphase (hawaits stage)
  case h_8 hphase =>
    have hsum := sum_rank_erase_add hmem
    rw [hphase] at hsum
    refine ⟨_, rfl, ?_⟩
    simp only [rank]
    simp only [AttemptPhase.rank] at hsum ⊢
    omega
  case h_4 hphase => exact ⟨_, rfl, hlt _ .done (by simp [hphase, AttemptPhase.rank])⟩
  case h_5 backoff hphase | h_6 hphase | h_7 hphase =>
    exact ⟨_, rfl, hlt (some (.failed _)) .done (by simp [hphase, AttemptPhase.rank])⟩

theorem progress_of_attempt (hmem : attempt ∈ s.attempts) :
    ∃ a t, Works a ∧ s.step u cfg a = some t ∧ t.rank < s.rank := by
  by_cases hawaits : ∃ stage, attempt.phase = .running stage
  · obtain ⟨stage, hphase⟩ := hawaits
    refine ⟨.timeout attempt,
      { s.advance attempt .expired with orphans := ⟨attempt.host, stage⟩ :: s.orphans },
      trivial, (if_pos hmem).trans ?_, ?_⟩
    · simp only [timeoutStep, hphase]
    · exact rank_advance hmem (by simp [hphase, AttemptPhase.rank])
  · obtain ⟨t, hstep, hlt⟩ := issuanceStep_progress hmem (not_exists.mp hawaits)
    exact ⟨.issuance attempt, t, trivial, (if_pos hmem).trans hstep, hlt⟩

theorem progress (hrank : 0 < s.rank) :
    ∃ a t, Works a ∧ s.step u cfg a = some t ∧ t.rank < s.rank := by
  by_cases hsending : ∃ call ∈ s.callers, call.phase = .sending
  · obtain ⟨call, hmem, hphase⟩ := hsending
    obtain ⟨t, hstep, hlt⟩ := progress_of_sending u cfg hmem hphase
    exact ⟨.caller call, t, trivial, hstep, hlt⟩
  rcases hattempts : s.attempts with _ | ⟨attempt, rest⟩
  · rcases hholding : s.holding with _ | job
    · rcases hqueue : s.queue with _ | ⟨job, rest⟩
      · -- Nothing is left to do.
        have hzero : s.callers.countP (·.phase == .sending) = 0 := by
          simpa using hsending
        simp [rank, hattempts, hholding, hqueue, hzero] at hrank
      · refine ⟨.receive, { s with holding := some job, queue := rest }, trivial, ?_, ?_⟩
        · simp only [step, hholding, hqueue]
        · simp only [rank, hholding, hqueue, Option.toList, length_cons]
          omega
    · refine ⟨.permit, { s with holding := none, attempts := [⟨job, .begun⟩] }, trivial, ?_, ?_⟩
      · simp only [step, hholding, hattempts, length_nil, cfg.maxConcurrent_pos, if_true]
      · simp [rank, hholding, hattempts, AttemptPhase.rank]
  · exact progress_of_attempt u cfg (hattempts ▸ mem_cons_self)

theorem settles (s : Process) : ∃ t, Reaches (step u cfg) (fun _ a ↦ Works a) s t ∧ t.rank = 0 := by
  induction hn : s.rank using Nat.strong_induction_on generalizing s with
  | _ n ih =>
    rcases Nat.eq_zero_or_pos s.rank with hzero | hpos
    · exact ⟨s, .refl, hzero⟩
    · obtain ⟨a, t, hworks, hstep, hlt⟩ := progress u cfg hpos
      obtain ⟨t', hrun, hdone⟩ := ih t.rank (hn ▸ hlt) t rfl
      have hfirst : Reaches (step u cfg) (fun _ a ↦ Works a) s t := Reaches.refl.snoc hworks hstep
      exact ⟨t', hfirst.trans hrun, hdone⟩

variable {u cfg}

theorem jobs_of_rank (h : s.rank = 0) (host : Text) : s.jobs host = 0 := by
  simp only [rank, Nat.add_eq_zero_iff] at h
  obtain ⟨⟨⟨hcallers, hqueue⟩, hholding⟩, hattempts⟩ := h
  have hnil : s.attempts = [] := by
    rcases hlist : s.attempts with _ | ⟨attempt, rest⟩
    · rfl
    · rw [hlist, map_cons, sum_cons] at hattempts
      have hpos : 0 < attempt.phase.rank := by cases attempt.phase <;> simp [AttemptPhase.rank]
      omega
  simp only [jobs, hnil, countP_nil, Nat.add_eq_zero_iff]
  refine ⟨⟨⟨?_, ?_⟩, ?_⟩, trivial⟩
  · simp_all [Caller.sends]
  · simp_all
  · simp_all

theorem Works.stays (h : Works a) : Stays a := by
  cases a <;> trivial

/-- At a restart no row that the start looks at says that it is pending or issuing. -/
def CleanRestart (s : Process) : Act → Prop
  | .restart downtime _ => ∀ row ∈ s.rows, row.recent (s.clock + downtime) = true →
    row.status ≠ .onDemandPending ∧ row.status ≠ .onDemandIssuing
  | _ => True

theorem seedState_not_inFlight (host : Text) {entries : List (Text × OnDemandCertState)}
    (h : ∀ entry ∈ entries, entry.2.inFlight = false) :
    (seedState entries host).any OnDemandCertState.inFlight = false := by
  unfold seedState
  induction entries using List.reverseRecOn with
  | nil => rfl
  | append_singleton entries entry ih =>
    rw [foldl_append, foldl_cons, foldl_nil, Function.update_apply]
    split
    · exact h entry (by simp)
    · exact ih fun e he ↦ h e (mem_append_left _ he)

theorem seed_not_inFlight {row : DomainRow} {state : OnDemandCertState}
    (hpending : row.status ≠ .onDemandPending) (hissuing : row.status ≠ .onDemandIssuing)
    (h : row.seed = some state) : state.inFlight = false := by
  unfold DomainRow.seed at h
  split at h
  case h_1 hstatus => exact absurd hstatus hpending
  case h_2 hstatus => exact absurd hstatus hissuing
  case h_3 =>
    cases h
    rfl
  case h_4 => exact nomatch h

theorem tallied_start {clock : ℕ} {rows : List DomainRow} {routes : Text → Option Bool}
    (hclean : ∀ row ∈ rows, row.recent clock →
      row.status ≠ .onDemandPending ∧ row.status ≠ .onDemandIssuing) (seeded : Bool) :
    Tallied (fun _ ↦ false) (.start clock rows routes seeded) := by
  have hentries : ∀ entry ∈ seedStateFromDb clock rows, entry.2.inFlight = false := by
    intro entry hentry
    obtain ⟨row, hrow, hseed⟩ := mem_filterMap.mp hentry
    obtain ⟨hmem, hrecent⟩ := mem_filter.mp hrow
    obtain ⟨state, hstate, rfl⟩ := Option.map_eq_some_iff.mp hseed
    obtain ⟨hpending, hissuing⟩ := hclean row hmem hrecent
    exact seed_not_inFlight hpending hissuing hstate
  intro host
  cases seeded with
  | false => exact tallied_new host
  | true =>
    have hcold := seedState_not_inFlight host hentries
    simp [jobs, inFlight, Process.start, Process.new, hcold]

theorem Tallied.cleanStep (h : Tallied (fun _ ↦ false) s) (hclean : CleanRestart s a)
    (hstep : s.step u cfg a = some t) : Tallied (fun _ ↦ false) t := by
  by_cases hstays : Stays a
  · exact h.step hstays hstep
  · cases a with
    | restart downtime seeded =>
      cases hstep
      exact tallied_start hclean seeded
    | _ => exact absurd trivial hstays

def idle (s : Process) : Bool :=
  s.callers.isEmpty && s.queue.isEmpty && s.holding.isNone && s.attempts.isEmpty

theorem jobs_of_idle (h : s.idle) (host : Text) : s.jobs host = 0 := by
  simp only [idle, and_eq_true, List.isEmpty_iff, Option.isNone_iff_eq_none] at h
  obtain ⟨⟨⟨hcallers, hqueue⟩, hholding⟩, hattempts⟩ := h
  simp [jobs, hcallers, hqueue, hholding, hattempts]

theorem stale_stays (hidle : s.idle) (hflight : s.inFlight host)
    (hrun : Reaches (step u cfg) (fun _ a ↦ Stays a) s t) : t.inFlight host := by
  have htally : Tallied s.inFlight t := by
    refine hrun.invariant (fun hs ha hstep ↦ hs.step ha hstep) fun host ↦ ?_
    simp [jobs_of_idle hidle host]
  have hhost := htally host
  rw [hflight] at hhost
  cases ht : t.inFlight host with
  | true => rfl
  | false => simp [ht] at hhost

theorem verdict_of_inFlight (h : s.inFlight host) (now : ℕ) :
    s.verdict now host = some .skippedDuplicate := by
  unfold verdict
  split
  case h_1 backoff hstate => simp [inFlight, hstate, OnDemandCertState.inFlight] at h
  case h_2 => rfl
  case h_3 hstate => simp [inFlight, hstate] at h

theorem verdict_ne_duplicate (h : s.inFlight host = false) (now : ℕ) :
    s.verdict now host ≠ some .skippedDuplicate := by
  unfold verdict
  split
  case h_1 backoff hstate => split <;> simp
  case h_2 state hfailed hstate =>
    cases state with
    | failed backoff => exact (hfailed backoff rfl).elim
    | pending | issuing => simp [inFlight, hstate, OnDemandCertState.inFlight] at h
  case h_3 => simp

/-- From a first start with an empty cache, and with clean restarts only: an entry in flight has one
job, and the process can come, by its own steps, to where the hostname is not a duplicate. -/
theorem marker_has_job {clock : ℕ} {rows : List DomainRow} {routes : Text → Option Bool}
    (h : Reaches (step u cfg) CleanRestart (.new clock rows routes fun _ ↦ none) s) :
    (∀ host, s.inFlight host = true → s.jobs host = 1) ∧
      ∀ host, ∃ t, Reaches (step u cfg) (fun _ a ↦ Works a) s t ∧
        t.verdict t.clock host ≠ some .skippedDuplicate := by
  have htally : Tallied (fun _ ↦ false) s :=
    h.invariant (fun hs ha hstep ↦ hs.cleanStep ha hstep) tallied_new
  refine ⟨fun host hflight ↦ ?_, fun host ↦ ?_⟩
  · simpa [hflight] using htally host
  · obtain ⟨t, hrun, hrank⟩ := settles u cfg s
    have htally' : Tallied (fun _ ↦ false) t :=
      hrun.invariant (fun hs ha hstep ↦ hs.step ha.stays hstep) htally
    have hcold : t.inFlight host = false := by
      have hzero := htally' host
      rw [jobs_of_rank hrank host] at hzero
      cases hflight : t.inFlight host with
      | false => rfl
      | true => simp [hflight] at hzero
    exact ⟨t, hrun, verdict_ne_duplicate hcold t.clock⟩

def notRestarting (_ : Process) : Act → Bool
  | .restart _ _ => false
  | _ => true

theorem cleanRestart_of_passes (s : Process) (a : Act) (h : notRestarting s a) :
    CleanRestart s a := by
  cases a <;> trivial

theorem marker_has_job_sample :
    ((exec (step asciiTables (sampleConfig 1)) notRestarting sampleStart
      (enqueueActs 1000000)).any fun s ↦ s.inFlight sampleHost) = true ∧
    ∀ s ∈ exec (step asciiTables (sampleConfig 1)) notRestarting sampleStart (enqueueActs 1000000),
      s.inFlight sampleHost = true → s.jobs sampleHost = 1 :=
  ⟨by decide +kernel, fun _ hs ↦ (marker_has_job (reaches_exec cleanRestart_of_passes hs)).1 _⟩

def crashWhileIssuing : List Act :=
  enqueueActs 1000000 ++ spawnActs ++
    [.provision ⟨sampleHost, .running .entered⟩ .begin, .restart 5 true]

/-- The entry is in flight with no job, and the hostname stays a duplicate as long as the process
runs. -/
theorem seeded_marker_has_no_job :
    ∃ s ∈ exec (step asciiTables (sampleConfig 1)) (fun _ _ ↦ true) sampleStart crashWhileIssuing,
      s.inFlight sampleHost = true ∧ s.jobs sampleHost = 0 ∧
        ∀ t, Reaches (step asciiTables (sampleConfig 1)) (fun _ a ↦ Stays a) s t →
          t.verdict t.clock sampleHost = some .skippedDuplicate := by
  have hrun : ((exec (step asciiTables (sampleConfig 1)) (fun _ _ ↦ true) sampleStart
      crashWhileIssuing).any fun s ↦ s.idle && s.inFlight sampleHost) := by
    decide +kernel
  obtain ⟨s, hs, hcheck⟩ := (Option.any_eq_true ..).mp hrun
  obtain ⟨hidle, hflight⟩ := (and_eq_true ..).mp hcheck
  exact ⟨s, hs, hflight, jobs_of_idle hidle _, fun t ht ↦
    verdict_of_inFlight (stale_stays hidle hflight ht) t.clock⟩

end Process

end Temps.Proxy.OnDemandCert
