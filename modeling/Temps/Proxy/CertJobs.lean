import Temps.Lib.Machine
import Temps.Proxy.OnDemandCert

namespace Temps.Proxy.OnDemandCert

open Temps.Core.PublicHostname (Text toAsciiLowercase)
open Lib.Machine Lib.Unicode List Function Option

theorem countP_erase_add {α : Type*} [BEq α] [LawfulBEq α] {l : List α} {a : α} (p : α → Bool)
    (h : a ∈ l) : (l.erase a).countP p + (p a).toNat = l.countP p := by
  rw [(perm_cons_erase h).countP_eq, countP_cons]
  cases p a <;> rfl

def AttemptPhase.atWork : AttemptPhase → Bool
  | .done => false
  | _ => true

def Caller.sends (host : Text) (call : Caller) : Bool := call.host == host && call.phase == .sending

def Attempt.worksOn (host : Text) (attempt : Attempt) : Bool :=
  attempt.host == host && attempt.phase.atWork

namespace Process

/-- The jobs of a hostname: in the hands of a caller that claimed the entry and is about to send,
queued, in the hands of the consumer, or being issued. -/
def jobs (s : Process) (host : Text) : ℕ :=
  s.callers.countP (·.sends host) + s.queue.count host + s.holding.toList.count host +
    s.attempts.countP (·.worksOn host)

def inFlight (s : Process) (host : Text) : Bool := (s.state host).any OnDemandCertState.inFlight

/-- A hostname has as many jobs as its entry says, except for the `stale` ones: their entry says one
and there is none. -/
def Tallied (stale : Text → Bool) (s : Process) : Prop :=
  ∀ host, s.jobs host + (stale host).toNat = (s.inFlight host).toNat

variable {u : Tables} {cfg : OnDemandCertConfig} {s t : Process} {stale : Text → Bool}
  {call : Caller} {attempt : Attempt} {a : Act} {host : Text} {event : ProvisionStep}

theorem sends_eq_false (h : call.phase ≠ .sending) : call.sends host = false := by
  simp [Caller.sends, h]

theorem sends_sending (h : call.phase = .sending) : call.sends host = (call.host == host) := by
  simp [Caller.sends, h]

section

variable (hmem : call ∈ s.callers)
include hmem

theorem countP_goOn (p : Caller → Bool) (phase : Phase) :
    (s.goOn call phase).callers.countP p + (p call).toNat =
      s.callers.countP p + (p ⟨call.host, call.peerIp, phase⟩).toNat := by
  have herase := countP_erase_add p hmem
  simp only [goOn, countP_cons]
  cases p ⟨call.host, call.peerIp, phase⟩ <;> simp <;> omega

theorem jobs_goOn (host : Text) (phase : Phase) :
    (s.goOn call phase).jobs host + (call.sends host).toNat =
      s.jobs host + (Caller.sends host ⟨call.host, call.peerIp, phase⟩).toNat := by
  have hcount := countP_goOn hmem (·.sends host) phase
  simp only [jobs]
  simp only [goOn] at hcount ⊢
  omega

theorem jobs_answer (host : Text) (outcome : EnqueueOutcome) :
    (s.answer call outcome).jobs host + (call.sends host).toNat = s.jobs host := by
  have herase := countP_erase_add (·.sends host) hmem
  simp only [jobs, answer]
  omega

theorem jobs_pos_of_sending (hphase : call.phase = .sending) : 0 < s.jobs call.host := by
  have hpos : 0 < s.callers.countP (·.sends call.host) :=
    countP_pos_iff.mpr ⟨call, hmem, by simp [sends_sending hphase]⟩
  simp only [jobs]
  omega

end

theorem jobs_advance (host : Text) (hmem : attempt ∈ s.attempts) (phase : AttemptPhase) :
    (s.advance attempt phase).jobs host + (attempt.worksOn host).toNat =
      s.jobs host + (Attempt.worksOn host ⟨attempt.host, phase⟩).toNat := by
  have herase := countP_erase_add (·.worksOn host) hmem
  simp only [jobs, advance, countP_cons]
  cases Attempt.worksOn host ⟨attempt.host, phase⟩ <;> simp <;> omega

theorem jobs_pos_of_atWork (hmem : attempt ∈ s.attempts) (hwork : attempt.phase.atWork) :
    0 < s.jobs attempt.host := by
  have hpos : 0 < s.attempts.countP (·.worksOn attempt.host) :=
    countP_pos_iff.mpr ⟨attempt, hmem, by simp [Attempt.worksOn, hwork]⟩
  simp only [jobs]
  omega

@[simp] theorem jobs_setState (x : Text) (state : Option OnDemandCertState) :
    (s.setState x state).jobs host = s.jobs host := rfl

theorem allowIpNovelty_eq (s : Process) (ip : ℕ) : ∃ novelty,
    (s.allowIpNovelty ip).2 = { s with ipNovelty := novelty } := by
  fun_cases allowIpNovelty s ip <;> exact ⟨_, rfl⟩

theorem inFlight_of_verdict {now : ℕ} (h : s.verdict now host = none) :
    s.inFlight host = false := by
  unfold verdict at h
  split at h
  case h_1 backoff hstate => simp [inFlight, hstate, OnDemandCertState.inFlight]
  case h_2 => exact nomatch h
  case h_3 hstate => simp [inFlight, hstate]

theorem provisionStep_eq (hstep : s.provisionStep attempt event = some t) :
    ∃ stage phase rows, attempt.phase = .running stage ∧ phase.atWork ∧
      t = { s.advance attempt phase with rows := rows } := by
  unfold provisionStep at hstep
  split at hstep
  case h_1 stage hphase =>
    obtain ⟨⟨next, rows⟩, -, rfl⟩ := map_eq_some_iff.mp hstep
    cases next with
    | inl stage' => exact ⟨stage, .running stage', rows, hphase, rfl, rfl⟩
    | inr outcome => exact ⟨stage, .ended outcome, rows, hphase, rfl, rfl⟩
  case h_2 => exact nomatch hstep

theorem timeoutStep_eq (hstep : s.timeoutStep attempt = some t) :
    ∃ stage, attempt.phase = .running stage ∧
      t = { s.advance attempt .expired with orphans := ⟨attempt.host, stage⟩ :: s.orphans } := by
  unfold timeoutStep at hstep
  split at hstep
  case h_1 stage hphase => exact ⟨stage, hphase, (some.inj hstep).symm⟩
  case h_2 => exact nomatch hstep

def Stays : Act → Prop
  | .restart _ _ => False
  | _ => True

section

variable (h : Tallied stale s)
include h

namespace Tallied

theorem of_eq (hjobs : ∀ host, t.jobs host = s.jobs host)
    (hstate : t.state = s.state) : Tallied stale t := by
  intro host
  rw [hjobs, inFlight, hstate]
  exact h host

variable {state : Option OnDemandCertState}

theorem of_setState {x : Text} (hstate : t.state = update s.state x state)
    (hjobs : ∀ host ≠ x, t.jobs host = s.jobs host)
    (hx : t.jobs x + (stale x).toNat = (state.any OnDemandCertState.inFlight).toNat) :
    Tallied stale t := by
  intro host
  rw [inFlight, hstate, update_apply]
  split
  case isTrue hhost => exact hhost ▸ hx
  case isFalse hhost =>
    rw [hjobs host hhost]
    exact h host

theorem of_job (hjob : 0 < s.jobs host) :
    s.jobs host = 1 ∧ s.inFlight host ∧ stale host = false := by
  have htally := h host
  cases hflight : s.inFlight host <;> cases hstale : stale host <;>
    simp only [hflight, hstale, Bool.toNat_true, Bool.toNat_false] at htally
  case true.false => exact ⟨by omega, rfl, rfl⟩
  all_goals omega

section

variable (hmem : call ∈ s.callers)
include hmem

theorem goOn {phase : Phase} (hfrom : call.phase ≠ .sending)
    (hto : phase ≠ .sending) : Tallied stale (s.goOn call phase) := by
  refine h.of_eq (fun host ↦ ?_) rfl
  have hjobs := jobs_goOn hmem host phase
  rw [sends_eq_false hfrom, sends_eq_false hto] at hjobs
  exact hjobs

theorem answer {outcome : EnqueueOutcome}
    (hfrom : call.phase ≠ .sending) : Tallied stale (s.answer call outcome) := by
  refine h.of_eq (fun host ↦ ?_) rfl
  simpa [sends_eq_false hfrom] using jobs_answer hmem host outcome

theorem claim (hfrom : call.phase ≠ .sending) (hfree : s.inFlight call.host = false) :
    Tallied stale ((s.setState call.host (some .pending)).goOn call .sending) := by
  have hjobs (host : Text) : ((s.setState call.host (some .pending)).goOn call .sending).jobs host =
      s.jobs host + (call.host == host).toNat := by
    simpa [sends_eq_false hfrom, sends_sending] using
      jobs_goOn (s := s.setState call.host (some .pending)) hmem host .sending
  refine h.of_setState rfl (fun host hne ↦ ?_) ?_
  · rw [hjobs, beq_false_of_ne hne.symm]
    rfl
  · have htally := h call.host
    rw [hfree, Bool.toNat_false] at htally
    rw [hjobs, beq_self_eq_true]
    change _ + 1 + _ = 1
    omega

theorem shed (hphase : call.phase = .sending) (outcome : EnqueueOutcome) :
    Tallied stale ((s.setState call.host none).answer call outcome) := by
  have hjobs (host : Text) : ((s.setState call.host none).answer call outcome).jobs host +
      (call.host == host).toNat = s.jobs host := by
    simpa [sends_sending hphase] using
      jobs_answer (s := s.setState call.host none) hmem host outcome
  refine h.of_setState rfl (fun host hne ↦ ?_) ?_
  · simpa [beq_false_of_ne hne.symm] using hjobs host
  · obtain ⟨hone, -, hstale⟩ := h.of_job (jobs_pos_of_sending hmem hphase)
    simpa [hone, hstale] using hjobs call.host

theorem send (hphase : call.phase = .sending) :
    Tallied stale { s.answer call .enqueued with queue := s.queue ++ [call.host] } := by
  refine h.of_eq (fun host ↦ ?_) rfl
  have hjobs := jobs_answer hmem host .enqueued
  rw [sends_sending hphase] at hjobs
  rw [← hjobs]
  simp only [jobs, Process.answer, count_append, count_singleton]
  cases call.host == host
  · simp
  · simp
    omega

theorem callStep : Tallied stale (s.callStep cfg call) := by
  fun_cases Process.callStep cfg s call
  case case1 | case14 => exact h.answer hmem (by simp [*])
  case case12 =>
    have hback : Tallied stale (s.answer call .skippedRateLimit) := h.answer hmem (by simp [*])
    exact hback
  case case4 hphase ip _ _ =>
    obtain ⟨novelty, heq⟩ := s.allowIpNovelty_eq ip
    have hsame : Tallied stale { s with ipNovelty := novelty } := h
    rw [heq]
    exact hsame.goOn hmem (by simp [hphase]) (by simp)
  case case5 hphase ip _ _ =>
    obtain ⟨novelty, heq⟩ := s.allowIpNovelty_eq ip
    have hsame : Tallied stale { s with ipNovelty := novelty } := h
    rw [heq]
    exact hsame.answer hmem (by simp [hphase])
  case case11 hphase _ =>
    refine Tallied.goOn h hmem (by simp [hphase]) ?_
    split <;> simp
  case case15 hphase hverdict =>
    exact h.claim hmem (by simp [hphase]) (inFlight_of_verdict hverdict)
  case case16 hphase _ _ => exact h.send hmem hphase
  case case17 hphase _ => exact h.shed hmem hphase _
  all_goals exact h.goOn hmem (by simp [*]) (by simp)

end

section

variable (hmem : attempt ∈ s.attempts)
include hmem

theorem advance {phase : AttemptPhase} (hfrom : attempt.phase.atWork) (hto : phase.atWork) :
    Tallied stale (s.advance attempt phase) := by
  refine h.of_eq (fun host ↦ ?_) rfl
  have hjobs := jobs_advance host hmem phase
  simp only [Attempt.worksOn, hfrom, hto] at hjobs
  omega

theorem mark (hwork : attempt.phase.atWork) :
    Tallied stale (s.setState attempt.host (some .issuing)) := by
  refine h.of_setState rfl (fun _ _ ↦ rfl) ?_
  have hfl := (h.of_job (jobs_pos_of_atWork hmem hwork)).2.1
  simpa [hfl, OnDemandCertState.inFlight] using h attempt.host

theorem conclude (hwork : attempt.phase.atWork)
    (hstate : state.any OnDemandCertState.inFlight = false) :
    Tallied stale ((s.setState attempt.host state).advance attempt .done) := by
  have hjobs (host : Text) : ((s.setState attempt.host state).advance attempt .done).jobs host +
      (attempt.host == host).toNat = s.jobs host := by
    have hdone : AttemptPhase.atWork .done = false := rfl
    simpa [Attempt.worksOn, hwork, hdone] using
      jobs_advance (s := s.setState attempt.host state) host hmem .done
  refine h.of_setState rfl (fun host hne ↦ ?_) ?_
  · simpa [beq_false_of_ne hne.symm] using hjobs host
  · obtain ⟨hone, -, hstale⟩ := h.of_job (jobs_pos_of_atWork hmem hwork)
    simpa [hone, hstale, hstate] using hjobs attempt.host

theorem issuanceStep (hstep : s.issuanceStep attempt = some t) : Tallied stale t := by
  have hwork {phase : AttemptPhase} (hphase : attempt.phase = phase) (hw : phase.atWork) :
      attempt.phase.atWork := hphase ▸ hw
  revert hstep
  fun_cases Process.issuanceStep s attempt <;> rintro ⟨⟩
  case case1 hphase =>
    have hw := hwork hphase rfl
    exact (h.mark hmem hw).advance hmem hw rfl
  case case2 hphase => exact h.advance hmem (hwork hphase rfl) rfl
  case case8 hphase =>
    refine h.of_eq (fun host ↦ ?_) rfl
    have hidle : attempt.worksOn host = false := by
      simp [Attempt.worksOn, hphase, AttemptPhase.atWork]
    simpa [jobs, hidle] using countP_erase_add (·.worksOn host) hmem
  all_goals
    rename_i hphase
    exact h.conclude hmem (hwork hphase rfl) rfl

theorem provisionStep (hstep : s.provisionStep attempt event = some t) : Tallied stale t := by
  obtain ⟨stage, phase, rows, hphase, hwork, rfl⟩ := provisionStep_eq hstep
  exact h.advance hmem (by simp [hphase, AttemptPhase.atWork]) hwork

theorem timeoutStep (hstep : s.timeoutStep attempt = some t) : Tallied stale t := by
  obtain ⟨stage, hphase, rfl⟩ := timeoutStep_eq hstep
  have hexpired : Tallied stale (s.advance attempt .expired) :=
    h.advance hmem (by simp [hphase, AttemptPhase.atWork]) rfl
  exact hexpired

end

theorem orphanStep {orphan : Orphan} (hstep : s.orphanStep orphan event = some t) :
    Tallied stale t := by
  obtain ⟨⟨next, rows⟩, -, rfl⟩ := map_eq_some_iff.mp hstep
  cases next with
  | inl stage => exact h
  | inr outcome => exact h

theorem step (hstays : Stays a) (hstep : s.step u cfg a = some t) : Tallied stale t := by
  revert hstays hstep
  fun_cases Process.step u cfg s a <;> intro hstays
  case case13 hmem => exact h.issuanceStep hmem
  case case15 hmem => exact h.provisionStep hmem
  case case17 hmem => exact h.timeoutStep hmem
  case case19 => exact h.orphanStep
  case case21 => exact hstays.elim
  all_goals rintro ⟨⟩
  case case5 =>
    refine h.of_eq (fun host ↦ ?_) rfl
    simp [jobs, Caller.sends]
  case case6 hmem => exact h.callStep hmem
  case case8 hqueue hholding =>
    refine h.of_eq (fun host ↦ ?_) rfl
    simp only [jobs, hholding, hqueue, count_cons, Option.toList]
    omega
  case case10 hholding _ =>
    refine h.of_eq (fun host ↦ ?_) rfl
    simp only [jobs, hholding, countP_cons, count_cons, Option.toList,
      Attempt.worksOn, AttemptPhase.atWork, Bool.and_true]
    omega
  all_goals exact h

end Tallied

end
theorem tallied_new {clock : ℕ} {rows : List DomainRow} {routes : Text → Option Bool}
    {state : Text → Option OnDemandCertState} :
    Tallied (fun host ↦ (state host).any OnDemandCertState.inFlight)
      (.new clock rows routes state) := by
  intro host
  simp [jobs, inFlight, Process.new]

end Process

end Temps.Proxy.OnDemandCert
