import Temps.Proxy.CertBounds

namespace Temps.Proxy.OnDemandCert

open Temps.Core.PublicHostname (Text toAsciiLowercase)
open Lib.Machine Lib.Unicode List Function

namespace Process

variable {u : Tables} {cfg : OnDemandCertConfig} {s t : Process} {stale : Text → Bool}
  {call : Caller} {attempt : Attempt} {a : Act} {host : Text} {outcome : EnqueueOutcome}
  {phase : Phase} {now : ℕ}

def dueBy (s : Process) (host : Text) : ℕ :=
  match s.state host with
  | some (.failed backoffUntil) => backoffUntil
  | _ => s.clock

structure Waited (s : Process) : Prop where
  due : ∀ host, s.lastBackoff host ≤ s.dueBy host
  claims : ∀ call ∈ s.callers, ∀ now, call.phase = .claiming now → now ≤ s.clock

section

variable (h : Waited s)
include h

namespace Waited

theorem elapsed (hstate : ∀ b, s.state host ≠ some (.failed b)) : s.lastBackoff host ≤ s.clock := by
  have hdue := h.due host
  unfold dueBy at hdue
  split at hdue
  case h_1 b hb => exact absurd hb (hstate b)
  case h_2 => exact hdue

theorem elapsed_of_inFlight (hflight : s.inFlight host) : s.lastBackoff host ≤ s.clock := by
  refine h.elapsed fun b hb ↦ ?_
  simp [inFlight, hb, OnDemandCertState.inFlight] at hflight

theorem tick (secs : ℕ) : Waited { s with clock := s.clock + secs } where
  due host := by
    have hdue := h.due host
    unfold dueBy at hdue ⊢
    split at hdue <;> simp_all
    omega
  claims call hcall now hphase := (h.claims call hcall now hphase).trans (Nat.le_add_right ..)

theorem of_callers (hclock : t.clock = s.clock) (hstate : t.state = s.state)
    (hlast : t.lastBackoff = s.lastBackoff)
    (hcallers : ∀ call ∈ t.callers, call ∈ s.callers ∨
      ∀ now, call.phase = .claiming now → now ≤ s.clock) : Waited t where
  due host := by
    rw [dueBy, hclock, hstate, hlast]
    exact h.due host
  claims call hcall now hphase := by
    rw [hclock]
    rcases hcallers call hcall with hold | hnew
    · exact h.claims call hold now hphase
    · exact hnew now hphase

theorem goOn (hphase : ∀ now, phase = .claiming now → now ≤ s.clock) : Waited (s.goOn call phase) := by
  refine h.of_callers rfl rfl rfl fun c hc ↦ ?_
  rcases mem_cons.mp hc with rfl | hold
  · exact .inr hphase
  · exact .inl (mem_of_mem_erase hold)

theorem answer (outcome : EnqueueOutcome) : Waited (s.answer call outcome) :=
  h.of_callers rfl rfl rfl fun _ hc ↦ .inl (mem_of_mem_erase hc)

theorem setState {state : Option OnDemandCertState}
    (hover : s.lastBackoff host ≤ s.clock) (hstate : ∀ b, state ≠ some (.failed b)) :
    Waited (s.setState host state) where
  __ := h
  due x := by
    have hdue := h.due x
    simp only [dueBy, Process.setState, update_apply]
    by_cases hx : x = host
    · subst hx
      rw [if_pos rfl]
      split
      case h_1 _ b => exact absurd rfl (hstate b)
      case h_2 => exact hover
    · rw [if_neg hx]
      exact hdue

theorem recordFailure (backoff : ℕ) :
    Waited (s.recordFailure attempt backoff) where
  __ := h
  due x := by
    have hdue := h.due x
    simp only [dueBy, Process.recordFailure, advance, Process.setState, update_apply]
    by_cases hx : x = attempt.host
    · simp [hx]
    · rw [if_neg hx, if_neg hx]
      exact hdue

end Waited

theorem elapsed_of_verdict (hnow : now ≤ s.clock)
    (hverdict : s.verdict now host = none) : s.lastBackoff host ≤ s.clock := by
  unfold verdict at hverdict
  split at hverdict
  case h_1 b hb =>
    have hdue := h.due host
    simp only [dueBy, hb] at hdue
    simp only [ite_eq_right_iff, reduceCtorEq, imp_false, not_lt] at hverdict
    exact hdue.trans (hverdict.trans hnow)
  case h_2 => exact nomatch hverdict
  case h_3 hnone => exact h.elapsed fun b hb ↦ by simp [hnone] at hb

theorem Waited.callStep (htally : Tallied stale s) (hmem : call ∈ s.callers) :
    Waited (s.callStep cfg call) := by
  have hnovel (ip : ℕ) : Waited (s.allowIpNovelty ip).2 := by
    obtain ⟨novelty, heq⟩ := s.allowIpNovelty_eq ip
    rw [heq]
    exact { h with }
  fun_cases Process.callStep cfg s call
  case case1 | case14 => exact h.answer _
  case case4 ip _ _ => exact (hnovel ip).goOn (by simp)
  case case5 ip _ _ => exact (hnovel ip).answer _
  case case9 =>
    have hgone : Waited (s.goOn call .resetting) := h.goOn (by simp)
    exact { hgone with }
  case case10 =>
    have hgone : Waited (s.goOn call .granted) := h.goOn (by simp)
    exact { hgone with }
  case case11 =>
    have hgone : Waited
        (s.goOn call (if cfg.hourlyCap ≤ s.hourlyCount then .backing else .granted)) := by
      refine h.goOn fun now ↦ ?_
      split <;> simp
    exact { hgone with }
  case case12 =>
    have hback : Waited (s.answer call .skippedRateLimit) := h.answer _
    exact { hback with }
  case case13 => exact h.goOn fun now hnow ↦ (Phase.claiming.inj hnow).ge
  case case15 now hphase hverdict =>
    have hover := elapsed_of_verdict h (h.claims call hmem now hphase) hverdict
    exact (h.setState hover (by simp)).goOn (by simp)
  case case16 =>
    have hsent : Waited (s.answer call .enqueued) := h.answer _
    exact { hsent with }
  case case17 hphase _ =>
    have hflight := (htally.of_job (jobs_pos_of_sending hmem hphase)).2.1
    exact (h.setState (h.elapsed_of_inFlight hflight) (by simp)).answer _
  all_goals exact h.goOn (by simp)

theorem Waited.issuanceStep (htally : Tallied stale s)
    (hmem : attempt ∈ s.attempts) (hstep : s.issuanceStep attempt = some t) : Waited t := by
  have hover (hwork : attempt.phase.atWork) : s.lastBackoff attempt.host ≤ s.clock :=
    h.elapsed_of_inFlight (htally.of_job (jobs_pos_of_atWork hmem hwork)).2.1
  revert hstep
  fun_cases Process.issuanceStep s attempt <;> rintro ⟨⟩
  case case1 hphase =>
    have hset : Waited (s.setState attempt.host (some .issuing)) :=
      h.setState (hover (by simp [hphase, AttemptPhase.atWork])) (by simp)
    exact { hset with }
  case case2 | case8 => exact { h with }
  case case4 hphase =>
    have hset : Waited (s.setState attempt.host none) :=
      h.setState (hover (by simp [hphase, AttemptPhase.atWork])) (by simp)
    exact { hset with }
  all_goals exact h.recordFailure _

theorem Waited.step (htally : Tallied stale s) (hstays : Stays a)
    (hstep : s.step u cfg a = some t) : Waited t := by
  revert hstays hstep
  fun_cases Process.step u cfg s a <;> intro hstays hstep
  case case13 hmem => exact h.issuanceStep htally hmem hstep
  case case15 =>
    obtain ⟨-, -, -, -, -, rfl⟩ := provisionStep_eq hstep
    exact { h with }
  case case17 =>
    obtain ⟨-, -, rfl⟩ := timeoutStep_eq hstep
    exact { h with }
  case case19 =>
    obtain ⟨⟨next, rows⟩, -, rfl⟩ := Option.map_eq_some_iff.mp hstep
    cases next <;> exact { h with }
  case case21 => exact hstays.elim
  all_goals cases hstep
  case case1.refl secs => exact h.tick secs
  case case5.refl =>
    refine h.of_callers rfl rfl rfl fun c hc ↦ ?_
    rcases mem_cons.mp hc with rfl | hold
    · exact .inr (by simp)
    · exact .inl hold
  case case6.refl hmem => exact h.callStep htally hmem
  all_goals exact { h with }

end

def slots (s : Process) : ℕ := s.callers.countP (·.phase.holdsSlot)

def backed (s : Process) : ℕ := s.callers.countP (·.phase.backs)

/-- The hourly count covers the answers of the window and the slots that are held, and is over the
cap only by the calls that back out. -/
structure Steady (cfg : OnDemandCertConfig) (s : Process) : Prop where
  rolls : ∀ call ∈ s.callers, call.phase.rolls = false
  low : s.enqueued + s.slots + s.backed ≤ s.hourlyCount
  high : s.hourlyCount ≤ cfg.hourlyCap + s.backed

/-- The window is steady, or one call rolls it over, and no other is in it. -/
inductive Hour (cfg : OnDemandCertConfig) (s : Process) : Prop where
  | steady (h : Steady cfg s)
  | rolling (call : Caller) (hmem : call ∈ s.callers) (hrolls : call.phase.rolls = true)
      (hothers : ∀ other ∈ s.callers.erase call, other.phase.inWindow = false)
      (hcap : s.enqueued ≤ cfg.hourlyCap) (hreset : call.phase = .resetting → s.enqueued = 0)

theorem enqueued_answer (call : Caller) (outcome : EnqueueOutcome) (h : outcome ≠ .enqueued) :
    (s.answer call outcome).enqueued = s.enqueued := by
  simp [enqueued, answer, h]

theorem Phase.outside (h : phase.inWindow = false) :
    phase.rolls = false ∧ phase.holdsSlot = false ∧ phase.backs = false := by
  cases phase with
  | gated | checked | admitted | timed => exact ⟨rfl, rfl, rfl⟩
  | _ => exact absurd h (by simp [Phase.inWindow])

theorem verdict_ne_enqueued (h : s.verdict now host = some outcome) : outcome ≠ .enqueued := by
  revert h
  fun_cases verdict s now host <;> rintro ⟨⟩ <;> nofun

theorem gate_ne_enqueued (h : s.gate u cfg host = some outcome) : outcome ≠ .enqueued := by
  revert h
  fun_cases gate u cfg s host <;> rintro ⟨⟩ <;> nofun

theorem issuanceStep_callers (hstep : s.issuanceStep attempt = some t) :
    t.callers = s.callers ∧ t.hourlyCount = s.hourlyCount ∧ t.answers = s.answers := by
  revert hstep
  fun_cases issuanceStep s attempt <;> rintro ⟨⟩
  all_goals exact ⟨rfl, rfl, rfl⟩

section

variable (hmem : call ∈ s.callers) (h : Steady cfg s) {old : Phase}
include hmem h

theorem Steady.goOn {new : Phase}
    (hold : call.phase = old) (hto : new.rolls = false)
    (hcallers : t.callers = (s.goOn call new).callers) (henqueued : t.enqueued = s.enqueued)
    (hlow : s.hourlyCount + new.holdsSlot.toNat + new.backs.toNat ≤
      t.hourlyCount + old.holdsSlot.toNat + old.backs.toNat)
    (hhigh : t.hourlyCount + old.backs.toNat ≤ cfg.hourlyCap + s.backed + new.backs.toNat) :
    Steady cfg t := by
  subst hold
  have hlow' := h.low
  have hslots : t.slots + call.phase.holdsSlot.toNat = s.slots + new.holdsSlot.toNat := by
    rw [slots, hcallers]
    exact countP_goOn hmem (·.phase.holdsSlot) new
  have hbacked : t.backed + call.phase.backs.toNat = s.backed + new.backs.toNat := by
    rw [backed, hcallers]
    exact countP_goOn hmem (·.phase.backs) new
  refine ⟨fun other hother ↦ ?_, by omega, by omega⟩
  rw [hcallers] at hother
  rcases mem_cons.mp hother with rfl | hother
  · exact hto
  · exact h.rolls other (mem_of_mem_erase hother)

theorem Steady.answer (hold : call.phase = old)
    (hcallers : t.callers = s.callers.erase call) (n : ℕ) (henqueued : t.enqueued = s.enqueued + n)
    (hlow : s.hourlyCount + n ≤ t.hourlyCount + old.holdsSlot.toNat + old.backs.toNat)
    (hhigh : t.hourlyCount + old.backs.toNat ≤ cfg.hourlyCap + s.backed) : Steady cfg t := by
  subst hold
  have hlow' := h.low
  have hslots : t.slots + call.phase.holdsSlot.toNat = s.slots := by
    rw [slots, hcallers]
    exact countP_erase_add (fun c : Caller ↦ c.phase.holdsSlot) hmem
  have hbacked : t.backed + call.phase.backs.toNat = s.backed := by
    rw [backed, hcallers]
    exact countP_erase_add (fun c : Caller ↦ c.phase.backs) hmem
  refine ⟨fun other hother ↦ ?_, by omega, by omega⟩
  rw [hcallers] at hother
  exact h.rolls other (mem_of_mem_erase hother)

theorem Steady.count (hin : call.phase.inWindow) : Steady cfg (s.callStep cfg call) := by
  have hhigh := h.high
  fun_cases Process.callStep cfg s call
  case case9 hphase _ | case10 hphase _ =>
    exact absurd (h.rolls call hmem) (by simp [hphase, Phase.rolls])
  case case11 hphase gone =>
    subst gone
    split
    case isTrue hfull =>
      exact h.goOn hmem hphase rfl rfl rfl le_rfl (Nat.succ_le_succ hhigh)
    case isFalse hfree =>
      exact h.goOn hmem hphase rfl rfl rfl le_rfl
        ((Nat.lt_of_not_le hfree).trans_le (Nat.le_add_right ..))
  case case12 hphase _ =>
    have hpos : 0 < s.backed := countP_pos_iff.mpr ⟨call, hmem, by simp [hphase, Phase.backs]⟩
    have hcount : s.hourlyCount - 1 + 1 = s.hourlyCount := by
      have hlow := h.low
      omega
    exact h.answer hmem hphase rfl 0 (enqueued_answer call .skippedRateLimit (by simp)) hcount.ge
      (hcount.trans_le hhigh)
  case case13 hphase | case15 hphase _ => exact h.goOn hmem hphase rfl rfl rfl le_rfl hhigh
  case case14 hphase _ hverdict =>
    exact h.answer hmem hphase rfl 0 (enqueued_answer call _ (verdict_ne_enqueued hverdict))
      (Nat.le_succ _) hhigh
  case case16 hphase _ _ => exact h.answer hmem hphase rfl 1 count_cons_self le_rfl hhigh
  case case17 hphase _ =>
    exact h.answer hmem hphase rfl 0 (enqueued_answer call .skippedDisabled (by simp))
      (Nat.le_succ _) hhigh
  all_goals simp [*, Phase.inWindow] at hin

end

theorem Hour.roll (hrolls : call.phase.rolls)
    (hothers : ∀ other ∈ s.callers.erase call, other.phase.inWindow = false)
    (hreset : call.phase = .resetting → s.enqueued = 0) : Hour cfg (s.callStep cfg call) := by
  cases hphase : call.phase with
  | rolling now =>
    simp only [callStep, hphase]
    refine .rolling ⟨call.host, call.peerIp, .resetting⟩ mem_cons_self rfl
      (fun other hother ↦ ?_) (Nat.zero_le _) fun _ ↦ rfl
    rw [goOn, erase_cons_head] at hother
    exact hothers other hother
  | resetting =>
    have hzero (p : Caller → Bool) (hp : ∀ other, other.phase.inWindow = false → p other = false) :
        (s.callers.erase call).countP p = 0 :=
      countP_eq_zero.mpr fun other hother ↦ by simp [hp other (hothers other hother)]
    have hslots := hzero (·.phase.holdsSlot) fun _ hout ↦ (Phase.outside hout).2.1
    have hbacked := hzero (·.phase.backs) fun _ hout ↦ (Phase.outside hout).2.2
    simp only [callStep, hphase]
    refine .steady ⟨fun other hother ↦ ?_, ?_, Nat.le_add_right_of_le cfg.hourlyCap_pos⟩
    · rcases mem_cons.mp hother with rfl | hold
      · rfl
      · exact (Phase.outside (hothers other hold)).1
    · have hnone : (s.goOn call .granted).enqueued = 0 := hreset hphase
      have hslot : (s.goOn call .granted).slots = 1 := by
        simp only [slots, goOn, countP_cons, hslots]
        rfl
      have hback : (s.goOn call .granted).backed = 0 := by
        simp only [backed, goOn, countP_cons, hbacked]
        rfl
      exact (congrArg₂ (· + ·) (congrArg₂ (· + ·) hnone hslot) hback).le
  | _ => simp [hphase, Phase.rolls] at hrolls

section

variable (h : Hour cfg s)
include h

theorem Hour.le_cap : s.enqueued ≤ cfg.hourlyCap := by
  cases h with
  | steady h =>
    have hlow := h.low
    have hhigh := h.high
    omega
  | rolling call hmem hrolls hothers hcap hreset => exact hcap

theorem Hour.of_eq (hcallers : t.callers = s.callers)
    (hcount : t.hourlyCount = s.hourlyCount) (hanswers : t.enqueued = s.enqueued) : Hour cfg t := by
  have hslots : t.slots = s.slots := by rw [slots, slots, hcallers]
  have hbacked : t.backed = s.backed := by rw [backed, backed, hcallers]
  cases h with
  | steady h =>
    obtain ⟨hrolls, hlow, hhigh⟩ := h
    exact .steady ⟨hcallers ▸ hrolls, by omega, by omega⟩
  | rolling call hmem hrolls hothers hcap hreset =>
    exact .rolling call (hcallers ▸ hmem) hrolls (hcallers ▸ hothers) (by omega)
      fun hphase ↦ hanswers.trans (hreset hphase)

theorem Hour.enter (peerIp : Option ℕ) :
    Hour cfg { s with callers := ⟨host, peerIp, .gated⟩ :: s.callers } := by
  cases h with
  | steady h =>
    obtain ⟨hrolls, hlow, hhigh⟩ := h
    refine .steady ⟨fun other hother ↦ ?_, ?_, ?_⟩
    · rcases mem_cons.mp hother with rfl | hold
      · rfl
      · exact hrolls other hold
    · simpa [enqueued, slots, backed, Phase.holdsSlot, Phase.backs] using hlow
    · simpa [backed, Phase.backs] using hhigh
  | rolling roller hroller hrolls hothers hcap hreset =>
    have hne : (⟨host, peerIp, .gated⟩ : Caller) ≠ roller := by
      rintro rfl
      simp [Phase.rolls] at hrolls
    refine .rolling roller (mem_cons_of_mem _ hroller) hrolls (fun other hother ↦ ?_) hcap
      hreset
    rw [erase_cons_tail (by simpa using hne)] at hother
    rcases mem_cons.mp hother with rfl | hold
    · rfl
    · exact hothers other hold

section

variable (hmem : call ∈ s.callers)
include hmem

theorem Hour.outside (rest : List Caller)
    (hfrom : call.phase.inWindow = false) (hrest : ∀ other ∈ rest, other.phase.inWindow = false)
    (hcallers : t.callers = rest ++ s.callers.erase call) (hcount : t.hourlyCount = s.hourlyCount)
    (hanswers : t.enqueued = s.enqueued) : Hour cfg t := by
  have hzero (p : Caller → Bool) (hp : ∀ other, other.phase.inWindow = false → p other = false) :
      t.callers.countP p = s.callers.countP p := by
    have herase := countP_erase_add p hmem
    have hnone : rest.countP p = 0 :=
      countP_eq_zero.mpr fun other hother ↦ by simp [hp other (hrest other hother)]
    rw [hp call hfrom, Bool.toNat_false] at herase
    rw [hcallers, countP_append]
    omega
  have hslots : t.slots = s.slots := hzero _ fun _ hout ↦ (Phase.outside hout).2.1
  have hbacked : t.backed = s.backed := hzero _ fun _ hout ↦ (Phase.outside hout).2.2
  cases h with
  | steady h =>
    obtain ⟨hrolls, hlow, hhigh⟩ := h
    refine .steady ⟨fun other hother ↦ ?_, by omega, by omega⟩
    rw [hcallers] at hother
    rcases mem_append.mp hother with hnew | hold
    · exact (Phase.outside (hrest other hnew)).1
    · exact hrolls other (mem_of_mem_erase hold)
  | rolling roller hroller hrolls hothers hcap hreset =>
    have hin {other : Caller} (hout : other.phase.inWindow = false) : other ≠ roller := by
      rintro rfl
      exact absurd hrolls (by simp [(Phase.outside hout).1])
    have hrest' : roller ∉ rest := fun hr ↦ hin (hrest roller hr) rfl
    refine .rolling roller ?_ hrolls (fun other hother ↦ ?_) (by omega)
      fun hphase ↦ hanswers.trans (hreset hphase)
    · rw [hcallers]
      exact mem_append_right _ ((mem_erase_of_ne (hin hfrom).symm).mpr hroller)
    · rw [hcallers, erase_append_right _ hrest', erase_comm] at hother
      rcases mem_append.mp hother with hnew | hold
      · exact hrest other hnew
      · exact hothers other (mem_of_mem_erase hold)

theorem Hour.readWindow (hphase : call.phase = .timed now)
    (horderly : Orderly s (.caller call)) : Hour cfg (s.callStep cfg call) := by
  have hothers := horderly now hphase
  have hcap := h.le_cap
  cases h with
  | rolling roller hroller hrolls _ _ _ =>
    have hne : roller ≠ call := by
      rintro rfl
      simp [hphase, Phase.rolls] at hrolls
    have hquiet := (hothers roller ((mem_erase_of_ne hne).mpr hroller)).1
    exact absurd hrolls (by simp [hquiet])
  | steady h =>
    simp only [callStep, hphase]
    split
    case isTrue helapsed =>
      refine .rolling ⟨call.host, call.peerIp, .rolling now⟩ mem_cons_self rfl
        (fun other hother ↦ ?_) hcap nofun
      rw [goOn, erase_cons_head] at hother
      exact (hothers other hother).2 helapsed
    case isFalse =>
      exact .steady (h.goOn hmem hphase rfl rfl rfl le_rfl h.high)

section

variable (hout : call.phase.inWindow = false)
include hout

theorem Hour.goOn (hto : phase.inWindow = false) : Hour cfg (s.goOn call phase) :=
  h.outside hmem [⟨call.host, call.peerIp, phase⟩] hout (by simpa using hto) rfl rfl rfl

theorem Hour.skip (hne : outcome ≠ .enqueued) : Hour cfg (s.answer call outcome) :=
  h.outside hmem [] hout (by simp) rfl rfl (enqueued_answer call outcome hne)

theorem Hour.before (horderly : Orderly s (.caller call)) : Hour cfg (s.callStep cfg call) := by
  have hnovel (novelty) : Hour cfg { s with ipNovelty := novelty } := h.of_eq rfl rfl rfl
  by_cases htimed : ∃ now, call.phase = .timed now
  · obtain ⟨now, hphase⟩ := htimed
    exact h.readWindow hmem hphase horderly
  fun_cases Process.callStep cfg s call
  case case1 hverdict => exact h.skip hmem hout (verdict_ne_enqueued hverdict)
  case case2 | case3 | case6 => exact h.goOn hmem hout rfl
  case case4 ip _ _ =>
    obtain ⟨novelty, heq⟩ := s.allowIpNovelty_eq ip
    rw [heq]
    exact (hnovel novelty).goOn hmem hout rfl
  case case5 ip _ _ =>
    obtain ⟨novelty, heq⟩ := s.allowIpNovelty_eq ip
    rw [heq]
    exact (hnovel novelty).skip hmem hout (by simp)
  case case7 now hphase _ | case8 now hphase _ => exact absurd ⟨now, hphase⟩ htimed
  all_goals simp [*, Phase.inWindow] at hout

end

theorem Hour.callStep (horderly : Orderly s (.caller call)) : Hour cfg (s.callStep cfg call) := by
  cases hin : call.phase.inWindow with
  | false => exact h.before hmem hin horderly
  | true =>
    cases h with
    | steady h => exact .steady (h.count hmem hin)
    | rolling roller hroller hrolls hothers hcap hreset =>
      by_cases hsame : call = roller
      · subst hsame
        exact .roll hrolls hothers hreset
      · have hout := hothers call ((mem_erase_of_ne hsame).mpr hmem)
        exact absurd hin (by simp [hout])

end

theorem Hour.step (horderly : Orderly s a) (hstep : s.step u cfg a = some t) : Hour cfg t := by
  revert horderly hstep
  fun_cases Process.step u cfg s a <;> intro horderly hstep
  case case13 =>
    obtain ⟨hcallers, hcount, hanswers⟩ := issuanceStep_callers hstep
    exact h.of_eq hcallers hcount (congrArg (List.count _) hanswers)
  case case15 =>
    obtain ⟨-, -, -, -, -, rfl⟩ := provisionStep_eq hstep
    exact h.of_eq rfl rfl rfl
  case case17 =>
    obtain ⟨-, -, rfl⟩ := timeoutStep_eq hstep
    exact h.of_eq rfl rfl rfl
  case case19 =>
    obtain ⟨⟨next, rows⟩, -, rfl⟩ := Option.map_eq_some_iff.mp hstep
    cases next <;> exact h.of_eq rfl rfl rfl
  case case21 => exact horderly.elim
  all_goals cases hstep
  case case4.refl hgate =>
    refine h.of_eq rfl rfl ?_
    simp [enqueued, gate_ne_enqueued hgate]
  case case5.refl peerIp _ => exact h.enter peerIp
  case case6.refl hmem => exact h.callStep hmem horderly
  all_goals exact h.of_eq rfl rfl rfl

end

structure Kept (cfg : OnDemandCertConfig) (stale : Text → Bool) (s : Process) : Prop where
  tallied : Tallied stale s
  permitted : Permitted cfg s
  waited : Waited s
  hour : Hour cfg s

theorem Kept.step (h : Kept cfg stale s) (horderly : Orderly s a)
    (hstep : s.step u cfg a = some t) : Kept cfg stale t where
  tallied := h.tallied.step horderly.stays hstep
  permitted := h.permitted.step h.tallied horderly hstep
  waited := h.waited.step h.tallied horderly.stays hstep
  hour := h.hour.step horderly hstep

theorem kept_new {clock : ℕ} {rows : List DomainRow} {routes : Text → Option Bool}
    {state : Text → Option OnDemandCertState} :
    Kept cfg (fun host ↦ (state host).any OnDemandCertState.inFlight)
      (.new clock rows routes state) where
  tallied := tallied_new
  permitted := ⟨Nat.zero_le _, Nat.zero_le _, fun _ ↦ Nat.zero_le _⟩
  waited := by
    refine ⟨fun host ↦ ?_, nofun⟩
    simp only [dueBy, Process.new]
    rcases state host with _ | _ | _ | backoff
    · exact Nat.zero_le _
    · exact Nat.zero_le _
    · exact Nat.zero_le _
    · exact Nat.le_refl backoff
  hour := .steady ⟨nofun, Nat.zero_le _, Nat.zero_le _⟩

theorem Kept.bounded (h : Kept cfg stale s) : Bounded cfg s where
  single := h.permitted.single
  total := h.permitted.total
  waited attempt hmem hphase := by
    have hwork : attempt.phase.atWork := by simp [hphase, AttemptPhase.atWork]
    exact h.waited.elapsed_of_inFlight (h.tallied.of_job (jobs_pos_of_atWork hmem hwork)).2.1
  hourly := h.hour.le_cap

/-- The bounds hold at every moment of a process that takes orderly steps only. -/
theorem issuance_bounded {clock : ℕ} {rows : List DomainRow} {routes : Text → Option Bool}
    {seeded : Bool} (h : Reaches (step u cfg) Orderly (.start clock rows routes seeded) s) :
    Bounded cfg s :=
  (h.invariant (fun hs ha hstep ↦ hs.step ha hstep) kept_new).bounded

/-- The test that only a call of `try_enqueue` alone reads the window, and that no call of the
provisioner starts after a timeout. -/
def alone (s : Process) : Act → Bool
  | .restart _ _ => false
  | .issuance _ => s.orphans.isEmpty
  | .caller call => (s.callers.erase call).isEmpty
  | _ => true

theorem orderly_of_alone (s : Process) (a : Act) (h : alone s a) : Orderly s a := by
  cases a with
  | restart => exact absurd h (by simp [alone])
  | issuance attempt => exact fun _ ↦ List.isEmpty_iff.mp h
  | caller call =>
    intro now _ other hother
    rw [List.isEmpty_iff.mp h] at hother
    exact nomatch hother
  | _ => trivial

theorem issuance_bounded_sample :
    ((exec (step asciiTables (sampleConfig 1)) alone (.start 1000000 [] (fun _ ↦ some true) false)
      (enqueueActs 1000000 ++ spawnActs)).any fun s ↦ s.load (· == sampleHost) == 1) = true ∧
    ∀ s ∈ exec (step asciiTables (sampleConfig 1)) alone
      (.start 1000000 [] (fun _ ↦ some true) false) (enqueueActs 1000000 ++ spawnActs),
      Bounded (sampleConfig 1) s :=
  ⟨by decide +kernel, fun _ hs ↦ issuance_bounded (reaches_exec orderly_of_alone hs)⟩

def timeoutThenRetry : List Act :=
  enqueueActs 1000000 ++ spawnActs ++
    [.tick 120, .timeout ⟨sampleHost, .running .entered⟩, .issuance ⟨sampleHost, .expired⟩,
     .issuance ⟨sampleHost, .done⟩, .tick 300] ++
    enqueueActs 1000420 ++ spawnActs

def rollOverTwice : List Act :=
  let first (phase : Phase) : Act := .caller ⟨['a', '.', 'z'], none, phase⟩
  let second (phase : Phase) : Act := .caller ⟨['b', '.', 'z'], none, phase⟩
  [.tick 3600, .tryEnqueue ['a', '.', 'z'] none, .tryEnqueue ['b', '.', 'z'] none,
   first .gated, first .checked, first .admitted, first (.timed 1003600),
   second .gated, second .checked, second .admitted, second (.timed 1003600),
   first (.rolling 1003600), second (.rolling 1003600), first .resetting, second .resetting,
   first .granted, first (.claiming 1003600), first .sending,
   second .granted, second (.claiming 1003600), second .sending]

/-- Two calls of the provisioner run for one hostname, with one permit; and an hourly window with a
cap of one has two `Enqueued` answers. -/
theorem timeout_and_rollover_break_bounds :
    ((exec (step asciiTables (sampleConfig 2)) (fun _ _ ↦ true)
      (.start 1000000 [] (fun _ ↦ some true) false) timeoutThenRetry).any fun s ↦
        s.load (· == sampleHost) == 2 && s.load (fun _ ↦ true) == 2 &&
          (sampleConfig 2).maxConcurrent == 1) = true ∧
    ((exec (step asciiTables (sampleConfig 1)) (fun _ _ ↦ true)
      (.start 1000000 [] (fun _ ↦ some true) false) rollOverTwice).any fun s ↦
        s.enqueued == 2 && (sampleConfig 1).hourlyCap == 1) = true :=
  ⟨by decide +kernel, by decide +kernel⟩

end Process

end Temps.Proxy.OnDemandCert
