import Temps.Monitoring.Evaluator

namespace Temps.Monitoring

open List Function Option

/-- Each call of `fire_alarm` comes after a breach that no cycle has interrupted for as long as the
rule asks. -/
def Sustained : List Event → Prop
  | [] => True
  | .lapse _ _ :: log => Sustained log
  | .fire rule time forDurationSecs :: log =>
    (∃ s, s ≤ time - seconds forDurationSecs ∧ ∀ u, .lapse rule u ∈ log → ¬ s < u) ∧ Sustained log

def Window (s : System) (r : RuleId) (start : UtcDateTime) : Prop :=
  s.breachStart r = some start ∨ s.breachStartedAt r = some start

structure Sound (s : System) : Prop where
  started : ∀ {r start}, Window s r start → start ≤ s.now
  unbroken : ∀ {r start u}, Window s r start → .lapse r u ∈ s.log → u ≤ start
  past : ∀ {r u}, .lapse r u ∈ s.log → u ≤ s.now
  sustained : Sustained s.log

section Windows

variable {s s' : System} {r : RuleId} {start : UtcDateTime} {lapsed : List RuleId}

theorem Sound.of_windows (h : Sound s) (hlog : s'.log = s.log) (hnow : s.now ≤ s'.now)
    (hw : ∀ r start, Window s' r start → Window s r start ∨ start = s.now) : Sound s' where
  started {r start} hwin := by
    rcases hw r start hwin with hold | rfl
    · exact (h.started hold).trans hnow
    · exact hnow
  unbroken {r start u} hwin hu := by
    rw [hlog] at hu
    rcases hw r start hwin with hold | rfl
    · exact h.unbroken hold hu
    · exact h.past hu
  past {r u} hu := by
    rw [hlog] at hu
    exact (h.past hu).trans hnow
  sustained := hlog ▸ h.sustained

theorem sustained_lapses {log : List Event} (h : Sustained log) {time : UtcDateTime} :
    Sustained (lapsed.map (.lapse · time) ++ log) := by
  induction lapsed with
  | nil => exact h
  | cons _ _ ih => exact ih

theorem Sound.lapses (h : Sound s) (hclean : ∀ r ∈ lapsed, ∀ start, ¬ Window s r start) :
    Sound { s with log := lapsed.map (.lapse · s.now) ++ s.log } := by
  have hcases {r : RuleId} {u : UtcDateTime}
      (hu : .lapse r u ∈ lapsed.map (Event.lapse · s.now) ++ s.log) :
      r ∈ lapsed ∧ u = s.now ∨ .lapse r u ∈ s.log := by
    rcases mem_append.mp hu with hnew | hold
    · obtain ⟨r', hr', heq⟩ := mem_map.mp hnew
      cases heq
      exact .inl ⟨hr', rfl⟩
    · exact .inr hold
  refine ⟨h.started, fun hw hu ↦ ?_, fun hu ↦ ?_, ?_⟩
  · rcases hcases hu with ⟨hr, -⟩ | hold
    · exact absurd hw (hclean _ hr _)
    · exact h.unbroken hw hold
  · rcases hcases hu with ⟨-, rfl⟩ | hold
    · exact le_rfl
    · exact h.past hold
  · exact sustained_lapses h.sustained

theorem Sound.lapse (h : Sound s) (hclean : ∀ start, ¬ Window s r start) :
    Sound (s.note (.lapse r s.now)) := by
  have hall : ∀ r' ∈ [r], ∀ start, ¬ Window s r' start := fun _ hr ↦ mem_singleton.mp hr ▸ hclean
  exact h.lapses hall

theorem Sound.fire (h : Sound s) {forDurationSecs : ℤ} (hw : Window s r start)
    (hlong : start ≤ s.now - seconds forDurationSecs) :
    Sound (s.note (.fire r s.now forDurationSecs)) := by
  have hcases {r' : RuleId} {u : UtcDateTime}
      (hu : .lapse r' u ∈ (s.note (.fire r s.now forDurationSecs)).log) : .lapse r' u ∈ s.log :=
    (mem_cons.mp hu).resolve_left nofun
  refine ⟨h.started, fun hw hu ↦ h.unbroken hw (hcases hu), fun hu ↦ h.past (hcases hu),
    ⟨start, hlong, fun u hu ↦ not_lt.mpr (h.unbroken hw hu)⟩, h.sustained⟩

end Windows

variable {s s' s'' : System} {calls : Calls} {cycle : Cycle} {rule : Rule} {r : RuleId}
  {start : UtcDateTime}

structure SameClock (s s' : System) : Prop where
  rules : s'.rules = s.rules
  breachStart : s'.breachStart = s.breachStart
  breachStartedAt : s'.breachStartedAt = s.breachStartedAt
  now : s'.now = s.now
  log : s'.log = s.log

theorem SameClock.refl : SameClock s s := ⟨rfl, rfl, rfl, rfl, rfl⟩

theorem SameClock.trans (h : SameClock s s') (h' : SameClock s' s'') :
    SameClock s s'' where
  rules := h'.rules.trans h.rules
  breachStart := h'.breachStart.trans h.breachStart
  breachStartedAt := h'.breachStartedAt.trans h.breachStartedAt
  now := h'.now.trans h.now
  log := h'.log.trans h.log

theorem Sound.same (h : Sound s) (hs : SameClock s s') : Sound s' := by
  refine h.of_windows hs.log hs.now.ge fun r start hw ↦ .inl ?_
  rwa [Window, hs.breachStart, hs.breachStartedAt] at hw

theorem fireAlarm_same : SameClock s (s.fireAlarm calls rule).2 := by
  rw [System.fireAlarm]
  split
  case isTrue => exact .refl
  case isFalse =>
    cases calls.insert with
    | done | lost => exact ⟨rfl, rfl, rfl, rfl, rfl⟩
    | refused => exact .refl

theorem setStatus_same {id : AlarmId} {status : AlarmStatus} : SameClock s (s.setStatus id status) :=
  ⟨rfl, rfl, rfl, rfl, rfl⟩

theorem track_same {alarm : Option AlarmId} : SameClock s (s.track r alarm) :=
  ⟨rfl, rfl, rfl, rfl, rfl⟩

theorem resolveAlarm_same {find : Bool} {write : Write} {id : AlarmId} {projectId : Option ℤ}
    {outcome : System.Resolution}
    (h : s.resolveAlarm find write id projectId = (outcome, s')) : SameClock s s' := by
  revert h
  fun_cases System.resolveAlarm s find write id projectId <;> rintro ⟨⟩
  case case4 | case6 => exact setStatus_same
  all_goals exact .refl

theorem resolveTracked_same : SameClock s (s.resolveTracked calls rule) := by
  rw [System.resolveTracked]
  split
  case h_1 => exact .refl
  case h_2 id _ =>
    rcases hres : (s.track rule.id none).resolveAlarm calls.find calls.resolve id
      (s.resolveAlarmContext calls rule).projectId with ⟨outcome, resolved⟩
    have hsame : SameClock s resolved := track_same.trans (resolveAlarm_same hres)
    cases outcome with
    | ok => exact hsame
    | failed => exact hsame.trans track_same
    | notFound =>
      dsimp only
      split
      case isTrue => exact hsame
      case isFalse => exact hsame.trans track_same

structure Only (r : RuleId) (s s' : System) : Prop where
  rules : s'.rules = s.rules
  cached : ∀ r' ≠ r, s'.breachStart r' = s.breachStart r'
  persisted : ∀ r' ≠ r, s'.breachStartedAt r' = s.breachStartedAt r'

theorem SameClock.only (h : SameClock s s') : Only r s s' :=
  ⟨h.rules, fun r' _ ↦ congrFun h.breachStart r', fun r' _ ↦ congrFun h.breachStartedAt r'⟩

theorem Only.trans (h : Only r s s') (h' : Only r s' s'') : Only r s s'' where
  rules := h'.rules.trans h.rules
  cached r' hr := (h'.cached r' hr).trans (h.cached r' hr)
  persisted r' hr := (h'.persisted r' hr).trans (h.persisted r' hr)

theorem Only.window (h : Only r s s')
    (hr : ∀ start, Window s' r start → Window s r start ∨ start = s.now) {r' : RuleId}
    (hw : Window s' r' start) : Window s r' start ∨ start = s.now := by
  by_cases heq : r' = r
  · subst heq
    exact hr start hw
  · rw [Window, h.cached r' heq, h.persisted r' heq] at hw
    exact .inl hw

theorem Sound.only (h : Sound s) (honly : Only r s s') (hlog : s'.log = s.log)
    (hnow : s'.now = s.now)
    (hr : ∀ start, Window s' r start → Window s r start ∨ start = s.now) : Sound s' :=
  h.of_windows hlog hnow.ge fun _ _ hw ↦ honly.window hr hw

theorem clearBreach_eq : s.clearBreach calls r = { s with
    breachStart := update s.breachStart r none
    breachStartedAt :=
      if calls.clear = .refused then s.breachStartedAt else update s.breachStartedAt r none } := by
  rw [System.clearBreach, System.clearPersistedBreachStart]
  split <;> rfl

theorem only_clearBreach : Only r s (s.clearBreach calls r) := by
  rw [clearBreach_eq]
  refine ⟨rfl, fun r' hr ↦ update_of_ne hr _ _, fun r' hr ↦ ?_⟩
  split
  case isTrue => rfl
  case isFalse => exact update_of_ne hr _ _

theorem clearBreach_now : (s.clearBreach calls r).now = s.now := by
  rw [clearBreach_eq]

theorem window_clearBreach : Window (s.clearBreach calls r) r start ↔
    calls.clear = .refused ∧ s.breachStartedAt r = some start := by
  rw [Window, clearBreach_eq]
  by_cases hrefused : calls.clear = .refused
  · simp [hrefused]
  · simp [hrefused]

theorem Sound.clearBreach (h : Sound s) : Sound (s.clearBreach calls r) :=
  h.only only_clearBreach (by rw [clearBreach_eq]) clearBreach_now fun _ hw ↦
    .inl (.inr (window_clearBreach.mp hw).2)

theorem clearBreach_clean (h : s.breachStartedAt r = none ∨ calls.clear ≠ .refused) :
    ¬ Window (s.clearBreach calls r) r start := by
  intro hw
  obtain ⟨hrefused, hsome⟩ := window_clearBreach.mp hw
  rcases h with hnone | hclear
  · exact nomatch hnone.symm.trans hsome
  · exact hclear hrefused

structure Opened (r : RuleId) (s : System) (found : Option UtcDateTime) (s' : System) : Prop where
  only : Only r s s'
  log : s'.log = s.log
  now : s'.now = s.now
  window : ∀ start, Window s' r start → Window s r start ∨ start = s.now
  found : ∀ start ∈ found, Window s' r start

theorem Opened.none : Opened r s none s :=
  ⟨⟨rfl, fun _ _ ↦ rfl, fun _ _ ↦ rfl⟩, rfl, rfl, fun _ hw ↦ .inl hw, nofun⟩

theorem eq_of_update {f : RuleId → Option UtcDateTime} {a b : UtcDateTime}
    (h : update f r (some a) r = some b) : a = b := by
  rw [update_self] at h
  exact some.inj h

variable {found : Option UtcDateTime}

theorem opened_update (hstart : s.breachStartedAt r = some start ∨ start = s.now)
    (hfound : ∀ start' ∈ found, start' = start) :
    Opened r s found { s with breachStartedAt := update s.breachStartedAt r start } := by
  refine ⟨⟨rfl, fun _ _ ↦ rfl, fun r' hr ↦ update_of_ne hr _ _⟩, rfl, rfl, ?_, ?_⟩
  · rintro start' (hw | hw)
    · exact .inl (.inl hw)
    · obtain rfl : start = start' := eq_of_update hw
      exact hstart.imp .inr id
  · intro start' hstart'
    rw [hfound start' hstart']
    exact .inr (update_self ..)

theorem opened_claim (h : s.claimBreachStart calls rule = (found, s')) :
    Opened rule.id s found s' := by
  have hold : s.breachStartedAt rule.id = some ((s.breachStartedAt rule.id).getD s.now) ∨
      (s.breachStartedAt rule.id).getD s.now = s.now := by
    cases s.breachStartedAt rule.id with
    | none => exact .inr rfl
    | some _ => exact .inl rfl
  revert h
  fun_cases System.claimBreachStart calls s rule <;> intro h <;>
    obtain ⟨rfl, rfl⟩ := Prod.mk.inj h
  case case1 => exact .none
  case case2 | case5 => exact opened_update hold nofun
  case case3 => exact opened_update hold fun _ h ↦ (some.inj h).symm
  case case4 => exact opened_update (.inr rfl) fun _ h ↦ (some.inj h).symm
  case case6 => exact opened_update (.inr rfl) nofun

theorem Opened.cache (h : Opened r s (some start) s') :
    Opened r s (some start) { s' with breachStart := update s'.breachStart r start } where
  only := h.only.trans ⟨rfl, fun r' hr ↦ update_of_ne hr _ _, fun _ _ ↦ rfl⟩
  log := h.log
  now := h.now
  window start' hw := by
    rcases hw with hw | hw
    · obtain rfl : start = start' := eq_of_update hw
      exact h.window start (h.found start rfl)
    · exact h.window start' (.inr hw)
  found start' hstart' := by
    obtain rfl : start = start' := some.inj hstart'
    exact .inl (update_self ..)

theorem opened_establish (h : s.establishBreach calls rule = (found, s')) :
    Opened rule.id s found s' := by
  rw [System.establishBreach] at h
  split at h
  case h_1 startedAt hcached =>
    obtain ⟨rfl, rfl⟩ := Prod.mk.inj h
    refine { Opened.none with found := fun start hstart ↦ .inl ?_ }
    rw [hcached]
    exact hstart
  case h_2 =>
    rcases hclaim : s.claimBreachStart calls rule with ⟨claimed, s''⟩
    rw [hclaim] at h
    cases claimed with
    | none =>
      obtain ⟨rfl, rfl⟩ := Prod.mk.inj h
      exact opened_claim hclaim
    | some startedAt =>
      obtain ⟨rfl, rfl⟩ := Prod.mk.inj h
      exact (opened_claim hclaim).cache

theorem Sound.opened (h : Sound s) (ho : Opened r s found s') :
    Sound s' := h.only ho.only ho.log ho.now ho.window

theorem le_of_numSeconds {now start required : ℤ} (hstart : start ≤ now)
    (h : ¬ max (numSeconds (now - start)) 0 < max required 0) : start ≤ now - seconds required := by
  rw [numSeconds, Int.tdiv_eq_ediv_of_nonneg (sub_nonneg.mpr hstart)] at h
  rw [seconds]
  omega

theorem fireTracked_log (s : System) (calls : Calls) (rule : Rule) : s.fireTracked calls rule = s ∨
    SameClock (s.note (.fire rule.id s.now rule.forDurationSecs)) (s.fireTracked calls rule) := by
  rw [System.fireTracked]
  split
  case isTrue => exact .inl rfl
  case isFalse =>
    right
    have hsame : SameClock (s.note (.fire rule.id s.now rule.forDurationSecs))
      ((s.note (.fire rule.id s.now rule.forDurationSecs)).fireAlarm calls rule).2 := fireAlarm_same
    split
    case h_1 heq =>
      rw [heq] at hsame
      exact hsame.trans track_same
    case h_2 heq =>
      rw [heq] at hsame
      exact hsame

theorem handleBreach_spec (h : Sound s) (calls : Calls) (rule : Rule) :
    Sound (s.handleBreach calls rule) ∧ Only rule.id s (s.handleBreach calls rule) := by
  rw [System.handleBreach]
  rcases hopen : s.establishBreach calls rule with ⟨found, s'⟩
  have hopened := opened_establish hopen
  have hs' := h.opened hopened
  cases found with
  | none => exact ⟨hs', hopened.only⟩
  | some start =>
    have hw := hopened.found start rfl
    dsimp only
    split
    case isTrue => exact ⟨hs', hopened.only⟩
    case isFalse hlong =>
      rcases fireTracked_log s' calls rule with heq | hsame
      · rw [heq]
        exact ⟨hs', hopened.only⟩
      · have hfired := hs'.fire hw (le_of_numSeconds (hs'.started hw) hlong)
        refine ⟨hfired.same hsame, hopened.only.trans ?_⟩
        exact ⟨hsame.rules, hsame.only.cached, hsame.only.persisted⟩

end Temps.Monitoring
