import Temps.Lib.Machine
import Temps.Monitoring.BreachWindows

namespace Temps.Monitoring

open Lib.Machine List

def Cycle.lapses (cycle : Cycle) (rule : Rule) : Bool :=
  (rule.source.bind cycle.metrics).any fun latest ↦ assess rule latest ≠ .breaching

/-- The window of a rule that is not loaded is forgotten. -/
def Forgets (s : System) (cycle : Cycle) (r : RuleId) : Prop :=
  (∃ other ∈ s.rules, s.active other) ∧
    (s.breachStartedAt r = none ∨ (s.breachStart r).isSome ∧ (cycle.calls r).clear ≠ .refused)

instance (s : System) (cycle : Cycle) (r : RuleId) : Decidable (Forgets s cycle r) :=
  inferInstanceAs (Decidable (_ ∧ (_ ∨ _ ∧ _)))

/-- A cycle leaves no window of a rule that it finds healthy, without data, disabled or
silenced. -/
def SettlesRule (s : System) (cycle : Cycle) (rule : Rule) : Prop :=
  (s.active rule → cycle.lapses rule →
    s.breachStartedAt rule.id = none ∨ (cycle.calls rule.id).clear ≠ .refused) ∧
  (¬ s.active rule → s.breachStart rule.id = none ∧ s.breachStartedAt rule.id = none ∨
    Forgets s cycle rule.id)

instance (s : System) (cycle : Cycle) (rule : Rule) : Decidable (SettlesRule s cycle rule) :=
  inferInstanceAs (Decidable ((_ → _ → _ ∨ _) ∧ (¬ _ → _ ∧ _ ∨ Forgets s cycle rule.id)))

def Settles (s : System) : Act → Prop
  | .cycle cycle => cycle.loaded → ∀ rule ∈ s.rules, SettlesRule (s.wait cycle.delay) cycle rule
  | _ => True

instance (s : System) : (act : Act) → Decidable (Settles s act)
  | .cycle cycle => inferInstanceAs (Decidable
      (cycle.loaded → ∀ rule ∈ s.rules, SettlesRule (s.wait cycle.delay) cycle rule))
  | .restart _ | .setEnabled _ _ | .silenceRule _ _ | .acknowledge _ _ | .resolve _ _
  | .silence _ _ _ | .delete _ | .wait _ => inferInstanceAs (Decidable True)

def Forward : Act → Prop
  | .cycle cycle => 0 ≤ cycle.delay ∧ ∀ r, 0 ≤ (cycle.calls r).delay
  | .restart startup => 0 ≤ startup.delay
  | .wait delay => 0 ≤ delay
  | _ => True

structure Fresh (s : System) : Prop where
  nodup : (s.rules.map Rule.id).Nodup
  breachStart : ∀ r, s.breachStart r = none
  breachStartedAt : ∀ r, s.breachStartedAt r = none
  log : s.log = []

variable {delay : ℤ}

theorem Fresh.sound {s : System} (h : Fresh s) : Sound s := by
  have hnone {r : RuleId} {start : UtcDateTime} : ¬ Window s r start := by
    rintro (hw | hw)
    · rw [h.breachStart r] at hw
      exact (nomatch hw)
    · rw [h.breachStartedAt r] at hw
      exact (nomatch hw)
  refine ⟨fun hw ↦ absurd hw hnone, fun hw ↦ absurd hw hnone, fun hu ↦ ?_, ?_⟩
  · rw [h.log] at hu
    exact (nomatch hu)
  · rw [h.log]
    trivial

section Cycles

variable {s s' : System} {cycle : Cycle} {rule : Rule} {rules : List Rule} {r : RuleId}

section

variable (h : Sound s)
include h

theorem Sound.wait (hdelay : 0 ≤ delay) : Sound (s.wait delay) :=
  h.of_windows rfl (le_add_of_nonneg_right hdelay) fun _ _ hw ↦ .inl hw

theorem evaluateRule_spec (hdelay : 0 ≤ (cycle.calls rule.id).delay)
    (hsettles : cycle.lapses rule →
      s.breachStartedAt rule.id = none ∨ (cycle.calls rule.id).clear ≠ .refused) :
    Sound (evaluateRule cycle s rule) ∧ Only rule.id s (evaluateRule cycle s rule) := by
  rw [evaluateRule]
  cases hmetrics : rule.source.bind cycle.metrics with
  | none => exact ⟨h, SameClock.refl.only⟩
  | some latest =>
    set calls := cycle.calls rule.id
    set waited := s.wait calls.delay
    have hwaited : Sound waited := h.wait hdelay
    have hlapse (hassess : assess rule latest ≠ .breaching) :
        s.breachStartedAt rule.id = none ∨ calls.clear ≠ .refused := by
      refine hsettles ?_
      rw [Cycle.lapses, hmetrics]
      exact decide_eq_true hassess
    have hcleared {s'' : System} (hassess : assess rule latest ≠ .breaching)
        (hsame : SameClock (waited.clearBreach calls rule.id) s'') :
        Sound (s''.note (.lapse rule.id waited.now)) ∧
          Only rule.id s (s''.note (.lapse rule.id waited.now)) := by
      have hnow : waited.now = s''.now := (hsame.now.trans clearBreach_now).symm
      have hclean (start : UtcDateTime) : ¬ Window s'' rule.id start := by
        rw [Window, hsame.breachStart, hsame.breachStartedAt]
        exact clearBreach_clean (hlapse hassess)
      have honly : Only rule.id waited s'' := only_clearBreach.trans hsame.only
      refine ⟨?_, { honly with }⟩
      rw [hnow]
      exact (hwaited.clearBreach.same hsame).lapse hclean
    dsimp only
    cases hassess : assess rule latest with
    | noData => exact hcleared (by simp [hassess]) .refl
    | healthy => exact hcleared (by simp [hassess]) resolveTracked_same
    | breaching =>
      obtain ⟨hsound, honly⟩ := handleBreach_spec hwaited calls rule
      exact ⟨hsound, { honly with }⟩

theorem evaluateRules_spec (hdelay : ∀ r, 0 ≤ (cycle.calls r).delay)
    (hnodup : (rules.map Rule.id).Nodup)
    (hsettles : ∀ rule ∈ rules, cycle.lapses rule →
      s.breachStartedAt rule.id = none ∨ (cycle.calls rule.id).clear ≠ .refused) :
    Sound (rules.foldl (evaluateRule cycle) s) ∧
      (rules.foldl (evaluateRule cycle) s).rules = s.rules := by
  induction rules generalizing s with
  | nil => exact ⟨h, rfl⟩
  | cons rule rest ih =>
    obtain ⟨hfirst, hrest⟩ := nodup_cons.mp hnodup
    obtain ⟨hsound, honly⟩ := evaluateRule_spec h (hdelay rule.id) (hsettles rule (by simp))
    have hmore := ih hsound hrest fun other hother hlapses ↦ by
      have hne : other.id ≠ rule.id := fun heq ↦ hfirst (heq ▸ mem_map_of_mem hother)
      rw [honly.persisted _ hne]
      exact hsettles other (mem_cons_of_mem _ hother) hlapses
    exact ⟨hmore.1, hmore.2.trans honly.rules⟩

theorem sound_noteAbsent
    (hclean : ∀ rule ∈ rules, ¬ s.active rule → ∀ start, ¬ Window s rule.id start) :
    Sound (noteAbsent s rules) := by
  have hall : ∀ r ∈ (rules.filter (!s.active ·)).map Rule.id, ∀ start, ¬ Window s r start := by
    intro r hr start
    obtain ⟨rule, hrule, rfl⟩ := mem_map.mp hr
    obtain ⟨hmem, hactive⟩ := mem_filter.mp hrule
    exact hclean rule hmem (by simpa using hactive) start
  have hsound := h.lapses hall
  rwa [map_map] at hsound

theorem sound_prune (ids : List RuleId) : Sound (prune cycle s ids) := by
  refine h.of_windows rfl le_rfl fun r start hw ↦ .inl ?_
  rcases hw with hw | hw
  · exact .inl (Option.ite_none_right_eq_some.mp hw).2
  · exact .inr (Option.ite_none_left_eq_some.mp hw).2

end

theorem prune_clean {ids : List RuleId} (hr : r ∉ ids)
    (h : s.breachStartedAt r = none ∨ (s.breachStart r).isSome ∧ (cycle.calls r).clear ≠ .refused)
    (start : UtcDateTime) : ¬ Window (prune cycle s ids) r start := by
  rintro (hw | hw)
  · exact hr (Option.ite_none_right_eq_some.mp hw).1
  · obtain ⟨hkept, hsome⟩ := Option.ite_none_left_eq_some.mp hw
    rcases h with hnone | ⟨hcached, hclear⟩
    · rw [hnone] at hsome
      exact (nomatch hsome)
    · exact hkept ⟨decide_eq_true ⟨hr, hcached⟩, hclear⟩

theorem sound_runCycle (h : Sound s) (hnodup : (s.rules.map Rule.id).Nodup)
    (hforward : Forward (.cycle cycle)) (hsettles : Settles s (.cycle cycle)) :
    Sound (runCycle cycle s) ∧ (runCycle cycle s).rules = s.rules := by
  obtain ⟨hdelay, hdelays⟩ := hforward
  have hwaited := h.wait hdelay
  rw [runCycle]
  split
  case isFalse => exact ⟨hwaited, rfl⟩
  case isTrue hloaded =>
    set waited := s.wait cycle.delay
    set loaded := waited.rules.filter waited.active with hdef
    by_cases hnil : loaded = []
    · rw [if_pos hnil]
      refine ⟨sound_noteAbsent hwaited fun rule hrule hactive start ↦ ?_, rfl⟩
      rcases (hsettles hloaded rule hrule).2 hactive with ⟨hcached, hpersisted⟩ | ⟨⟨other, ho⟩, -⟩
      · rw [Window, hcached, hpersisted]
        rintro (hw | hw) <;> cases hw
      · have hmem : other ∈ loaded := mem_filter.mpr ho
        rw [hnil] at hmem
        cases hmem
    · rw [if_neg hnil]
      have hpruned : Sound (noteAbsent (prune cycle waited (loaded.map Rule.id)) waited.rules) := by
        refine sound_noteAbsent (sound_prune hwaited _) fun rule hrule hactive ↦ ?_
        have hout : rule.id ∉ loaded.map Rule.id := by
          intro hin
          obtain ⟨other, hother, heq⟩ := mem_map.mp hin
          obtain ⟨hmem, ho⟩ := mem_filter.mp hother
          obtain rfl := inj_on_of_nodup_map hnodup hmem hrule heq
          exact hactive ho
        refine prune_clean hout ?_
        rcases (hsettles hloaded rule hrule).2 hactive with ⟨-, hpersisted⟩ | ⟨-, hforgets⟩
        · exact .inl hpersisted
        · exact hforgets
      have hperm := evaluationOrder_perm cycle loaded
      refine evaluateRules_spec hpruned hdelays ?_ fun rule hrule hlapses ↦ ?_
      · exact ((hperm.map _).nodup_iff).mpr ((filter_sublist.map _).nodup hnodup)
      · have hmem := hperm.subset hrule
        obtain ⟨hin, hactive⟩ := mem_filter.mp hmem
        have hkept : (noteAbsent (prune cycle waited (loaded.map Rule.id))
            waited.rules).breachStartedAt rule.id = waited.breachStartedAt rule.id := by
          refine if_neg fun hdrop ↦ ?_
          exact (of_decide_eq_true hdrop.1).1 (mem_map_of_mem hmem)
        rw [hkept]
        exact (hsettles hloaded rule hin).1 hactive hlapses

end Cycles

variable {s : System} {acts : List Act} {projectId : Option ℤ} {startup : Startup}

theorem sound_restart (h : Sound s) (hdelay : 0 ≤ startup.delay) : Sound (restart startup s) := by
  have hlater : s.now ≤ s.now + startup.delay := le_add_of_nonneg_right hdelay
  rw [restart, loadBreachState]
  split
  case isTrue =>
    refine h.of_windows rfl hlater fun r start hw ↦ .inl (.inr ?_)
    rcases hw with hw | hw
    · exact (Option.filter_eq_some_iff.mp hw).1
    · exact (Option.ite_none_left_eq_some.mp hw).2
  case isFalse =>
    refine h.of_windows rfl hlater fun r start hw ↦ .inl (.inr ?_)
    rcases hw with hw | hw
    · exact (nomatch hw)
    · exact hw

theorem rules_restart : (restart startup s).rules = s.rules := by
  rw [restart, loadBreachState]
  split <;> rfl

theorem acknowledgeAlarm_same {id : AlarmId} : SameClock s (s.acknowledgeAlarm id projectId) := by
  fun_cases System.acknowledgeAlarm s id projectId
  case case1 | case3 => exact .refl
  case case2 => exact setStatus_same

theorem silenceAlarm_same {id : AlarmId} {duration : ℤ} :
    SameClock s (s.silenceAlarm id projectId duration) := by
  fun_cases System.silenceAlarm s id projectId duration <;> exact ⟨rfl, rfl, rfl, rfl, rfl⟩

theorem sound_step (h : Sound s) (hnodup : (s.rules.map Rule.id).Nodup) {act : Act}
    (hforward : Forward act) (hsettles : Settles s act) :
    Sound (step s act) ∧ ((step s act).rules.map Rule.id).Nodup := by
  have hedit {id : RuleId} {edit : Rule → Rule} (hid : ∀ rule, (edit rule).id = rule.id) :
      Sound (s.editRule id edit) ∧ ((s.editRule id edit).rules.map Rule.id).Nodup :=
    ⟨h.of_windows rfl le_rfl fun _ _ hw ↦ .inl hw, (editRule_ids hid).symm ▸ hnodup⟩
  have hsame {s' : System} (hs' : SameClock s s') :
      Sound s' ∧ (s'.rules.map Rule.id).Nodup := ⟨h.same hs', hs'.rules.symm ▸ hnodup⟩
  cases act with
  | cycle cycle =>
    obtain ⟨hsound, hrules⟩ := sound_runCycle h hnodup hforward hsettles
    exact ⟨hsound, hrules.symm ▸ hnodup⟩
  | restart startup => exact ⟨sound_restart h hforward, rules_restart.symm ▸ hnodup⟩
  | setEnabled | silenceRule => exact hedit fun _ ↦ rfl
  | acknowledge => exact hsame acknowledgeAlarm_same
  | resolve id projectId =>
    have hpair : s.resolveAlarm true .done id projectId = (_, _) := rfl
    exact hsame (resolveAlarm_same hpair)
  | silence => exact hsame silenceAlarm_same
  | delete => exact hsame ⟨rfl, rfl, rfl, rfl, rfl⟩
  | wait => exact ⟨h.wait hforward, hnodup⟩

theorem sound_run (h : Sound s) (hnodup : (s.rules.map Rule.id).Nodup)
    (hforward : ∀ act ∈ acts, Forward act) (hsettles : Along step Settles s acts) :
    Sound (run s acts) := by
  induction acts generalizing s with
  | nil => exact h
  | cons act acts ih =>
    obtain ⟨hact, hacts⟩ := forall_mem_cons.mp hforward
    obtain ⟨hsound, hids⟩ := sound_step h hnodup hact hsettles.1
    exact ih hsound hids hacts hsettles.2

/-- Over any run, an alarm is fired only for a breach that has lasted, if each cycle that finds a
rule healthy, without data, disabled or silenced leaves no window of it behind. -/
theorem alarms_sustained (hs : Fresh s) (hforward : ∀ act ∈ acts, Forward act)
    (hsettles : Along step Settles s acts) : Sustained (run s acts).log :=
  (sound_run hs.sound hs.nodup hforward hsettles).sustained

def oneRule : System :=
  .watching [{ id := 1, serviceId := some 7, name := "Connections", metricName := "connections",
               threshold := 10, comparator := ">", forDurationSecs := 60 }]

def reading (delay : ℤ) (value : ℚ) : Act :=
  .cycle { delay := seconds delay, metrics := fun _ ↦ some fun _ ↦ some value }

theorem forward_reading (h : 0 ≤ delay) (value : ℚ) : Forward (reading delay value) :=
  ⟨Int.mul_nonneg h (by decide), fun _ ↦ le_rfl⟩

theorem breach_of_a_minute :
    Sustained (run oneRule [reading 30 20, reading 30 20, reading 30 20]).log := by
  have hforward : Forward (reading 30 20) := forward_reading (by decide) 20
  have hfresh : Fresh oneRule := ⟨by decide, fun _ ↦ rfl, fun _ ↦ rfl, rfl⟩
  apply alarms_sustained hfresh
  · exact forall_mem_cons.mpr ⟨hforward, by simpa using hforward⟩
  · exact ⟨by decide, by decide, by decide, trivial⟩

/-- The rule is disabled during the second cycle, which loads no rule and keeps the window. -/
theorem disabled_in_between :
    ¬ Sustained (run oneRule [reading 30 20, .setEnabled 1 false, reading 30 20,
      .setEnabled 1 true, reading 30 20]).log := by
  rintro ⟨⟨s, hs, hlapse⟩, -⟩
  exact hlapse (seconds 60) (mem_singleton_self _) (lt_of_le_of_lt hs (by decide))

end Temps.Monitoring
