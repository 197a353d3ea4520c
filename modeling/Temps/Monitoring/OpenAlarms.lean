import Temps.Lib.Machine
import Temps.Monitoring.AlarmRows

namespace Temps.Monitoring

open Lib.Machine List Function

def Cycle.heals (cycle : Cycle) (s : System) (rule : Rule) : Prop :=
  (s.wait cycle.delay).active rule ∧
    (rule.source.bind cycle.metrics).any fun latest ↦ assess rule latest = .healthy

/-- In every state of a run each rule has at most one open alarm, and none right after a cycle that
evaluated it as healthy. -/
structure Orderly (s : System) (acts : List Act) : Prop where
  atMostOne : ∀ front, front <+: acts → ∀ r, (openAlarms (run s front) r).length ≤ 1
  closed : ∀ front cycle, front ++ [.cycle cycle] <+: acts → ∀ rule ∈ (run s front).rules,
    cycle.heals (run s front) rule → openAlarms (run s (front ++ [.cycle cycle])) rule.id = []

def Served : Act → Prop
  | .cycle cycle => cycle.loaded ∧ ∀ r, cycle.calls r = { delay := (cycle.calls r).delay }
  | .restart startup =>
    startup.alarmLoads = 4 ∧ startup.breachLoad ∧ ∀ r, startup.clear r = .done
  | _ => True

/-- A cycle that loads a rule leaves out no rule with an open alarm, and the process does not start
while an alarm is open whose type it does not load. -/
def Retains (s : System) : Act → Prop
  | .cycle cycle => (∃ other ∈ s.rules, (s.wait cycle.delay).active other) →
      ∀ rule ∈ s.rules, ¬ (s.wait cycle.delay).active rule → openAlarms s rule.id = []
  | .restart _ => ∀ a ∈ s.alarms, a.isOpen → a.alarmType ≠ .otelRateLimited
  | _ => True

instance (s : System) (act : Act) : Decidable (Retains s act) := by
  cases act <;> dsimp only [Retains] <;> infer_instance

structure Started (s : System) : Prop where
  nodup : (s.rules.map Rule.id).Nodup
  alarms : s.alarms = []

theorem Started.tracked {s : System} (h : Started s) : Tracked s := by
  refine ⟨h.nodup, ?_, ?_, ?_, ?_⟩ <;> rw [h.alarms] <;> simp

variable {s : System} {act : Act} {acts : List Act} {cycle : Cycle}

theorem tracked_prune (h : Tracked s) {ids : List RuleId}
    (hclosed : ∀ rule ∈ s.rules, rule.id ∉ ids → openAlarms s rule.id = []) :
    Tracked (prune cycle s ids) := by
  refine h.fewer ⟨rfl, rfl, rfl, rfl⟩ .refl fun a ha hopen ↦ ?_
  obtain ⟨rule, hrule, hid, -⟩ := h.scope a ha
  refine if_pos ?_
  by_contra hout
  exact openAlarms_eq_nil.mp (hclosed rule hrule (hid ▸ hout)) a ha hopen hid.symm

theorem tracked_runCycle (h : Tracked s) (hserved : Served (.cycle cycle))
    (hretains : Retains s (.cycle cycle)) :
    Tracked (runCycle cycle s) ∧
      ∀ rule ∈ s.rules, cycle.heals s rule → openAlarms (runCycle cycle s) rule.id = [] := by
  obtain ⟨hloaded, hcalls⟩ := hserved
  set waited := s.wait cycle.delay with hwaited
  have hw : Tracked waited := h.same ⟨⟨rfl, rfl, rfl, rfl⟩, rfl, rfl⟩
  rw [runCycle, if_pos hloaded]
  set loaded := waited.rules.filter waited.active with hdef
  by_cases hnil : loaded = []
  · rw [if_pos hnil]
    refine ⟨hw.same ⟨⟨rfl, rfl, rfl, rfl⟩, rfl, rfl⟩, fun rule hrule hheals ↦ ?_⟩
    have hmem : rule ∈ loaded := mem_filter.mpr ⟨hrule, hheals.1⟩
    rw [hnil] at hmem
    exact (nomatch hmem)
  · rw [if_neg hnil]
    have hex : ∃ other ∈ s.rules, waited.active other := by
      obtain ⟨other, hother⟩ := exists_mem_of_ne_nil _ hnil
      exact ⟨other, mem_filter.mp hother⟩
    have hpruned : Tracked (noteAbsent (prune cycle waited (loaded.map Rule.id)) waited.rules) := by
      have ht : Tracked (prune cycle waited (loaded.map Rule.id)) := by
        refine tracked_prune hw fun rule hrule hout ↦ hretains hex rule hrule fun hactive ↦ ?_
        exact hout (mem_map_of_mem (mem_filter.mpr ⟨hrule, hactive⟩))
      exact ht.same ⟨⟨rfl, rfl, rfl, rfl⟩, rfl, rfl⟩
    have hperm := evaluationOrder_perm cycle loaded
    obtain ⟨htracked, -, -, hhealed⟩ := evaluateRules_evaluated hpruned
      (fun rule hrule ↦ (mem_filter.mp (hperm.subset hrule)).1)
      (((hperm.map _).nodup_iff).mpr ((filter_sublist.map _).nodup h.rules)) hcalls
    refine ⟨htracked, fun rule hrule hheals ↦ hhealed rule ?_ hheals.2⟩
    exact hperm.symm.subset (mem_filter.mpr ⟨hrule, hheals.1⟩)

variable {id : AlarmId} {projectId : Option ℤ}

theorem foldl_update_eq {rows : List Alarm} {map : RuleId → Option AlarmId} {r : RuleId}
    (hrows : ∀ b ∈ rows, b.ruleId = r → b.id = id)
    (h : map r = some id ∨ ∃ b ∈ rows, b.ruleId = r) :
    rows.foldl (fun (map : RuleId → Option AlarmId) (a : Alarm) ↦
      update map a.ruleId (some a.id)) map r = some id := by
  induction rows generalizing map with
  | nil =>
    rcases h with hmap | ⟨b, hb, -⟩
    · exact hmap
    · exact (nomatch hb)
  | cons b rows ih =>
    obtain ⟨hb, hrest⟩ := forall_mem_cons.mp hrows
    refine ih hrest ?_
    by_cases hr : b.ruleId = r
    · subst hr
      exact .inl ((update_self ..).trans (congrArg some (hb rfl)))
    · rcases h with hmap | ⟨b', hb', hr'⟩
      · exact .inl ((update_of_ne (Ne.symm hr) ..).trans hmap)
      · rcases mem_cons.mp hb' with rfl | hin
        · exact absurd hr' hr
        · exact .inr ⟨b', hin, hr'⟩

section

variable (h : Tracked s)
include h

theorem tracked_restart {startup : Startup} (hserved : Served (.restart startup))
    (hretains : Retains s (.restart startup)) : Tracked (restart startup s) := by
  have hloaded : Tracked { s with
      breachStart := fun _ ↦ none
      firingAlarms := loadFiringAlarms startup s
      now := s.now + startup.delay } := by
    refine h.fewer ⟨rfl, rfl, rfl, rfl⟩ .refl fun a ha hopen ↦ ?_
    rw [h.tracked a ha hopen]
    refine foldl_update_eq (fun b hb hrule ↦ ?_) (.inr ⟨a, ?_, rfl⟩)
    · obtain ⟨alarmType, -, hin⟩ := mem_flatMap.mp hb
      obtain ⟨hmem, hpred⟩ := mem_filter.mp hin
      rw [h.eq_of_open hmem ha hrule (of_decide_eq_true hpred).2 hopen]
    · have htype := hretains a ha hopen
      rw [hserved.1, mem_flatMap]
      refine ⟨a.alarmType, ?_, mem_filter.mpr ⟨ha, decide_eq_true ⟨rfl, hopen⟩⟩⟩
      revert htype
      cases a.alarmType <;> decide
  rw [restart, loadBreachState]
  split <;> exact hloaded.same ⟨⟨rfl, rfl, rfl, rfl⟩, rfl, rfl⟩

theorem tracked_editRule {id : RuleId} {edit : Rule → Rule} (hid : ∀ rule, (edit rule).id = rule.id)
    (hcontext : ∀ rule, s.resolveAlarmContext {} (edit rule) = s.resolveAlarmContext {} rule) :
    Tracked (s.editRule id edit) where
  __ := h
  rules := (editRule_ids hid).symm ▸ h.rules
  scope a ha := by
    obtain ⟨rule, hrule, heq, hscope⟩ := h.scope a ha
    refine ⟨_, mem_map_of_mem hrule, ?_⟩
    by_cases hrule' : rule.id = id
    · rw [if_pos hrule']
      exact ⟨(hid rule).trans heq, hscope.trans (hcontext rule).symm⟩
    · rw [if_neg hrule']
      exact ⟨heq, hscope⟩

theorem tracked_acknowledge : Tracked (s.acknowledgeAlarm id projectId) := by
  fun_cases System.acknowledgeAlarm s id projectId
  case case1 | case3 => exact h
  case case2 alarm hfind hfiring =>
    obtain ⟨hmem, hid⟩ := findAlarm_eq_some hfind
    refine h.fewer ⟨rfl, rfl, rfl, rfl⟩ (fewer_setStatus fun _ a ha heq ↦ ?_) fun _ _ _ ↦ rfl
    rw [h.eq_of_id ha hmem (heq.trans hid.symm)]
    exact decide_eq_true (by rw [hfiring]; exact nofun)

theorem tracked_resolve : Tracked (s.resolveAlarm true .done id projectId).2 := by
  rw [resolveAlarm_served]
  split
  case h_1 => exact h
  case h_2 =>
    split
    case isTrue => exact h
    case isFalse =>
      exact h.fewer ⟨rfl, rfl, rfl, rfl⟩ (fewer_setStatus (absurd rfl)) fun _ _ _ ↦ rfl

theorem tracked_silence {duration : ℤ} : Tracked (s.silenceAlarm id projectId duration) := by
  fun_cases System.silenceAlarm s id projectId duration
  case case1 | case2 => exact h
  case case3 =>
    refine h.fewer ⟨rfl, rfl, rfl, rfl⟩ (fewer_map ?_ ?_ ?_ ?_) fun _ _ _ ↦ rfl
    all_goals
      intro a
      split
    all_goals first | rfl | exact fun _ hopen ↦ hopen

theorem tracked_delete : Tracked (s.deleteAlarm id) := by
  refine h.fewer ⟨rfl, rfl, rfl, rfl⟩ ⟨filter_sublist.map _, fun a ha ↦ ?_⟩ fun _ _ _ ↦ rfl
  exact ⟨a, mem_of_mem_filter ha, rfl, rfl, rfl, fun hopen ↦ hopen⟩

theorem tracked_step (hserved : Served act) (hretains : Retains s act) : Tracked (step s act) := by
  cases act with
  | cycle cycle => exact (tracked_runCycle h hserved hretains).1
  | restart startup => exact tracked_restart h hserved hretains
  | setEnabled | silenceRule => exact tracked_editRule h (fun _ ↦ rfl) fun _ ↦ rfl
  | acknowledge => exact tracked_acknowledge h
  | resolve => exact tracked_resolve h
  | silence => exact tracked_silence h
  | delete => exact tracked_delete h
  | wait => exact h.same ⟨⟨rfl, rfl, rfl, rfl⟩, rfl, rfl⟩

theorem tracked_run (hserved : ∀ act ∈ acts, Served act)
    (hretains : Along step Retains s acts) : Tracked (run s acts) := by
  induction acts generalizing s with
  | nil => exact h
  | cons act acts ih =>
    obtain ⟨hact, hacts⟩ := forall_mem_cons.mp hserved
    exact ih (tracked_step h hact hretains.1) hacts hretains.2

end

/-- With all database calls served, a rule has at most one open alarm and recovery closes it, if no
rule with an open alarm leaves the evaluated set while others are evaluated, and the process does
not start while an alarm of the ingest limits is open. -/
theorem open_alarms_orderly (hs : Started s) (hserved : ∀ act ∈ acts, Served act)
    (hretains : Along step Retains s acts) : Orderly s acts := by
  have hfront {front rest : List Act} (heq : front ++ rest = acts) :
      Tracked (run s front) ∧ Along step Retains (run s front) rest := by
    subst heq
    obtain ⟨hbefore, hafter⟩ := along_append.mp hretains
    exact ⟨tracked_run hs.tracked (fun act hact ↦ hserved act (mem_append_left _ hact)) hbefore,
      hafter⟩
  constructor
  · rintro front ⟨rest, heq⟩ r
    exact (hfront heq).1.atMostOne r
  · rintro front cycle ⟨rest, heq⟩ rule hrule hheals
    rw [append_assoc] at heq
    obtain ⟨htracked, halong⟩ := hfront heq
    have hcycle : Served (.cycle cycle) := hserved _ (heq ▸ by simp)
    rw [run, foldl_append]
    exact (tracked_runCycle htracked hcycle halong.1).2 rule hrule hheals

def immediate (id : RuleId) (metricName : String) : Rule :=
  { id, serviceId := some 7, name := metricName, metricName, threshold := 10, comparator := ">",
    forDurationSecs := 0 }

def twoRules : System := .watching [immediate 1 "connections", immediate 2 "locks"]

def connections (value : ℚ) : Cycle where
  metrics _ := some fun name ↦ if name = "connections" then some value else none

theorem served_connections (value : ℚ) : Served (.cycle (connections value)) := ⟨rfl, fun _ ↦ rfl⟩

theorem breach_then_recovery :
    Orderly twoRules [.cycle (connections 20), .cycle (connections 5)] := by
  refine open_alarms_orderly ⟨by decide, rfl⟩ ?_ ⟨by decide, by decide, trivial⟩
  exact forall_mem_cons.mpr ⟨served_connections 20, by simpa using served_connections 5⟩

def disabledOnce : List Act :=
  [.cycle (connections 20), .setEnabled 1 false, .cycle (connections 20), .setEnabled 1 true,
    .cycle (connections 5)]

/-- The cycle that leaves the rule out forgets its alarm, which the recovery then does not close. -/
theorem alarm_outlives_recovery : Started twoRules ∧ (∀ act ∈ disabledOnce, Served act) ∧
    ¬ Orderly twoRules disabledOnce := by
  refine ⟨⟨by decide, rfl⟩, ?_, fun h ↦ ?_⟩
  · simp only [disabledOnce, forall_mem_cons]
    exact ⟨served_connections 20, trivial, served_connections 20, trivial, served_connections 5, nofun⟩
  · have hclosed := h.closed (disabledOnce.take 4) (connections 5) prefix_rfl
      (immediate 1 "connections") (by decide) ⟨by decide, by decide⟩
    exact absurd hclosed (by decide)

end Temps.Monitoring
