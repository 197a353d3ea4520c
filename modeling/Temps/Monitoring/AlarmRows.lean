import Temps.Monitoring.Evaluator

namespace Temps.Monitoring

open List Function

def openAlarms (s : System) (r : RuleId) : List Alarm :=
  s.alarms.filter fun a ↦ a.ruleId = r ∧ a.isOpen

/-- What the process knows of the alarms in the database: every open one is tracked, and each was
fired in the scope of its rule. -/
structure Tracked (s : System) : Prop where
  rules : (s.rules.map Rule.id).Nodup
  nodup : (s.alarms.map Alarm.id).Nodup
  fresh : ∀ a ∈ s.alarms, a.id < s.nextAlarmId
  tracked : ∀ a ∈ s.alarms, a.isOpen → s.firingAlarms a.ruleId = some a.id
  scope : ∀ a ∈ s.alarms, ∃ rule ∈ s.rules, rule.id = a.ruleId ∧
    a.context = s.resolveAlarmContext {} rule

variable {s s' : System} {a a' : Alarm} {cycle : Cycle} {rule : Rule} {r : RuleId}
  {alarms : List Alarm}

theorem mem_openAlarms : a ∈ openAlarms s r ↔ a ∈ s.alarms ∧ a.ruleId = r ∧ a.isOpen := by
  simp [openAlarms]

structure Fewer (alarms alarms' : List Alarm) : Prop where
  ids : (alarms'.map Alarm.id).Sublist (alarms.map Alarm.id)
  row : ∀ a' ∈ alarms', ∃ a ∈ alarms, a'.id = a.id ∧ a'.ruleId = a.ruleId ∧
    a'.context = a.context ∧ (a'.isOpen → a.isOpen)

theorem Fewer.refl : Fewer alarms alarms :=
  ⟨.refl _, fun a ha ↦ ⟨a, ha, rfl, rfl, rfl, id⟩⟩

theorem fewer_map {edit : Alarm → Alarm} (hid : ∀ a, (edit a).id = a.id)
    (hrule : ∀ a, (edit a).ruleId = a.ruleId) (hcontext : ∀ a, (edit a).context = a.context)
    (hopen : ∀ a ∈ alarms, (edit a).isOpen → a.isOpen) : Fewer alarms (alarms.map edit) := by
  refine ⟨?_, fun a' ha' ↦ ?_⟩
  · rw [map_map]
    exact (map_congr_left fun a _ ↦ hid a) ▸ .refl _
  · obtain ⟨a, ha, rfl⟩ := mem_map.mp ha'
    exact ⟨a, ha, hid a, hrule a, hcontext a, hopen a ha⟩

theorem fewer_setStatus {id : AlarmId} {status : AlarmStatus}
    (hopen : status ≠ .resolved → ∀ a ∈ s.alarms, a.id = id → a.isOpen) :
    Fewer s.alarms (s.setStatus id status).alarms := by
  refine fewer_map (fun a ↦ ?_) (fun a ↦ ?_) (fun a ↦ ?_) fun a ha ↦ ?_
  all_goals split
  case refine_4.isTrue hid =>
    intro hstatus
    exact hopen (of_decide_eq_true hstatus) a ha hid
  case refine_4.isFalse => exact fun hopen ↦ hopen
  all_goals rfl

structure Beside (s s' : System) : Prop where
  rules : s'.rules = s.rules
  deployments : s'.deployments = s.deployments
  projectServices : s'.projectServices = s.projectServices
  nextAlarmId : s'.nextAlarmId = s.nextAlarmId

theorem Beside.context (h : Beside s s') (calls : Calls) (rule : Rule) :
    s'.resolveAlarmContext calls rule = s.resolveAlarmContext calls rule := by
  rw [System.resolveAlarmContext, System.resolveAlarmContext, h.deployments, h.projectServices]

structure SameAlarms (s s' : System) : Prop extends Beside s s' where
  alarms : s'.alarms = s.alarms
  firingAlarms : s'.firingAlarms = s.firingAlarms

def NoneNew (r : RuleId) (s s' : System) : Prop :=
  ∀ r' ≠ r, openAlarms s r' = [] → openAlarms s' r' = []

theorem openAlarms_eq_nil : openAlarms s r = [] ↔ ∀ a ∈ s.alarms, a.isOpen → a.ruleId ≠ r := by
  rw [eq_nil_iff_forall_not_mem]
  simp only [mem_openAlarms, not_and]
  exact ⟨fun h a ha hopen hr ↦ h a ha hr hopen, fun h a ha hr hopen ↦ h a ha hopen hr⟩

theorem Fewer.openAlarms (h : Fewer s.alarms s'.alarms) (hnil : openAlarms s r = []) :
    openAlarms s' r = [] := by
  rw [openAlarms_eq_nil] at hnil ⊢
  intro a' ha' hopen
  obtain ⟨a, ha, -, hrule, -, himp⟩ := h.row a' ha'
  exact hrule ▸ hnil a ha (himp hopen)

theorem SameAlarms.noneNew (h : SameAlarms s s') : NoneNew r s s' :=
  fun _ _ hnil ↦ Fewer.openAlarms (h.alarms.symm ▸ .refl) hnil

/-- What a step leaves of the alarms when it opens none and closes those of one rule. -/
structure Closed (r : RuleId) (s s' : System) : Prop where
  beside : Beside s s'
  fewer : Fewer s.alarms s'.alarms
  tracked : ∀ r' ≠ r, s'.firingAlarms r' = s.firingAlarms r'
  closed : openAlarms s' r = []

theorem findAlarm_eq_some {id : AlarmId} {projectId : Option ℤ} {alarm : Alarm}
    (h : s.findAlarm id projectId = some alarm) : alarm ∈ s.alarms ∧ alarm.id = id := by
  have hpred := List.find?_some h
  exact ⟨mem_of_find?_eq_some h, (of_decide_eq_true hpred).1⟩

theorem resolveAlarm_served (s : System) (id : AlarmId) (projectId : Option ℤ) :
    s.resolveAlarm true .done id projectId = match s.findAlarm id projectId with
      | none => (.notFound, s)
      | some alarm => if alarm.status = .resolved then (.ok, s) else (.ok, s.setStatus id .resolved) :=
  rfl

def newAlarm (s : System) (rule : Rule) : Alarm :=
  ⟨s.nextAlarmId, s.resolveAlarmContext {} rule, alarmTypeForRule rule, .firing, rule.id, s.now, none⟩

variable (s rule) (delay : ℤ)

theorem fireAlarm_served :
    s.fireAlarm { delay } rule =
      if s.isInCooldown (s.resolveAlarmContext {} rule) (alarmTypeForRule rule) then (none, s)
      else (some s.nextAlarmId, { s with
        alarms := s.alarms ++ [newAlarm s rule], nextAlarmId := s.nextAlarmId + 1 }) := by
  rw [System.fireAlarm]
  simp only [not_true_eq_false, false_or]
  rfl

theorem fireTracked_cases :
    SameAlarms s (s.fireTracked { delay } rule) ∨
    s.firingAlarms rule.id = none ∧ s.fireTracked { delay } rule = { s with
        alarms := s.alarms ++ [newAlarm s rule]
        nextAlarmId := s.nextAlarmId + 1
        firingAlarms := update s.firingAlarms rule.id (some s.nextAlarmId)
        log := .fire rule.id s.now rule.forDurationSecs :: s.log } := by
  have hsame : SameAlarms s s := ⟨⟨rfl, rfl, rfl, rfl⟩, rfl, rfl⟩
  rw [System.fireTracked]
  split
  case isTrue => exact .inl hsame
  case isFalse hnone =>
    rw [fireAlarm_served]
    set noted := s.note (.fire rule.id s.now rule.forDurationSecs)
    by_cases hcooldown :
        noted.isInCooldown (noted.resolveAlarmContext {} rule) (alarmTypeForRule rule)
    · left
      rw [if_pos hcooldown]
      exact ⟨⟨rfl, rfl, rfl, rfl⟩, rfl, rfl⟩
    · right
      rw [if_neg hcooldown]
      exact ⟨Option.not_isSome_iff_eq_none.mp hnone, rfl⟩

variable {s rule} {calls : Calls}

theorem establishBreach_same {found : Option UtcDateTime}
    (h : s.establishBreach calls rule = (found, s')) : SameAlarms s s' := by
  have hsame : SameAlarms s (s.claimBreachStart calls rule).2 := by
    fun_cases System.claimBreachStart <;> exact ⟨⟨rfl, rfl, rfl, rfl⟩, rfl, rfl⟩
  rw [System.establishBreach] at h
  split at h
  case h_1 =>
    obtain ⟨-, rfl⟩ := Prod.mk.inj h
    exact ⟨⟨rfl, rfl, rfl, rfl⟩, rfl, rfl⟩
  case h_2 =>
    rcases hcase : s.claimBreachStart calls rule with ⟨claimed, s''⟩
    rw [hcase] at h hsame
    cases claimed with
    | none | some =>
      obtain ⟨-, rfl⟩ := Prod.mk.inj h
      exact ⟨{ hsame with },
        hsame.alarms, hsame.firingAlarms⟩

theorem clearBreach_same : SameAlarms s (s.clearBreach calls r) := by
  rw [System.clearBreach, System.clearPersistedBreachStart]
  split <;> exact ⟨⟨rfl, rfl, rfl, rfl⟩, rfl, rfl⟩

structure Evaluated (cycle : Cycle) (rule : Rule) (s s' : System) : Prop where
  tracked : Tracked s'
  noneNew : NoneNew rule.id s s'
  rules : s'.rules = s.rules
  healed : (rule.source.bind cycle.metrics).any (assess rule · = .healthy) →
    openAlarms s' rule.id = []

variable (h : Tracked s)
include h

theorem Tracked.note (event : Event) : Tracked (s.note event) := { h with }

theorem Tracked.eq_of_id (ha : a ∈ s.alarms) (ha' : a' ∈ s.alarms)
    (hid : a.id = a'.id) : a = a' := inj_on_of_nodup_map h.nodup ha ha' hid

theorem Tracked.eq_of_open (ha : a ∈ s.alarms) (ha' : a' ∈ s.alarms)
    (hrule : a.ruleId = a'.ruleId) (hopen : a.isOpen) (hopen' : a'.isOpen) : a = a' := by
  refine h.eq_of_id ha ha' (Option.some.inj ?_)
  rw [← h.tracked a ha hopen, hrule, h.tracked a' ha' hopen']

theorem Tracked.atMostOne (r : RuleId) : (openAlarms s r).length ≤ 1 := by
  have hnodup : (openAlarms s r).Nodup := (List.Nodup.of_map _ h.nodup).filter _
  have hall {a a' : Alarm} (ha : a ∈ openAlarms s r) (ha' : a' ∈ openAlarms s r) : a = a' := by
    obtain ⟨hmem, hrule, hopen⟩ := mem_openAlarms.mp ha
    obtain ⟨hmem', hrule', hopen'⟩ := mem_openAlarms.mp ha'
    exact h.eq_of_open hmem hmem' (hrule.trans hrule'.symm) hopen hopen'
  match hrows : openAlarms s r with
  | [] => exact Nat.zero_le 1
  | [_] => exact le_rfl
  | a :: b :: rest =>
    rw [hrows] at hnodup hall
    obtain rfl := hall (mem_cons_self ..) (mem_cons_of_mem _ (mem_cons_self ..))
    exact absurd (mem_cons_self ..) (nodup_cons.mp hnodup).1

theorem Tracked.fewer (hbeside : Beside s s') (hfewer : Fewer s.alarms s'.alarms)
    (htracked : ∀ a ∈ s'.alarms, a.isOpen → s'.firingAlarms a.ruleId = s.firingAlarms a.ruleId) :
    Tracked s' where
  rules := hbeside.rules.symm ▸ h.rules
  nodup := hfewer.ids.nodup h.nodup
  fresh a' ha' := by
    obtain ⟨a, ha, hid, -⟩ := hfewer.row a' ha'
    rw [hid, hbeside.nextAlarmId]
    exact h.fresh a ha
  tracked a' ha' hopen := by
    obtain ⟨a, ha, hid, hrule, -, himp⟩ := hfewer.row a' ha'
    rw [htracked a' ha' hopen, hid, hrule]
    exact h.tracked a ha (himp hopen)
  scope a' ha' := by
    obtain ⟨a, ha, -, hrule, hcontext, -⟩ := hfewer.row a' ha'
    obtain ⟨rule, hmem, hid, hscope⟩ := h.scope a ha
    refine ⟨rule, hbeside.rules ▸ hmem, hrule ▸ hid, ?_⟩
    rw [hcontext, hscope, hbeside.context]

theorem Tracked.same (hs : SameAlarms s s') : Tracked s' :=
  h.fewer hs.toBeside (hs.alarms.symm ▸ .refl) fun _ _ _ ↦ congrFun hs.firingAlarms _

theorem Tracked.untracked (hnone : s.firingAlarms r = none) : openAlarms s r = [] := by
  refine openAlarms_eq_nil.mpr fun a ha hopen hid ↦ ?_
  have hsome := h.tracked a ha hopen
  rw [hid, hnone] at hsome
  cases hsome

theorem Tracked.closed (hs : Closed r s s') : Tracked s' :=
  h.fewer hs.beside hs.fewer fun a ha hopen ↦
    hs.tracked _ (openAlarms_eq_nil.mp hs.closed a ha hopen)

section

variable (hrule : rule ∈ s.rules)
include hrule

theorem Tracked.scope_eq (ha : a ∈ s.alarms)
    (hid : a.ruleId = rule.id) : a.context = s.resolveAlarmContext {} rule := by
  obtain ⟨owner, howner, heq, hcontext⟩ := h.scope a ha
  rwa [inj_on_of_nodup_map h.rules howner hrule (heq.trans hid)] at hcontext

theorem resolveTracked_closed : Closed rule.id s (s.resolveTracked { delay } rule) := by
  have htrack (id : Option AlarmId) : ∀ r' ≠ rule.id,
      update s.firingAlarms rule.id id r' = s.firingAlarms r' :=
    fun r' hr ↦ update_of_ne hr _ _
  rw [System.resolveTracked]
  cases hfiring : s.firingAlarms rule.id with
  | none => exact ⟨⟨rfl, rfl, rfl, rfl⟩, .refl, fun _ _ ↦ rfl, h.untracked hfiring⟩
  | some id =>
    -- an open alarm of the rule is the one that is tracked, and it is in the rule's scope
    have hopen {a : Alarm} (ha : a ∈ s.alarms) (hopen : a.isOpen) (hid : a.ruleId = rule.id) :
        a.id = id ∧ a.context.projectId = (s.resolveAlarmContext {} rule).projectId := by
      have hsome := h.tracked a ha hopen
      rw [hid, hfiring] at hsome
      exact ⟨(Option.some.inj hsome).symm, congrArg _ (h.scope_eq hrule ha hid)⟩
    have hserved := resolveAlarm_served (s.track rule.id none) id
      (s.resolveAlarmContext { delay } rule).projectId
    have hfound : (s.track rule.id none).findAlarm id
        (s.resolveAlarmContext { delay } rule).projectId =
      s.findAlarm id (s.resolveAlarmContext {} rule).projectId := rfl
    rw [hfound] at hserved
    dsimp only
    rw [hserved]
    cases hfind : s.findAlarm id (s.resolveAlarmContext {} rule).projectId with
    | none =>
      have hclosed : openAlarms s rule.id = [] := openAlarms_eq_nil.mpr fun a ha hopens hid ↦
        List.find?_eq_none.mp hfind a ha (decide_eq_true (hopen ha hopens hid))
      dsimp only
      split
      case isTrue => exact ⟨⟨rfl, rfl, rfl, rfl⟩, .refl, htrack none, hclosed⟩
      case isFalse =>
        refine ⟨⟨rfl, rfl, rfl, rfl⟩, .refl, fun r' hr ↦ ?_, hclosed⟩
        exact (update_of_ne hr _ _).trans (htrack none r' hr)
    | some alarm =>
      obtain ⟨hmem, hid⟩ := findAlarm_eq_some hfind
      dsimp only
      by_cases hresolved : alarm.status = .resolved
      · rw [if_pos hresolved]
        refine ⟨⟨rfl, rfl, rfl, rfl⟩, .refl, htrack none, openAlarms_eq_nil.mpr ?_⟩
        intro a ha hopens hrule'
        obtain rfl := h.eq_of_id ha hmem ((hopen ha hopens hrule').1.trans hid.symm)
        exact of_decide_eq_true hopens hresolved
      · rw [if_neg hresolved]
        refine ⟨⟨rfl, rfl, rfl, rfl⟩, fewer_setStatus (absurd rfl), htrack none,
          openAlarms_eq_nil.mpr ?_⟩
        intro a' ha' hopens hrule'
        obtain ⟨a, ha, rfl⟩ := mem_map.mp ha'
        by_cases heq : a.id = id
        · rw [if_pos heq] at hopens
          exact of_decide_eq_true hopens rfl
        · rw [if_neg heq] at hopens hrule'
          exact heq (hopen ha hopens hrule').1

theorem fireTracked_spec :
    Tracked (s.fireTracked { delay } rule) ∧ NoneNew rule.id s (s.fireTracked { delay } rule) ∧
      (s.fireTracked { delay } rule).rules = s.rules := by
  rcases fireTracked_cases s rule delay with hsame | ⟨hnone, hfired⟩
  · exact ⟨h.same hsame, hsame.noneNew, hsame.rules⟩
  · rw [hfired]
    have hothers := openAlarms_eq_nil.mp (h.untracked hnone)
    refine ⟨⟨h.rules, ?_, ?_, ?_, ?_⟩, ?_, rfl⟩
    · rw [map_append]
      refine h.nodup.append (nodup_singleton _) fun id hold hnew ↦ ?_
      obtain ⟨a, ha, rfl⟩ := mem_map.mp hold
      exact absurd (mem_singleton.mp hnew) (h.fresh a ha).ne
    · exact forall_mem_append.mpr ⟨fun a ha ↦ (h.fresh a ha).trans (Nat.lt_succ_self _),
        forall_mem_singleton.mpr (Nat.lt_succ_self _)⟩
    · refine forall_mem_append.mpr ⟨fun a ha hopen ↦ ?_, forall_mem_singleton.mpr fun _ ↦ ?_⟩
      · exact (update_of_ne (hothers a ha hopen) _ _).trans (h.tracked a ha hopen)
      · exact update_self ..
    · exact forall_mem_append.mpr
        ⟨h.scope, forall_mem_singleton.mpr ⟨rule, hrule, rfl, rfl⟩⟩
    · intro r' hr hnil
      rw [openAlarms_eq_nil] at hnil ⊢
      exact forall_mem_append.mpr ⟨hnil, forall_mem_singleton.mpr fun _ ↦ hr.symm⟩

theorem handleBreach_alarms :
    Tracked (s.handleBreach { delay } rule) ∧ NoneNew rule.id s (s.handleBreach { delay } rule) ∧
      (s.handleBreach { delay } rule).rules = s.rules := by
  rw [System.handleBreach]
  rcases hopen : s.establishBreach { delay } rule with ⟨found, s'⟩
  have hsame := establishBreach_same hopen
  have hs' := h.same hsame
  cases found with
  | none => exact ⟨hs', hsame.noneNew, hsame.rules⟩
  | some start =>
    dsimp only
    split
    case isTrue => exact ⟨hs', hsame.noneNew, hsame.rules⟩
    case isFalse =>
      obtain ⟨htracked, hnone, hrules⟩ := fireTracked_spec delay hs' (hsame.rules.symm ▸ hrule)
      exact ⟨htracked, fun r' hr hnil ↦ hnone r' hr (hsame.noneNew r' hr hnil),
        hrules.trans hsame.rules⟩

theorem evaluateRule_evaluated
    (hserved : cycle.calls rule.id = { delay := (cycle.calls rule.id).delay }) :
    Evaluated cycle rule s (evaluateRule cycle s rule) := by
  rw [evaluateRule]
  cases hmetrics : rule.source.bind cycle.metrics with
  | none =>
    refine ⟨h, fun _ _ hnil ↦ hnil, rfl, fun hhealthy ↦ ?_⟩
    rw [hmetrics] at hhealthy
    exact (nomatch hhealthy)
  | some latest =>
    have hnot (hassess : assess rule latest ≠ .healthy) {s' : System}
        (hhealthy : (rule.source.bind cycle.metrics).any (assess rule · = .healthy)) :
        openAlarms s' rule.id = [] := by
      rw [hmetrics] at hhealthy
      exact absurd (of_decide_eq_true hhealthy) hassess
    set calls := cycle.calls rule.id
    have hwait : SameAlarms s (s.wait calls.delay) := ⟨⟨rfl, rfl, rfl, rfl⟩, rfl, rfl⟩
    have hw := h.same hwait
    have hsame : SameAlarms (s.wait calls.delay)
      ((s.wait calls.delay).clearBreach calls rule.id) := clearBreach_same
    have hcleared := hw.same hsame
    dsimp only
    cases hassess : assess rule latest with
    | noData =>
      exact ⟨hcleared.note _, hsame.noneNew, hsame.rules, hnot (by rw [hassess]; exact nofun)⟩
    | healthy =>
      have hclosed := resolveTracked_closed calls.delay hcleared (hsame.rules.symm ▸ hrule)
      rw [← hserved] at hclosed
      exact ⟨(hcleared.closed hclosed).note _,
        fun r' hr hnil ↦ hclosed.fewer.openAlarms (hsame.noneNew r' hr hnil),
        hclosed.beside.rules.trans hsame.rules, fun _ ↦ hclosed.closed⟩
    | breaching =>
      have hbreach := handleBreach_alarms calls.delay hw hrule
      rw [← hserved] at hbreach
      exact ⟨hbreach.1, hbreach.2.1, hbreach.2.2, hnot (by rw [hassess]; exact nofun)⟩

end

theorem evaluateRules_evaluated {rules : List Rule} (hrules : rules ⊆ s.rules)
    (hnodup : (rules.map Rule.id).Nodup)
    (hserved : ∀ r, cycle.calls r = { delay := (cycle.calls r).delay }) :
    Tracked (rules.foldl (evaluateRule cycle) s) ∧
      (rules.foldl (evaluateRule cycle) s).rules = s.rules ∧
      (∀ r ∉ rules.map Rule.id, openAlarms s r = [] →
        openAlarms (rules.foldl (evaluateRule cycle) s) r = []) ∧
      ∀ rule ∈ rules, (rule.source.bind cycle.metrics).any (assess rule · = .healthy) →
        openAlarms (rules.foldl (evaluateRule cycle) s) rule.id = [] := by
  induction rules generalizing s with
  | nil => exact ⟨h, rfl, fun _ _ hnil ↦ hnil, forall_mem_nil _⟩
  | cons rule rest ih =>
    obtain ⟨hfirst, hrest⟩ := nodup_cons.mp hnodup
    obtain ⟨hmem, hsub⟩ := cons_subset.mp hrules
    have hone := evaluateRule_evaluated h hmem (hserved rule.id)
    obtain ⟨htracked, hsame, hothers, hhealed⟩ := ih hone.tracked (hone.rules.symm ▸ hsub) hrest
    refine ⟨htracked, hsame.trans hone.rules, fun r hr hnil ↦ ?_, fun other hother hhealthy ↦ ?_⟩
    · obtain ⟨hne, hout⟩ := not_or.mp (mt mem_cons.mpr hr)
      exact hothers r hout (hone.noneNew r hne hnil)
    · rcases mem_cons.mp hother with rfl | hin
      · exact hothers _ hfirst (hone.healed hhealthy)
      · exact hhealed other hin hhealthy

end Temps.Monitoring
