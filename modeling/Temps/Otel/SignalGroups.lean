import Temps.Otel.ReadWindow

namespace Temps.Otel

open Lib List

def resolveAnalyticsReadWindow (inYears : DBDateTime → Bool) (s : System) (projectId : ProjectId)
    (fromTime toTime : DBDateTime) : WindowResolution :=
  resolveWindow (intervalsCoveringForGroup inYears s projectId fromTime toTime .analytics) fromTime
    toTime

/-- Where `settings` says that the spans go. -/
def ProjectTelemetryWriteSettings.effective (x : ProjectTelemetryWriteSettings) :
    CloudTelemetryWriteMode × Option TelemetryWriteIntervalReason :=
  (x.effectiveMode, x.effectiveReason)

def Act.sets : Act → Option TelemetrySignalGroup
  | .setWriteMode .. => some .spans
  | .setAnalyticsWriteMode .. => some .analytics
  | _ => none

/-- A call that sets a mode, suspends or resumes, or the passing of time. -/
def Act.Switches : Act → Prop
  | .setWriteMode .. | .setAnalyticsWriteMode .. | .suspendCloudWrites .. | .resumeCloudWrites _
  | .tick _ => True
  | _ => False

def without (group : TelemetrySignalGroup) (acts : List Act) : List Act :=
  acts.filter (·.sets ≠ some group)

/-- The second system is the first one as if the mode of the group had never been set. -/
structure Erased (group : TelemetrySignalGroup) (s t : System) : Prop where
  projects : t.db.projects = s.db.projects.map (·.setMode .localStore group)
  intervals : t.db.intervals = s.db.intervals.filter (·.signalGroup ≠ group)
  now : t.now = s.now
  suspension : t.suspension = s.suspension

section CloseAndOpen

variable {now : DBDateTime} {ids : List ProjectId} {mode : CloudTelemetryWriteMode}
  {reason : TelemetryWriteIntervalReason} {group group' : TelemetrySignalGroup}
  {intervals : List WriteInterval}

theorem filter_closed : (intervals.map (closedRow now ids mode group)).filter
    (·.signalGroup ≠ group') =
      (intervals.filter (·.signalGroup ≠ group')).map (closedRow now ids mode group) := by
  simp [filter_map, Function.comp_def]

theorem closeAndOpen_left_out :
    (closeAndOpenIntervalsForGroup now ids mode reason group intervals).filter
      (·.signalGroup ≠ group) = intervals.filter (·.signalGroup ≠ group) := by
  by_cases hne : ids = []
  · rw [closeAndOpenIntervalsForGroup, if_pos hne]
  · have hopened (missing : List ProjectId) :
        (missing.map fun id ↦ (⟨id, group, mode, now, none, reason⟩ : WriteInterval)).filter
          (·.signalGroup ≠ group) = [] := by
      simp
    rw [closeAndOpen_eq hne, filter_append, hopened, append_nil, filter_closed]
    refine (map_congr_left fun i hi ↦ if_neg fun hc ↦ ?_).trans (map_id _)
    exact of_decide_eq_true (mem_filter.mp hi).2 hc.2.1

theorem closeAndOpen_kept (h : group ≠ group') :
    closeAndOpenIntervalsForGroup now ids mode reason group
        (intervals.filter (·.signalGroup ≠ group')) =
      (closeAndOpenIntervalsForGroup now ids mode reason group intervals).filter
        (·.signalGroup ≠ group') := by
  by_cases hne : ids = []
  · rw [closeAndOpenIntervalsForGroup, closeAndOpenIntervalsForGroup, if_pos hne, if_pos hne]
  · have hmissing (closed : List WriteInterval) :
        missing ids group (closed.filter (·.signalGroup ≠ group')) = missing ids group closed := by
      refine filter_congr fun id _ ↦ congrArg _ ?_
      grind
    simp only [closeAndOpen_eq hne, filter_append]
    rw [← filter_closed, hmissing]
    rw [append_right_inj, eq_comm, filter_eq_self, forall_mem_map]
    exact fun _ _ ↦ decide_eq_true h

end CloseAndOpen

namespace Erased

variable {s t s' t' : System} {group group' : TelemetrySignalGroup} {p : ProjectId}
  {requested mode : CloudTelemetryWriteMode} {link : CloudLinkSnapshot} {calls : DbCalls}
  {reason : TelemetryWriteIntervalReason}

section

variable (h : Erased group s t)
include h

theorem find_row : (t.db.projects.find? fun row ↦ row.id = p ∧ row.deleted = false) =
    (s.db.projects.find? fun row ↦ row.id = p ∧ row.deleted = false).map
      (·.setMode .localStore group) := by
  rw [h.projects, find?_map]
  cases group <;> rfl

theorem projectRow_eq : projectRow t calls p =
    (projectRow s calls p).map (·.setMode .localStore group) := by
  rw [projectRow, projectRow, h.find_row]
  cases calls.read with
  | false => rfl
  | true =>
    cases s.db.projects.find? fun row ↦ row.id = p ∧ row.deleted = false <;> rfl

theorem same (hs : SameLedger s s') (ht : SameLedger t t') : Erased group s' t' := by
  obtain ⟨outbox, rfl⟩ := hs
  obtain ⟨outbox', rfl⟩ := ht
  exact { h with }

theorem changed_left_out : Erased group (Otel.changed s p group requested) t where
  __ := h
  projects := by
    simp only [Otel.changed, h.projects, map_map]
    refine map_congr_left fun row _ ↦ ?_
    simp only [Function.comp_apply, updated]
    split
    · cases group <;> rfl
    · rfl
  intervals := by
    simp only [Otel.changed, closeAndOpen_left_out, h.intervals]

theorem move (committed : Bool) :
    Erased group (moveDeclaredCloudProjectsTo s mode reason committed).1
      (moveDeclaredCloudProjectsTo t mode reason committed).1 := by
  cases committed with
  | false => exact h
  | true =>
    refine { h with intervals := ?_ }
    simp only [moveDeclaredCloudProjectsTo, closeAndOpenIntervals, declaredCloudProjects, if_true,
      h.projects, h.intervals, h.now, filter_map, map_map]
    cases group with
    | spans =>
      -- no project is declared, and the rows of the others are none of this group
      rw [closeAndOpen_left_out, closeAndOpenIntervalsForGroup]
      simp [Project.setMode]
    | analytics => exact closeAndOpen_kept (by simp)

section

variable (hne : group' ≠ group)
include hne

theorem ledger_eq : ledger t.db.intervals p group' = ledger s.db.intervals p group' := by
  rw [ledger, ledger, h.intervals, filter_filter]
  grind

theorem changes_eq :
    changes t p group' requested link calls = changes s p group' requested link calls := by
  rw [changes, changes, h.projectRow_eq]
  cases projectRow s calls p with
  | error e => rfl
  | ok row =>
    have hgate : gate p (row.setMode .localStore group) requested link =
        gate p row requested link := by cases group <;> rfl
    simp only [Except.map, hgate, mode_setMode_other hne]

theorem changed :
    Erased group (changed s p group' requested) (changed t p group' requested) where
  __ := h
  projects := by
    simp only [Otel.changed, h.projects, map_map]
    refine map_congr_left fun row _ ↦ ?_
    simp only [Function.comp_apply, updated, setMode_id]
    split
    · cases group <;> cases group' <;> first | rfl | exact absurd rfl hne
    · rfl
  intervals := by
    simp only [Otel.changed, h.intervals, h.now]
    exact closeAndOpen_kept hne

end

variable (hs : Sane s)
include hs

theorem changeMode_left_out :
    Erased group (Otel.changeMode s p group requested link calls).1 t := by
  cases hc : changes s p group requested link calls with
  | false => rwa [(changeMode_of_not_changes hc).1]
  | true =>
    rw [changeMode_of_changes hs hc]
    exact h.changed_left_out

theorem step_left_out {a : Act} (hsets : a.sets = some group) : Erased group (step s a) t := by
  have hsame : SameLedger t t := ⟨_, rfl⟩
  cases a with
  | setWriteMode q requested link calls reached =>
    obtain rfl := Option.some.inj hsets
    exact (h.changeMode_left_out hs).same (setWriteMode_same reached) hsame
  | setAnalyticsWriteMode q requested link calls =>
    obtain rfl := Option.some.inj hsets
    rw [step, setAnalyticsWriteMode_fst]
    exact h.changeMode_left_out hs
  | _ => cases hsets

variable (ht : Sane t)
include ht

theorem changeMode (hne : group' ≠ group) :
    Erased group (changeMode s p group' requested link calls).1
      (changeMode t p group' requested link calls).1 := by
  have hsame : changes t p group' requested link calls = changes s p group' requested link calls :=
    h.changes_eq hne
  cases hc : changes s p group' requested link calls with
  | false => rwa [(changeMode_of_not_changes hc).1, (changeMode_of_not_changes (hsame.trans hc)).1]
  | true =>
    rw [changeMode_of_changes hs hc, changeMode_of_changes ht (hsame.trans hc)]
    exact h.changed hne

theorem step_kept {a : Act} (ha : a.Switches)
    (hsets : a.sets ≠ some group) : Erased group (step s a) (step t a) := by
  cases a with
  | setWriteMode q requested link calls reached =>
    exact (h.changeMode hs ht fun heq ↦ hsets (congrArg some heq)).same (setWriteMode_same reached)
      (setWriteMode_same reached)
  | setAnalyticsWriteMode q requested link calls =>
    rw [step, step, setAnalyticsWriteMode_fst, setAnalyticsWriteMode_fst]
    exact h.changeMode hs ht fun heq ↦ hsets (congrArg some heq)
  | suspendCloudWrites suspension committed =>
    have hflag : Erased group { s with suspension } { t with suspension } :=
      { h with suspension := rfl }
    rw [step, step, suspendCloudWrites, suspendCloudWrites, h.suspension]
    split
    · exact hflag
    · exact hflag.move committed
  | resumeCloudWrites committed =>
    have hflag : Erased group { s with suspension := .none } { t with suspension := .none } :=
      { h with suspension := rfl }
    rw [step, step, resumeCloudWrites, resumeCloudWrites, h.suspension]
    split
    · exact hflag.move committed
    · exact h
  | tick elapsed => exact { h with now := congrArg (· + elapsed) h.now }
  | _ => exact ha.elim

theorem run {acts : List Act} (hacts : ∀ a ∈ acts, a.Switches) :
    Erased group (run s acts) (run t (without group acts)) := by
  induction acts generalizing s t with
  | nil => exact h
  | cons a acts ih =>
    obtain ⟨ha, hacts⟩ := forall_mem_cons.mp hacts
    rw [without, filter_cons]
    split
    case isTrue hsets =>
      exact ih (h.step_kept hs ht ha (of_decide_eq_true hsets)) (hs.step a) (ht.step a) hacts
    case isFalse hsets =>
      exact ih (h.step_left_out hs (by simpa using hsets)) (hs.step a) ht hacts

end

/-- At most one interval of a group is open, so the query finds it whatever its order. -/
theorem openIntervals_eq (h : Erased .analytics s t) (hs : Sane s) {i : WriteInterval}
    (hi : i ∈ openIntervals s p) (hgroup : i.signalGroup = .spans) : openIntervals t p = [i] := by
  have hrows : openIntervals t p = (ledger s.db.intervals p .spans).filter (·.effectiveTo = none) := by
    rw [openIntervals, h.intervals, ledger, filter_filter, filter_filter]
    refine filter_congr fun j _ ↦ ?_
    cases j.signalGroup <;> simp [Bool.and_comm]
  have hfound : i ∈ openIntervals t p := by
    simp_all [openIntervals, ledger]
  have hstretch : (openIntervals t p).map WriteInterval.stretch =
      (timeline s.db.intervals p .spans).filter (·.stop = none) := by
    rw [hrows, timeline, filter_map]
    rfl
  have hadjoins := hs.adjoins p .spans
  rcases eq_nil_or_concat' (timeline s.db.intervals p .spans) with hnil | ⟨front, last, hlast⟩
  · rw [hnil, filter_nil, map_eq_nil_iff] at hstretch
    rw [hstretch] at hfound
    cases hfound
  · rw [hlast] at hstretch hadjoins
    rw [hadjoins.filter_open] at hstretch
    obtain ⟨j, hj⟩ := length_eq_one_iff.mp (by simpa using congrArg length hstretch)
    rw [hj] at hfound ⊢
    rw [mem_singleton.mp hfound]

theorem settings_eq (h : Erased .analytics s t) (hs : Sane s) (calls : DbCalls)
    (hopen : ∀ i, openInterval s calls p = some i → i.signalGroup = .spans) :
    (settings t calls p).map (·.effective) = (settings s calls p).map (·.effective) := by
  have hsame : openInterval t calls p = openInterval s calls p := by
    cases hfound : openInterval s calls p with
    | none =>
      have hnone : openIntervals s p = [] := by
        by_contra hne
        have hlt := Nat.mod_lt calls.found (length_pos_iff.mpr hne)
        exact absurd (getElem?_eq_none_iff.mp hfound) (Nat.not_le.mpr hlt)
      have hempty : openIntervals t p = [] := by
        rw [openIntervals, filter_eq_nil_iff] at hnone ⊢
        rw [h.intervals]
        exact fun i hi ↦ hnone i (mem_of_mem_filter hi)
      rw [openInterval, hempty]
      rfl
    | some i =>
      rw [openInterval, h.openIntervals_eq hs (mem_of_getElem? hfound) (hopen i hfound),
        length_singleton, Nat.mod_one]
      rfl
  rw [settings, settings, hsame, h.find_row]
  cases calls.settings with
  | false => rfl
  | true =>
    cases s.db.projects.find? fun row ↦ row.id = p ∧ row.deleted = false <;> rfl

end Erased

theorem Fresh.erased {s : System} (h : Fresh s) (group : TelemetrySignalGroup) :
    Erased group s s := by
  refine ⟨((map_congr_left fun row hrow ↦ ?_).trans (map_id _)).symm, ?_, rfl, rfl⟩
  · have hmode := h.modes row hrow group
    cases group <;> rw [← hmode] <;> rfl
  · rw [h.intervals]
    rfl

/-- The windows of a group are the same if the calls that set the mode of the other group are left
out; and so is where the spans of a project go, unless `open_interval` finds an interval of the
analytics. -/
theorem groups_independent {s : System} (h : Fresh s) (acts : List Act)
    (hacts : ∀ a ∈ acts, a.Switches) (inYears : DBDateTime → Bool) (p : ProjectId) :
    (∀ fromTime toTime,
      resolveReadWindow inYears (run s (without .analytics acts)) p fromTime toTime =
        resolveReadWindow inYears (run s acts) p fromTime toTime ∧
      resolveAnalyticsReadWindow inYears (run s (without .spans acts)) p fromTime toTime =
        resolveAnalyticsReadWindow inYears (run s acts) p fromTime toTime) ∧
    ∀ calls, (∀ i, openInterval (run s acts) calls p = some i → i.signalGroup = .spans) →
      (settings (run s (without .analytics acts)) calls p).map (·.effective) =
        (settings (run s acts) calls p).map (·.effective) := by
  have hspans := (h.erased .analytics).run h.sane h.sane hacts
  have hanalytics := (h.erased .spans).run h.sane h.sane hacts
  refine ⟨fun fromTime toTime ↦ ⟨?_, ?_⟩, hspans.settings_eq (h.sane.run acts)⟩
  · simp only [resolveReadWindow, intervalsCoveringForGroup,
      hspans.ledger_eq (by decide : .spans ≠ _)]
  · simp only [resolveAnalyticsReadWindow, intervalsCoveringForGroup,
      hanalytics.ledger_eq (by decide : .analytics ≠ _)]

theorem groups_independent_spans_first :
    let acts : List Act := [.setWriteMode 1 .cloud linkedSnapshot allSucceed [],
      .setAnalyticsWriteMode 1 .cloud linkedSnapshot allSucceed]
    (settings (run linkedInstance (without .analytics acts)) allSucceed 1).map (·.effective) =
      (settings (run linkedInstance acts) allSucceed 1).map (·.effective) :=
  (groups_independent linkedInstance_fresh _ (by simp [Act.Switches]) (fun _ ↦ true) 1).2
    allSucceed (by decide)

/-- The analytics of the project are switched to Cloud: `settings` says that its spans go there. -/
theorem analytics_shown_as_spans :
    let acts : List Act := [.setAnalyticsWriteMode 1 .cloud linkedSnapshot allSucceed]
    Fresh linkedInstance ∧
    (settings (run linkedInstance acts) allSucceed 1).map (·.effective) =
      .ok (.cloud, some .operator) ∧
    (settings (run linkedInstance (without .analytics acts)) allSucceed 1).map (·.effective) =
      .ok (.localStore, none) :=
  ⟨linkedInstance_fresh, rfl, rfl⟩

end Temps.Otel
