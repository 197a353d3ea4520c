import Temps.Lib.Machine
import Temps.Otel.WriteModes

namespace Temps.Otel

open Lib Lib.Timeline List

def Declared (s : System) (p : ProjectId) (group : TelemetrySignalGroup) : Prop :=
  ∃ row ∈ s.db.projects, row.id = p ∧ row.mode group = .cloud

/-- What holds in every state, whatever failed on the way to it. -/
structure Sane (s : System) : Prop where
  distinct : (s.db.projects.map (·.id)).Nodup
  checks : ∀ row ∈ s.db.projects, row.PassesChecks
  adjoins : ∀ p group, Adjoins (timeline s.db.intervals p group)
  started : ∀ p group, ∀ a ∈ timeline s.db.intervals p group, a.start ≤ s.now
  recorded : ∀ p group, Declared s p group → timeline s.db.intervals p group ≠ []
  first : ∀ p group, ∀ a ∈ (timeline s.db.intervals p group).head?, a.mode = .cloud

section Rows

variable {s : System} {p : ProjectId} {group group' : TelemetrySignalGroup}
  {mode : CloudTelemetryWriteMode} {row : Project}

@[simp] theorem setMode_id : (row.setMode mode group).id = row.id := by cases group <;> rfl

@[simp] theorem setMode_fidelity : (row.setMode mode group).fidelity = row.fidelity := by
  cases group <;> rfl

@[simp] theorem mode_setMode : (row.setMode mode group).mode group = mode := by
  cases group <;> rfl

theorem mode_setMode_other (h : group' ≠ group) :
    (row.setMode mode group).mode group' = row.mode group' := by
  cases group <;> cases group' <;> first | rfl | exact absurd rfl h

section

variable (fidelity : CloudTelemetryFidelity) (allowlist : Option (List String))

theorem setFidelity_id : (row.setFidelity fidelity allowlist).id = row.id := rfl

theorem setFidelity_mode :
    (row.setFidelity fidelity allowlist).mode group = row.mode group := by cases group <;> rfl

end

theorem passesChecks_iff : row.PassesChecks ↔
    ∀ group, row.mode group = .cloud → row.fidelity = .queryable := by
  constructor
  · rintro ⟨hspans, hanalytics⟩ group hmode
    cases group with
    | spans => exact hspans.resolve_left fun hne ↦ hne hmode
    | analytics => exact hanalytics.resolve_left fun hne ↦ hne hmode
  · intro h
    exact ⟨(em _).symm.imp_right fun hm ↦ h .spans hm, (em _).symm.imp_right fun hm ↦
      h .analytics hm⟩

theorem setMode_passesChecks (h : row.PassesChecks)
    (hmode : mode = .cloud → row.fidelity = .queryable) :
    (row.setMode mode group).PassesChecks := by
  rw [passesChecks_iff] at h ⊢
  intro group' hcloud
  rw [setMode_fidelity]
  by_cases hg : group' = group
  · rw [hg, mode_setMode] at hcloud
    exact hmode hcloud
  · rw [mode_setMode_other hg] at hcloud
    exact h group' hcloud

theorem projectRow_eq_ok {calls : DbCalls} (h : projectRow s calls p = .ok row) :
    row ∈ s.db.projects ∧ row.id = p := by
  revert h
  fun_cases projectRow s calls p <;> rintro ⟨⟩
  case case2 hfind =>
    refine ⟨mem_of_find?_eq_some hfind, ?_⟩
    simpa using And.left (by simpa using List.find?_some hfind)

theorem gate_cloud {link : CloudLinkSnapshot} (h : (gate p row mode link).isOk)
    (hmode : mode = .cloud) : row.fidelity = .queryable := by
  rw [gate, if_pos hmode] at h
  split at h
  · exact absurd h (by simp [Except.toBool])
  case isFalse hq => exact not_not.mp hq

theorem Sane.row_unique (h : Sane s) {row' : Project} (hrow : row ∈ s.db.projects)
    (hrow' : row' ∈ s.db.projects) (hid : row.id = row'.id) : row = row' :=
  inj_on_of_nodup_map h.distinct hrow hrow' hid

def updated (selects : Project → Bool) (f : Project → Project) (row : Project) : Project :=
  if selects row then f row else row

theorem updateProjects_eq_some {db db' : Database} {selects : Project → Bool}
    {f : Project → Project} : db.updateProjects selects f = some db' ↔
      (∀ row ∈ db.projects, selects row → (f row).PassesChecks) ∧
        { db with projects := db.projects.map (updated selects f) } = db' := by
  rw [Database.updateProjects, Option.ite_none_right_eq_some, Option.some.injEq]
  rfl

section Updated

variable {t : System} {selects : Project → Bool} {f : Project → Project}
  (hf : ∀ row, (f row).id = row.id) (ht : t.db.projects = s.db.projects.map (updated selects f))

include hf in
theorem updated_id : (updated selects f row).id = row.id := by
  unfold updated
  split
  · exact hf row
  · rfl

include ht in
theorem checks_updated (hs : ∀ row ∈ s.db.projects, row.PassesChecks)
    (hchecks : ∀ row ∈ s.db.projects, selects row → (f row).PassesChecks) :
    ∀ row ∈ t.db.projects, row.PassesChecks := by
  intro row' hrow'
  obtain ⟨row, hmem, rfl⟩ := mem_map.mp (ht ▸ hrow')
  unfold updated
  split
  case isTrue hsel => exact hchecks row hmem hsel
  case isFalse => exact hs row hmem

include hf ht

theorem ids_updated : t.db.projects.map (·.id) = s.db.projects.map (·.id) := by
  rw [ht, map_map]
  exact map_congr_left fun row _ ↦ updated_id hf

theorem declared_updated : Declared t p group ↔
    ∃ row ∈ s.db.projects, row.id = p ∧ (updated selects f row).mode group = .cloud := by
  rw [Declared, ht]
  constructor
  · rintro ⟨_, hrow, hid, hmode⟩
    obtain ⟨row, hmem, rfl⟩ := mem_map.mp hrow
    exact ⟨row, hmem, (updated_id hf).symm.trans hid, hmode⟩
  · rintro ⟨row, hmem, hid, hmode⟩
    exact ⟨_, mem_map_of_mem hmem, (updated_id hf).trans hid, hmode⟩

theorem declared_kept
    (hmode : ∀ row, row.id = p → selects row → (f row).mode group = row.mode group) :
    Declared t p group ↔ Declared s p group := by
  rw [declared_updated hf ht]
  refine exists_congr fun row ↦ and_congr_right fun _ ↦ and_congr_right fun hid ↦ ?_
  unfold updated
  split
  case isTrue hsel => rw [hmode row hid hsel]
  case isFalse => rfl

end Updated

theorem isCloudPrimary_iff (h : Sane s) : isCloudPrimary s p group ↔ Declared s p group := by
  rw [isCloudPrimary]
  split
  case h_1 hnone =>
    constructor
    · intro hf
      cases hf
    · rintro ⟨row, hrow, rfl, -⟩
      exact absurd (List.find?_eq_none.mp hnone row hrow) (by simp)
  case h_2 row hsome =>
    have hrow := mem_of_find?_eq_some hsome
    have hid : row.id = p := by simpa using List.find?_some hsome
    constructor
    · intro hprimary
      exact ⟨row, hrow, hid, by simpa using And.left (by simpa using hprimary)⟩
    · rintro ⟨row', hrow', hid', hmode⟩
      obtain rfl := h.row_unique hrow hrow' (hid.trans hid'.symm)
      simpa using ⟨hmode, passesChecks_iff.mp (h.checks row hrow) group hmode⟩

end Rows

def changes (s : System) (p : ProjectId) (group : TelemetrySignalGroup)
    (requested : CloudTelemetryWriteMode) (link : CloudLinkSnapshot) (calls : DbCalls) : Bool :=
  match projectRow s calls p with
  | .error _ => false
  | .ok row => (gate p row requested link).isOk && row.mode group ≠ requested && calls.write

section Change

variable {s : System} {p q : ProjectId} {group group' : TelemetrySignalGroup}
  {requested : CloudTelemetryWriteMode} {link : CloudLinkSnapshot} {calls : DbCalls}

def changed (s : System) (p : ProjectId) (group : TelemetrySignalGroup)
    (requested : CloudTelemetryWriteMode) : System :=
  { s with
    db.projects := s.db.projects.map (updated (·.id = p) (·.setMode requested group))
    db.intervals :=
      closeAndOpenIntervalsForGroup s.now [p] requested .operator group s.db.intervals }

theorem changeMode_of_not_changes (h : changes s p group requested link calls = false) :
    (changeMode s p group requested link calls).1 = s ∧
      (changeMode s p group requested link calls).2 ≠ .ok true := by
  rw [changes] at h
  rw [changeMode]
  split
  · simp
  case h_2 row hrow =>
    rw [hrow] at h
    split
    · simp
    case h_2 hgate =>
      by_cases hmode : row.mode group ≠ requested
      · have hwrite : calls.write = false := by simpa [hgate, hmode, Except.toBool] using h
        simp [hmode, hwrite]
      · simp [hmode]

variable (hs : Sane s) (h : changes s p group requested link calls)
include h

theorem exists_row_of_changes :
    ∃ row, projectRow s calls p = .ok row ∧ (gate p row requested link).isOk ∧
      row.mode group ≠ requested ∧ calls.write := by
  rw [changes] at h
  split at h
  · cases h
  case h_2 row hrow =>
    refine ⟨row, hrow, ?_⟩
    simpa [and_assoc] using h

theorem row_mem_of_changes : ∃ row ∈ s.db.projects, row.id = p ∧ row.mode group ≠ requested := by
  obtain ⟨row, hrow, -, hmode, -⟩ := exists_row_of_changes h
  obtain ⟨hmem, hid⟩ := projectRow_eq_ok hrow
  exact ⟨row, hmem, hid, hmode⟩

theorem declared_changed : Declared (changed s p group requested) p group ↔ requested = .cloud := by
  have hmode {row : Project} (hid : row.id = p) :
      (updated (·.id = p) (·.setMode requested group) row).mode group = requested := by
    rw [updated, if_pos (decide_eq_true hid), mode_setMode]
  rw [declared_updated (fun _ ↦ setMode_id) rfl]
  constructor
  · rintro ⟨row, -, hid, hcloud⟩
    exact (hmode hid).symm.trans hcloud
  · rintro rfl
    obtain ⟨row, hmem, hid, -⟩ := row_mem_of_changes h
    exact ⟨row, hmem, hid, hmode hid⟩

include hs

theorem checks_of_changes :
    ∀ row ∈ s.db.projects, decide (row.id = p) → (row.setMode requested group).PassesChecks := by
  intro row hmem hid
  obtain ⟨chosen, hchosen, hgate, -, -⟩ := exists_row_of_changes h
  obtain ⟨hmem', hid'⟩ := projectRow_eq_ok hchosen
  obtain rfl := hs.row_unique hmem hmem' ((of_decide_eq_true hid).trans hid'.symm)
  exact setMode_passesChecks (hs.checks row hmem) (gate_cloud hgate)

theorem changeMode_of_changes :
    changeMode s p group requested link calls = (changed s p group requested, .ok true) := by
  obtain ⟨row, hrow, hgate, hmode, hwrite⟩ := exists_row_of_changes h
  have hpersist : persistModeAndIntervalForGroup s p group requested .operator =
      some (changed s p group requested).db := by
    rw [persistModeAndIntervalForGroup, updateProjects_eq_some.mpr ⟨checks_of_changes hs h, rfl⟩]
    rfl
  have hpass : gate p row requested link = .ok () := by
    cases hg : gate p row requested link with
    | error e => rw [hg] at hgate; cases hgate
    | ok u => rfl
  simp only [changeMode, hrow, hpass, if_pos hmode, if_pos hwrite, hpersist]
  rfl

end Change

def CloudLink.up (link : CloudLink) : Bool := link.linked && link.telemetryEnabled

def availableAfter (s : System) : Act → Bool
  | .suspendCloudWrites suspension _ => s.link.up && !suspension.isSuspended
  | .resumeCloudWrites _ | .restart => s.link.up
  | .loseLink _ _ => false
  | .restoreLink => !s.suspension.isSuspended
  | _ => cloudWritesAvailable s

def switched (s : System) : Act → ProjectId → TelemetrySignalGroup → Option CloudTelemetryWriteMode
  | .setWriteMode q requested link calls _, p, group =>
    if changes s q .spans requested link calls ∧ p = q ∧ group = .spans then some requested else none
  | .setAnalyticsWriteMode q requested link calls, p, group =>
    if changes s q .analytics requested link calls ∧ p = q ∧ group = .analytics then some requested
    else none
  | .suspendCloudWrites suspension committed, p, group =>
    if (committed ∧ s.suspension ≠ suspension) ∧ group = .spans ∧ p ∈ declaredCloudProjects s
    then some .localStore else none
  | .resumeCloudWrites committed, p, group =>
    if (committed ∧ s.suspension.isSuspended) ∧ group = .spans ∧ p ∈ declaredCloudProjects s
    then some .cloud else none
  | .loseLink _ committed, p, group =>
    if committed ∧ group = .spans ∧ p ∈ declaredCloudProjects s then some .localStore else none
  | _, _, _ => none

def DeclaredAfter (s : System) : Act → ProjectId → TelemetrySignalGroup → Prop
  | .setWriteMode q requested link calls _, p, group =>
    if changes s q .spans requested link calls ∧ p = q ∧ group = .spans then requested = .cloud
    else Declared s p group
  | .setAnalyticsWriteMode q requested link calls, p, group =>
    if changes s q .analytics requested link calls ∧ p = q ∧ group = .analytics
    then requested = .cloud else Declared s p group
  | .loseLink _ committed, p, group => Declared s p group ∧ ¬ (committed ∧ group = .spans)
  | _, p, group => Declared s p group

structure Effect (s t : System) (available : Bool)
    (switched : ProjectId → TelemetrySignalGroup → Option CloudTelemetryWriteMode)
    (declared : ProjectId → TelemetrySignalGroup → Prop) : Prop where
  ids : t.db.projects.map (·.id) = s.db.projects.map (·.id)
  checks : ∀ row ∈ t.db.projects, row.PassesChecks
  timeline : ∀ p group, timeline t.db.intervals p group =
    (switched p group).elim (timeline s.db.intervals p group)
      (switch s.now · (timeline s.db.intervals p group))
  declared : ∀ p group, Declared t p group ↔ declared p group
  available : cloudWritesAvailable t = available
  now : s.now ≤ t.now

section Effects

variable {s t u : System} {p q : ProjectId} {group : TelemetrySignalGroup}
  {requested mode : CloudTelemetryWriteMode} {link : CloudLinkSnapshot} {calls : DbCalls}
  {available : Bool} {reason : TelemetryWriteIntervalReason}
  {switched : ProjectId → TelemetrySignalGroup → Option CloudTelemetryWriteMode}
  {declared : ProjectId → TelemetrySignalGroup → Prop}

theorem declared_congr (h : t.db.projects = s.db.projects) :
    Declared t p group ↔ Declared s p group := by
  rw [Declared, Declared, h]

/-- Only the outbox differs. -/
def SameLedger (s t : System) : Prop := ∃ outbox, t = { s with db.outbox := outbox }

theorem spillProject_same (s : System) (p : ProjectId) (reached : List ℕ) :
    SameLedger s (spillProject s p reached) := by
  rw [spillProject]
  split <;> exact ⟨_, rfl⟩

theorem enqueue_same (s : System) (p : ProjectId) (entityType : EntityType) (accepted : Bool) :
    SameLedger s (enqueue s p entityType accepted) := by
  rw [enqueue]
  split <;> exact ⟨_, rfl⟩

theorem Effect.same (h : Effect s t available switched declared) (hu : SameLedger t u) :
    Effect s u available switched declared := by
  obtain ⟨outbox, rfl⟩ := hu
  exact { h with }

theorem Effect.congr {available' : Bool}
    {switched' : ProjectId → TelemetrySignalGroup → Option CloudTelemetryWriteMode}
    (h : Effect s t available switched declared) (havailable : available = available')
    (hswitched : ∀ p group, switched p group = switched' p group) :
    Effect s t available' switched' declared :=
  { h with
    timeline := fun p group ↦ hswitched p group ▸ h.timeline p group
    available := h.available.trans havailable }

theorem setWriteMode_same (reached : List ℕ) :
    SameLedger (changeMode s q .spans requested link calls).1
      (setWriteMode s q requested link calls reached).1 := by
  rw [setWriteMode]
  split
  case h_1 heq => rw [heq]; exact ⟨_, rfl⟩
  case h_2 s' changed heq =>
    rw [heq]
    split
    · exact spillProject_same s' q reached
    · exact ⟨_, rfl⟩

theorem setAnalyticsWriteMode_fst :
    (setAnalyticsWriteMode s q requested link calls).1 =
      (changeMode s q .analytics requested link calls).1 := by
  fun_cases setAnalyticsWriteMode <;> rw [‹changeMode .. = _›]

theorem Effect.of_flags {link : CloudLink} {suspension : CloudWriteSuspension}
    (h : Effect { s with link := link, suspension := suspension } t available switched declared) :
    Effect s t available switched declared := { h with }

theorem SameLedger.effect (h : SameLedger s t)
    (he : Effect t u (cloudWritesAvailable t) (fun _ _ ↦ none) (Declared t)) :
    Effect s u (cloudWritesAvailable s) (fun _ _ ↦ none) (Declared s) := by
  obtain ⟨outbox, rfl⟩ := h
  exact { he with }

theorem mem_declaredCloudProjects : p ∈ declaredCloudProjects s ↔ Declared s p .spans := by
  rw [declaredCloudProjects, mem_map]
  constructor
  · rintro ⟨row, hrow, hid⟩
    obtain ⟨hmem, hmode⟩ := mem_filter.mp hrow
    exact ⟨row, hmem, hid, of_decide_eq_true hmode⟩
  · rintro ⟨row, hmem, hid, hmode⟩
    exact ⟨row, mem_filter.mpr ⟨hmem, decide_eq_true hmode⟩, hid⟩

variable (hs : Sane s)
include hs

theorem effect_flags (hprojects : t.db.projects = s.db.projects)
    (hintervals : t.db.intervals = s.db.intervals) (hnow : s.now ≤ t.now) :
    Effect s t (cloudWritesAvailable t) (fun _ _ ↦ none) (Declared s) where
  ids := by rw [hprojects]
  checks := hprojects ▸ hs.checks
  timeline := fun p group ↦ by rw [hintervals]; rfl
  declared := fun p group ↦ declared_congr hprojects
  available := rfl
  now := hnow

theorem effect_refl : Effect s s (cloudWritesAvailable s) (fun _ _ ↦ none) (Declared s) :=
  effect_flags hs rfl rfl le_rfl

theorem effect_changed (h : changes s q group requested link calls) :
    Effect s (changed s q group requested) (cloudWritesAvailable s)
      (fun p group' ↦ if p = q ∧ group' = group then some requested else none)
      (fun p group' ↦ if p = q ∧ group' = group then requested = .cloud
        else Declared s p group') where
  ids := ids_updated (fun _ ↦ setMode_id) rfl
  checks := checks_updated rfl hs.checks (checks_of_changes hs h)
  timeline := fun p group' ↦ by
    simpa only [changed, mem_singleton, and_comm] using timeline_switched (nodup_singleton q)
  declared := by
    intro p group'
    by_cases hp : p = q ∧ group' = group
    · obtain ⟨rfl, rfl⟩ := hp
      rw [if_pos ⟨rfl, rfl⟩]
      exact declared_changed h
    · rw [if_neg hp]
      exact declared_kept (fun _ ↦ setMode_id) rfl fun row hid hsel ↦
        mode_setMode_other fun hg ↦ hp ⟨hid.symm.trans (of_decide_eq_true hsel), hg⟩
  available := rfl
  now := le_rfl

theorem effect_changeMode :
    Effect s (changeMode s q group requested link calls).1 (cloudWritesAvailable s)
      (fun p group' ↦ if changes s q group requested link calls ∧ p = q ∧ group' = group
        then some requested else none)
      (fun p group' ↦ if changes s q group requested link calls ∧ p = q ∧ group' = group
        then requested = .cloud else Declared s p group') := by
  cases h : changes s q group requested link calls with
  | false =>
    rw [(changeMode_of_not_changes h).1]
    simpa using effect_refl hs
  | true =>
    rw [changeMode_of_changes hs h]
    simpa using effect_changed hs h

theorem Sane.same (h : SameLedger s t) : Sane t := by
  obtain ⟨outbox, rfl⟩ := h
  exact { hs with }

theorem Sane.flags (link : CloudLink) (suspension : CloudWriteSuspension) :
    Sane { s with link := link, suspension := suspension } := { hs with }

section

variable (fidelity : CloudTelemetryFidelity) (allowlist : Option (List String))

theorem effect_persistFidelity :
    Effect s (persistFidelity s q fidelity allowlist calls).1 (cloudWritesAvailable s)
      (fun _ _ ↦ none) (Declared s) := by
  fun_cases persistFidelity s q fidelity allowlist calls
  case case1 | case3 => exact effect_refl hs
  case case2 db hdb _ =>
    obtain ⟨hchecks, rfl⟩ := updateProjects_eq_some.mp hdb
    exact { effect_refl hs with
      ids := ids_updated (fun _ ↦ setFidelity_id fidelity allowlist) rfl
      checks := checks_updated rfl hs.checks hchecks
      declared := fun p group ↦ declared_kept (fun _ ↦ setFidelity_id fidelity allowlist) rfl
        fun row _ _ ↦ setFidelity_mode fidelity allowlist }

theorem effect_setFidelity (reached : List ℕ) :
    Effect s (setFidelity s q fidelity allowlist calls reached).1 (cloudWritesAvailable s)
      (fun _ _ ↦ none) (Declared s) := by
  have hspill := spillProject_same s q reached
  fun_cases setFidelity s q fidelity allowlist calls reached
  case case1 | case2 => exact effect_refl hs
  case case3 | case5 => exact (effect_refl hs).same hspill
  case case4 => exact hspill.effect (effect_persistFidelity (hs.same hspill) fidelity allowlist)
  case case6 => exact effect_persistFidelity hs fidelity allowlist

end

theorem Sane.nodup_declared : (declaredCloudProjects s).Nodup :=
  (filter_sublist.map Project.id).nodup hs.distinct

theorem effect_move (committed : Bool) :
    Effect s (moveDeclaredCloudProjectsTo s mode reason committed).1 (cloudWritesAvailable s)
      (fun p group ↦ if committed ∧ group = .spans ∧ p ∈ declaredCloudProjects s then some mode
        else none) (Declared s) := by
  cases committed with
  | false => simpa [moveDeclaredCloudProjectsTo] using effect_refl hs
  | true =>
    exact { effect_refl hs with
      timeline := fun p group ↦ by
        simpa [moveDeclaredCloudProjectsTo, closeAndOpenIntervals] using
          timeline_switched hs.nodup_declared }

theorem effect_revert (committed : Bool) :
    Effect s (revertAllToLocal s reason committed).1 (cloudWritesAvailable s)
      (fun p group ↦ if committed ∧ group = .spans ∧ p ∈ declaredCloudProjects s
        then some .localStore else none)
      (fun p group ↦ Declared s p group ∧ ¬ (committed ∧ group = .spans)) := by
  cases committed with
  | false => simpa [revertAllToLocal] using effect_refl hs
  | true =>
    have hchecks : ∀ row ∈ s.db.projects, decide (row.id ∈ declaredCloudProjects s) →
        (row.setMode .localStore .spans).PassesChecks := fun row hmem _ ↦
      setMode_passesChecks (hs.checks row hmem) nofun
    rw [revertAllToLocal, updateProjects_eq_some.mpr ⟨hchecks, rfl⟩]
    exact {
      ids := ids_updated (fun _ ↦ setMode_id) rfl
      checks := checks_updated rfl hs.checks hchecks
      timeline := fun p group ↦ by
        simpa [closeAndOpenIntervals] using timeline_switched hs.nodup_declared
      declared := by
        intro p group
        cases group with
        | spans =>
          rw [declared_updated (fun _ ↦ setMode_id) rfl]
          simp only [and_self, not_true_eq_false, and_false, iff_false]
          rintro ⟨row, hmem, -, hcloud⟩
          rw [updated] at hcloud
          split at hcloud
          · cases hcloud
          case isFalse hout =>
            exact hout (decide_eq_true (mem_declaredCloudProjects.mpr ⟨row, hmem, rfl, hcloud⟩))
        | analytics =>
          simp only [reduceCtorEq, and_false, not_false_eq_true, and_true]
          exact declared_kept (fun _ ↦ setMode_id) rfl fun row _ _ ↦ mode_setMode_other nofun
      available := rfl
      now := le_rfl }

end Effects

theorem step_effect {s : System} (hs : Sane s) (a : Act) :
    Effect s (step s a) (availableAfter s a) (switched s a) (DeclaredAfter s a) := by
  cases a with
  | setWriteMode q requested link calls reached =>
    exact (effect_changeMode hs).same (setWriteMode_same reached)
  | setAnalyticsWriteMode q requested link calls =>
    rw [step, setAnalyticsWriteMode_fst]
    exact effect_changeMode hs
  | setFidelity q fidelity allowlist calls reached =>
    exact effect_setFidelity hs fidelity allowlist reached
  | suspendCloudWrites suspension committed =>
    have hflags := hs.flags s.link suspension
    rw [step, suspendCloudWrites]
    by_cases hsame : s.suspension = suspension
    · rw [if_pos hsame]
      refine (effect_refl hflags).of_flags.congr rfl fun p group ↦ ?_
      exact (if_neg fun hall ↦ hall.1.2 hsame).symm
    · rw [if_neg hsame]
      refine (effect_move hflags committed).of_flags.congr rfl fun p group ↦ ?_
      simp only [switched, hsame, ne_eq, not_false_eq_true, and_true]
      rfl
  | resumeCloudWrites committed =>
    rw [step, resumeCloudWrites]
    cases hsusp : s.suspension.isSuspended with
    | false =>
      refine (effect_refl hs).congr ?_ fun p group ↦ ?_
      · simp [cloudWritesAvailable, hsusp, availableAfter, CloudLink.up]
      · simp [switched, hsusp]
    | true =>
      refine (effect_move (hs.flags s.link .none) committed).of_flags.congr ?_ fun p group ↦ ?_
      · simp [cloudWritesAvailable, availableAfter, CloudLink.up, CloudWriteSuspension.isSuspended]
      · simp only [switched, hsusp, and_true]
        rfl
  | loseLink reason committed =>
    have hflags := hs.flags (s.link.lose reason) s.suspension
    have hdown : cloudWritesAvailable { s with link := s.link.lose reason } = false := by
      cases reason <;> simp [cloudWritesAvailable, CloudLink.lose]
    exact (effect_revert hflags committed).of_flags.congr hdown fun _ _ ↦ rfl
  | restoreLink => exact effect_flags hs rfl rfl le_rfl
  | restart =>
    have hstep : Effect s (step s .restart) _ _ _ := effect_flags hs rfl rfl le_rfl
    refine hstep.congr ?_ fun _ _ ↦ rfl
    simp [cloudWritesAvailable, step, availableAfter, CloudLink.up,
      CloudWriteSuspension.isSuspended]
  | ingestSpans q accepted =>
    rw [step, ingestSpans]
    split
    · exact (effect_refl hs).same (enqueue_same s q .span accepted)
    · exact effect_refl hs
  | ingestMetrics q scalar accepted =>
    rw [step]
    fun_cases ingestMetrics
    case case1 => exact (effect_refl hs).same (enqueue_same s q .metric accepted)
    all_goals exact effect_refl hs
  | tick elapsed => exact effect_flags hs rfl rfl (Nat.le_add_right _ _)

variable {s : System} {a : Act} {p : ProjectId} {group : TelemetrySignalGroup}

theorem declared_or_switched (h : DeclaredAfter s a p group) :
    Declared s p group ∨ (switched s a p group).isSome := by
  cases a with
  | setWriteMode q requested link calls reached | setAnalyticsWriteMode q requested link calls =>
    rw [DeclaredAfter] at h
    split at h
    case isTrue hc => exact .inr (by simp [switched, hc])
    case isFalse => exact .inl h
  | loseLink reason committed => exact .inl h.1
  | setFidelity | suspendCloudWrites | resumeCloudWrites | restoreLink | restart | ingestSpans
  | ingestMetrics | tick => exact .inl h

theorem declared_of_switched (h : switched s a p group = some .localStore) :
    Declared s p group := by
  have hrow {q : ProjectId} {group : TelemetrySignalGroup} {link : CloudLinkSnapshot}
      {calls : DbCalls} (hc : changes s q group .localStore link calls) : Declared s q group := by
    obtain ⟨row, hmem, hid, hmode⟩ := row_mem_of_changes hc
    refine ⟨row, hmem, hid, ?_⟩
    cases hm : row.mode group with
    | localStore => exact absurd hm hmode
    | cloud => rfl
  cases a with
  | setWriteMode q requested link calls reached | setAnalyticsWriteMode q requested link calls =>
    obtain ⟨⟨hc, rfl, rfl⟩, hr⟩ := Option.ite_none_right_eq_some.mp h
    cases hr
    exact hrow hc
  | suspendCloudWrites suspension committed | loseLink reason committed =>
    obtain ⟨⟨-, rfl, hmem⟩, -⟩ := Option.ite_none_right_eq_some.mp h
    exact mem_declaredCloudProjects.mp hmem
  | resumeCloudWrites committed =>
    obtain ⟨-, hr⟩ := Option.ite_none_right_eq_some.mp h
    cases hr
  | setFidelity | restoreLink | restart | ingestSpans | ingestMetrics | tick => cases h

theorem Sane.step (hs : Sane s) (a : Act) : Sane (step s a) := by
  have he := step_effect hs a
  refine ⟨he.ids ▸ hs.distinct, he.checks, fun p group ↦ ?_, fun p group ↦ ?_, fun p group hd ↦ ?_,
    fun p group ↦ ?_⟩
  · rw [he.timeline]
    cases switched s a p group with
    | none => exact hs.adjoins p group
    | some m => exact (hs.adjoins p group).switch (hs.started p group) m
  · rw [he.timeline]
    cases switched s a p group with
    | none => exact fun x hx ↦ (hs.started p group x hx).trans he.now
    | some m => exact fun x hx ↦ (start_le_switch (hs.started p group) x hx).trans he.now
  · have hcases := declared_or_switched ((he.declared p group).mp hd)
    rw [he.timeline]
    cases hsw : switched s a p group with
    | none => exact hs.recorded p group (hcases.resolve_right (by simp [hsw]))
    | some m => exact switch_ne_nil _ _ _
  · rw [he.timeline]
    cases hsw : switched s a p group with
    | none => exact hs.first p group
    | some m =>
      intro x hx
      by_cases hnil : timeline s.db.intervals p group = []
      · rw [hnil, Option.elim_some, switch_nil] at hx
        obtain rfl : ⟨s.now, none, m⟩ = x := by simpa using hx
        cases m with
        | cloud => rfl
        | localStore => exact absurd hnil (hs.recorded p group (declared_of_switched hsw))
      · have hmode := head?_switch s.now m (timeline s.db.intervals p group) hnil
        rw [Option.elim_some] at hx
        rw [hx] at hmode
        obtain ⟨y, hy, hxy⟩ := Option.map_eq_some_iff.mp hmode.symm
        exact hxy ▸ hs.first p group y hy

theorem Fresh.sane (h : Fresh s) : Sane s where
  distinct := h.distinct
  checks := fun row hrow ↦ passesChecks_iff.mpr fun group hcloud ↦ by
    rw [h.modes row hrow group] at hcloud
    cases hcloud
  adjoins := by rw [h.intervals]; exact fun _ _ ↦ .nil
  started := by rw [h.intervals]; exact nofun
  recorded := by
    rintro p group ⟨row, hrow, -, hcloud⟩
    rw [h.modes row hrow group] at hcloud
    cases hcloud
  first := by rw [h.intervals]; exact nofun

theorem Sane.run (hs : Sane s) (acts : List Act) : Sane (run s acts) :=
  Machine.foldl_invariant (fun _ a h ↦ h.step a) hs acts

end Temps.Otel
