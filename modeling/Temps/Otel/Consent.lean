import Temps.Otel.ModeChanges

namespace Temps.Otel

open List

section Lowering

variable {s : System} {p : ProjectId} {requested : CloudTelemetryFidelity}
  {allowlist : Option (List String)} {calls : DbCalls} {reached : List ℕ} {row : OutboxRow}

abbrev PendingFor (p : ProjectId) (row : OutboxRow) : Prop :=
  row.projectId = p ∧ row.state = .pending

theorem persistFidelity_outbox :
    (persistFidelity s p requested allowlist calls).1.db.outbox = s.db.outbox := by
  fun_cases persistFidelity s p requested allowlist calls
  case case2 hdb _ =>
    obtain ⟨-, rfl⟩ := updateProjects_eq_some.mp hdb
    rfl
  all_goals rfl

theorem mem_spillProject (h : row ∈ (spillProject s p reached).db.outbox) :
    ∃ row' ∈ s.db.outbox, row.projectId = row'.projectId ∧ row.entityType = row'.entityType ∧
      (row = row' ∨ row'.entityType = .span) := by
  rw [spillProject] at h
  split at h
  · obtain ⟨row', hrow', rfl⟩ := mem_map.mp h
    refine ⟨row', hrow', ?_⟩
    split
    case isTrue hspill => exact ⟨rfl, rfl, .inr hspill.1⟩
    case isFalse => exact ⟨rfl, rfl, .inl rfl⟩
  · exact ⟨row, h, rfl, rfl, .inl rfl⟩

theorem mem_spillProject_metric (hrow : row ∈ s.db.outbox)
    (hmetric : row.entityType = .metric) : row ∈ (spillProject s p reached).db.outbox := by
  rw [spillProject]
  split
  · refine mem_map.mpr ⟨row, hrow, if_neg fun hspill ↦ ?_⟩
    cases hmetric.symm.trans hspill.1
  · exact hrow

theorem setFidelity_lowered (hs : Sane s) {t : System} {settings : ProjectTelemetryWriteSettings}
    (h : setFidelity s p requested allowlist calls reached = (t, .ok settings))
    (hrequested : requested ≠ .queryable)
    (hrow : ∃ row ∈ s.db.projects, row.id = p ∧ row.fidelity = .queryable) :
    t.db.outbox = (spillProject s p reached).db.outbox ∧
      queuedSpanCount (spillProject s p reached) p = 0 := by
  revert h
  fun_cases setFidelity s p requested allowlist calls reached <;> intro h
  case case4 hcount =>
    refine ⟨?_, Nat.eq_zero_of_not_pos hcount⟩
    have hpersist := congrArg (·.1.db.outbox) h
    rw [← hpersist, persistFidelity_outbox]
  case case6 row hread _ hlower =>
    obtain ⟨hmem, hid⟩ := projectRow_eq_ok hread
    obtain ⟨row', hmem', hid', hqueryable⟩ := hrow
    obtain rfl := hs.row_unique hmem hmem' (hid.trans hid'.symm)
    exact absurd ⟨hrequested, hqueryable⟩ hlower
  all_goals cases congrArg Prod.snd h

theorem pending_after_iff (hcount : queuedSpanCount (spillProject s p reached) p = 0) :
    (∀ row ∈ (spillProject s p reached).db.outbox, ¬ PendingFor p row) ↔
      ∀ row ∈ s.db.outbox, row.entityType = .metric → ¬ PendingFor p row := by
  constructor
  · intro h row hrow hmetric
    exact h row (mem_spillProject_metric hrow hmetric)
  · intro h row hrow hpending
    have hnone := countP_eq_zero.mp hcount row hrow
    obtain ⟨row', hrow', -, htype, hsame⟩ := mem_spillProject hrow
    cases htype' : row.entityType with
    | span => exact hnone (decide_eq_true ⟨htype', hpending⟩)
    | metric =>
      obtain rfl := hsame.resolve_right fun hspan ↦ (nomatch htype'.symm.trans (htype.trans hspan))
      exact h row hrow' htype' hpending

end Lowering

/-- In every state a project that stores spans or metrics in Cloud is queryable. A call that lowers
a project leaves none of its telemetry pending exactly if no metric of it was pending before. -/
theorem consent_kept {s : System} (h : Fresh s) (acts : List Act) :
    (∀ row ∈ (run s acts).db.projects, ∀ group, row.mode group = .cloud →
      row.fidelity = .queryable) ∧
    ∀ p requested allowlist calls reached t settings,
      setFidelity (run s acts) p requested allowlist calls reached = (t, .ok settings) →
      requested ≠ .queryable →
      (∃ row ∈ (run s acts).db.projects, row.id = p ∧ row.fidelity = .queryable) →
      ((∀ row ∈ t.db.outbox, ¬ PendingFor p row) ↔
        ∀ row ∈ (run s acts).db.outbox, row.entityType = .metric → ¬ PendingFor p row) := by
  have hs := h.sane.run acts
  refine ⟨fun row hrow ↦ passesChecks_iff.mp (hs.checks row hrow), ?_⟩
  intro p requested allowlist calls reached t settings hset hrequested hrow
  obtain ⟨houtbox, hcount⟩ := setFidelity_lowered hs hset hrequested hrow
  rw [houtbox]
  exact pending_after_iff hcount

def spanThenLocal : List Act :=
  [.setWriteMode 1 .cloud linkedSnapshot allSucceed [], .ingestSpans 1 true,
    .setWriteMode 1 .localStore linkedSnapshot allSucceed []]

theorem spilled_before_lowering :
    (setFidelity (run linkedInstance spanThenLocal) 1 .metered none allSucceed
      [0]).1.db.outbox.filter (PendingFor 1 ·) = [] := by
  refine filter_eq_nil_iff.mpr fun row hrow hpending ↦ ?_
  exact ((consent_kept linkedInstance_fresh spanThenLocal).2 1 .metered none allSucceed [0] _ _ rfl
    (by decide) (by decide)).mpr (by decide) row hrow (of_decide_eq_true hpending)

/-- A metric is queued, the analytics mode goes back to local, the fidelity is lowered: the call
succeeds and the metric still waits to be sent. -/
theorem metric_outlives_consent :
    let s := run linkedInstance [.setAnalyticsWriteMode 1 .cloud linkedSnapshot allSucceed,
      .ingestMetrics 1 true true, .setAnalyticsWriteMode 1 .localStore linkedSnapshot allSucceed]
    Fresh linkedInstance ∧
    (∃ settings, (setFidelity s 1 .metered none allSucceed []).2 = .ok settings ∧
      settings.fidelity = .metered) ∧
    ∃ row ∈ (setFidelity s 1 .metered none allSucceed []).1.db.outbox, PendingFor 1 row :=
  ⟨linkedInstance_fresh, ⟨_, rfl, rfl⟩, by decide⟩

end Temps.Otel
