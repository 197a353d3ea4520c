import Temps.Otel.ModeChanges

namespace Temps.Otel

open Lib Lib.Timeline List

/-- At most one interval is open; each begins where the one before it ends, in another mode. -/
structure LedgerWellFormed (l : List WriteInterval) : Prop where
  oneOpen : (l.filter (·.effectiveTo.isNone)).length ≤ 1
  adjoin : l.IsChain fun a b ↦ a.effectiveTo = some b.effectiveFrom ∧
    a.effectiveFrom ≤ b.effectiveFrom ∧ a.mode ≠ b.mode

def openMode (l : List WriteInterval) : CloudTelemetryWriteMode :=
  match l.find? (·.effectiveTo.isNone) with
  | none => .localStore
  | some i => i.mode

structure Truthful (s : System) : Prop where
  wellFormed : ∀ p group, LedgerWellFormed (ledger s.db.intervals p group)
  openMode : ∀ p group, openMode (ledger s.db.intervals p group) = destination s p group

/-- A step that lets telemetry be stored where the ledger says: a switch to `cloud` goes through
only while Cloud is available; what makes Cloud available or takes it away is accompanied by a
move of the ledgers, which only a committed transaction does, and only for spans. -/
def Steady (s : System) : Act → Prop
  | .setWriteMode p requested link calls _ =>
    changes s p .spans requested link calls → requested = .cloud → cloudWritesAvailable s
  | .setAnalyticsWriteMode p requested link calls =>
    changes s p .analytics requested link calls → requested = .cloud → cloudWritesAvailable s
  | .suspendCloudWrites suspension committed => s.suspension ≠ suspension →
    let available := s.link.up && !suspension.isSuspended
    (∀ p, Declared s p .analytics → available = cloudWritesAvailable s) ∧
      ∀ p, Declared s p .spans → available = (!committed && cloudWritesAvailable s)
  | .resumeCloudWrites committed => s.suspension.isSuspended →
    (∀ p, Declared s p .analytics → s.link.up = false) ∧
      ∀ p, Declared s p .spans → s.link.up = committed
  | .loseLink _ committed => cloudWritesAvailable s →
    (∀ p, ¬ Declared s p .analytics) ∧ ((∃ p, Declared s p .spans) → committed)
  | .restoreLink => ∀ p group, Declared s p group → s.link.up ∨ s.suspension.isSuspended
  | .restart => ∀ p group, Declared s p group → s.link.up → s.suspension.isSuspended = false
  | .setFidelity .. | .ingestSpans .. | .ingestMetrics .. | .tick _ => True

section Agreement

variable {s : System} {p : ProjectId} {group : TelemetrySignalGroup} {m : CloudTelemetryWriteMode}
  {available : Bool} {declared : Prop}

theorem openMode_eq_current (intervals : List WriteInterval) :
    openMode (ledger intervals p group) = current .localStore (timeline intervals p group) := by
  rw [current, timeline, List.find?_map, openMode]
  have hfun : (fun a : Stretch DBDateTime CloudTelemetryWriteMode ↦ a.stop.isNone) ∘
      WriteInterval.stretch = fun i ↦ i.effectiveTo.isNone := rfl
  rw [hfun]
  cases (ledger intervals p group).find? fun i ↦ i.effectiveTo.isNone with
  | none => rfl
  | some i => rfl

theorem wellFormed_of_adjoins {l : List WriteInterval}
    (h : Adjoins (l.map WriteInterval.stretch)) : LedgerWellFormed l where
  oneOpen := by
    rcases eq_nil_or_concat l with rfl | ⟨l, i, rfl⟩
    · simp
    · rw [concat_eq_append] at h ⊢
      rw [map_append] at h
      have hnone : l.filter (·.effectiveTo.isNone) = [] := by
        rw [filter_eq_nil_iff]
        intro j hj hopen
        refine h.closed (mem_map_of_mem hj) ?_
        simpa [WriteInterval.stretch] using hopen
      rw [filter_append, hnone]
      exact length_filter_le _ _
  adjoin := by
    refine ((isChain_map WriteInterval.stretch).mp h.chain).imp fun a b hab ↦ ?_
    exact ⟨hab.stop, hab.start_le, hab.mode_ne⟩

theorem Sane.wellFormed (hs : Sane s) (p : ProjectId) (group : TelemetrySignalGroup) :
    LedgerWellFormed (ledger s.db.intervals p group) := wellFormed_of_adjoins (hs.adjoins p group)

theorem mode_eq_iff {m' : CloudTelemetryWriteMode} : m = m' ↔ (m = .cloud ↔ m' = .cloud) := by
  cases m <;> cases m' <;> simp

theorem destination_eq_cloud (hs : Sane s) : destination s p group = .cloud ↔
    cloudWritesAvailable s ∧ Declared s p group := by
  rw [← isCloudPrimary_iff hs, destination, ← Bool.and_eq_true]
  cases cloudWritesAvailable s && isCloudPrimary s p group <;> simp

theorem truthful_iff (hs : Sane s) : Truthful s ↔
    ∀ p group, current .localStore (timeline s.db.intervals p group) = .cloud ↔
      cloudWritesAvailable s ∧ Declared s p group := by
  constructor
  · intro h p group
    rw [← destination_eq_cloud hs, ← openMode_eq_current, h.openMode]
  · intro h
    refine ⟨hs.wellFormed, fun p group ↦ ?_⟩
    rw [mode_eq_iff, openMode_eq_current, h, destination_eq_cloud hs]

theorem current_step (hs : Sane s) (a : Act) :
    current .localStore (timeline (step s a).db.intervals p group) =
      (switched s a p group).getD (current .localStore (timeline s.db.intervals p group)) := by
  rw [(step_effect hs a).timeline]
  cases switched s a p group with
  | none => rfl
  | some m => exact current_switch (hs.adjoins p group) (hs.started p group) _ m

theorem truthful_step_iff (hs : Sane s) (a : Act) : Truthful (step s a) ↔
    ∀ p group, (switched s a p group).getD
      (current .localStore (timeline s.db.intervals p group)) = .cloud ↔
        availableAfter s a ∧ DeclaredAfter s a p group := by
  have he := step_effect hs a
  rw [truthful_iff (hs.step a), he.available]
  refine forall_congr' fun p ↦ forall_congr' fun group ↦ ?_
  rw [current_step hs, he.declared]

theorem forall_group {P : ProjectId → TelemetrySignalGroup → Prop} :
    (∀ p group, P p group) ↔ (∀ p, P p .analytics) ∧ ∀ p, P p .spans := by
  constructor
  · exact fun h ↦ ⟨fun p ↦ h p .analytics, fun p ↦ h p .spans⟩
  · rintro ⟨hanalytics, hspans⟩ p (_ | _)
    · exact hspans p
    · exact hanalytics p

theorem stays_iff {available' : Bool} (h : m = .cloud ↔ available ∧ declared) :
    (m = .cloud ↔ available' ∧ declared) ↔ (declared → available' = available) := by
  rw [h]
  cases available <;> cases available' <;> simp

theorem fallback_iff {moves : Prop} [Decidable moves]
    (h : ∀ p group, current .localStore (timeline s.db.intervals p group) = .cloud ↔
      cloudWritesAvailable s ∧ Declared s p group) :
    (∀ p group, (if moves ∧ group = .spans ∧ p ∈ declaredCloudProjects s then some m
        else none).getD (current .localStore (timeline s.db.intervals p group)) = .cloud ↔
          available ∧ Declared s p group) ↔
      (∀ p, Declared s p .analytics → available = cloudWritesAvailable s) ∧
        ∀ p, Declared s p .spans →
          if moves then available ↔ m = .cloud else available = cloudWritesAvailable s := by
  rw [forall_group]
  refine and_congr (forall_congr' fun p ↦ ?_) (forall_congr' fun p ↦ ?_)
  · simpa using stays_iff (h p .analytics)
  · by_cases hmoves : moves
    · by_cases hd : Declared s p .spans
      · simp [hmoves, hd, mem_declaredCloudProjects, iff_comm]
      · simp [hd, mem_declaredCloudProjects, h]
    · simpa [hmoves] using stays_iff (h p .spans)

theorem change_iff {requested : CloudTelemetryWriteMode} {changes : Bool}
    {this : Prop} [Decidable this] (h : m = .cloud ↔ available ∧ declared) :
    ((if changes ∧ this then some requested else none).getD m = .cloud ↔
      available ∧ if changes ∧ this then requested = .cloud else declared) ↔
      (this → changes → requested = .cloud → available) := by
  by_cases hc : changes ∧ this
  · simp [hc]
  · have hnot : this → ¬ changes := fun ht hch ↦ hc ⟨hch, ht⟩
    rw [if_neg hc, if_neg hc]
    exact ⟨fun _ ht hch ↦ absurd hch (hnot ht), fun _ ↦ h⟩

theorem truthful_step (hs : Sane s) (h : Truthful s) (a : Act) :
    Truthful (step s a) ↔ Steady s a := by
  have hcur := (truthful_iff hs).mp h
  rw [truthful_step_iff hs]
  cases a with
  | setWriteMode q | setAnalyticsWriteMode q =>
    refine (forall_congr' fun p ↦ forall_congr' fun group ↦ change_iff (hcur p group)).trans ?_
    exact ⟨fun hall ↦ hall q _ ⟨rfl, rfl⟩, fun hst _ _ _ ↦ hst⟩
  | suspendCloudWrites suspension committed =>
    refine (fallback_iff hcur).trans ?_
    simp only [availableAfter, Steady]
    by_cases hsame : s.suspension = suspension
    · have hav : (s.link.up && !suspension.isSuspended) = cloudWritesAvailable s := by
        rw [← hsame]
        rfl
      simp [hsame, hav]
    · cases committed <;> simp [hsame]
  | resumeCloudWrites committed =>
    refine (fallback_iff hcur).trans ?_
    simp only [availableAfter, Steady]
    cases hsusp : s.suspension.isSuspended with
    | false =>
      have hav : s.link.up = cloudWritesAvailable s := by
        simp [cloudWritesAvailable, hsusp, CloudLink.up]
      simp [hav]
    | true =>
      have hav : cloudWritesAvailable s = false := by simp [cloudWritesAvailable, hsusp]
      cases committed <;> simp [hav]
  | loseLink reason committed =>
    rw [forall_group]
    simp only [availableAfter, switched]
    constructor
    · rintro ⟨hanalytics, hspans⟩ hav
      refine ⟨fun p hd ↦ ?_, ?_⟩
      · simpa [(hcur p .analytics).mpr ⟨hav, hd⟩] using hanalytics p
      · rintro ⟨p, hd⟩
        by_contra hcommitted
        simpa [hcommitted, (hcur p .spans).mpr ⟨hav, hd⟩] using hspans p
    · intro hst
      refine ⟨fun p ↦ ?_, fun p ↦ ?_⟩
      · have hout : current .localStore (timeline s.db.intervals p .analytics) ≠ .cloud :=
          fun hc ↦ (hst ((hcur p _).mp hc).1).1 p ((hcur p _).mp hc).2
        simpa using hout
      · by_cases hd : committed ∧ p ∈ declaredCloudProjects s
        · simp [hd]
        · have hout : current .localStore (timeline s.db.intervals p .spans) ≠ .cloud := by
            intro hc
            obtain ⟨hav, hdecl⟩ := (hcur p _).mp hc
            exact hd ⟨(hst hav).2 ⟨p, hdecl⟩, mem_declaredCloudProjects.mpr hdecl⟩
          simpa [hd] using hout
  | restoreLink | restart =>
    refine (forall_congr' fun p ↦ forall_congr' fun group ↦ stays_iff (hcur p group)).trans ?_
    refine forall_congr' fun p ↦ forall_congr' fun group ↦ imp_congr_right fun _ ↦ ?_
    simp only [availableAfter, cloudWritesAvailable, CloudLink.up]
    cases s.link.linked <;> cases s.link.telemetryEnabled <;> cases s.suspension.isSuspended <;>
      simp
  | setFidelity | ingestSpans | ingestMetrics | tick =>
    exact ⟨fun _ ↦ trivial, fun _ ↦ hcur⟩

theorem Fresh.truthful (h : Fresh s) : Truthful s := by
  refine (truthful_iff h.sane).mpr fun p group ↦ ?_
  rw [h.intervals]
  refine iff_of_false nofun ?_
  rintro ⟨-, row, hrow, -, hcloud⟩
  rw [h.modes row hrow group] at hcloud
  cases hcloud

end Agreement

/-- However a run goes, its ledgers stay well formed; they say where telemetry goes in each of its
states exactly when each of its steps meets the condition. -/
theorem ledgers_truthful_iff_steady {s : System} (h : Fresh s) (acts : List Act) :
    (∀ p group, LedgerWellFormed (ledger (run s acts).db.intervals p group)) ∧
      ((∀ front, front <+: acts → Truthful (run s front)) ↔
        ∀ front a, front ++ [a] <+: acts → Steady (run s front) a) := by
  have hsane : ∀ s a, Sane s → Sane (step s a) := fun _ a hs ↦ hs.step a
  have hstep : ∀ s a, Sane s → Truthful s → (Truthful (step s a) ↔ Steady s a) :=
    fun _ a hs ht ↦ truthful_step hs ht a
  exact ⟨(h.sane.run acts).wellFormed, Machine.along_iff hsane hstep h.sane h.truthful acts⟩

theorem switch_told :
    Truthful (run linkedInstance [.setWriteMode 1 .cloud linkedSnapshot allSucceed []]) := by
  refine (ledgers_truthful_iff_steady linkedInstance_fresh _).2.mpr (fun front a hfront ↦ ?_) _
    prefix_rfl
  cases front with
  | nil =>
    obtain rfl : a = _ := by simpa using hfront
    exact fun _ _ ↦ rfl
  | cons b front => exact absurd hfront.length_le (by simp)

/-- A suspension stops metrics from being queued, and the analytics ledger still says `cloud`. -/
theorem suspension_untold : Fresh linkedInstance ∧
    ¬ Truthful (run linkedInstance [.setAnalyticsWriteMode 1 .cloud linkedSnapshot allSucceed,
      .suspendCloudWrites .quotaExhausted true]) :=
  ⟨linkedInstance_fresh, fun h ↦ absurd (h.openMode 1 .analytics) (by decide)⟩

theorem modeAt_run {s : System} (hs : Sane s) {t : DBDateTime} (ht : t < s.now)
    (acts : List Act) {p : ProjectId} {group : TelemetrySignalGroup} :
    modeAt .localStore (timeline (run s acts).db.intervals p group) t =
      modeAt .localStore (timeline s.db.intervals p group) t := by
  induction acts generalizing s with
  | nil => rfl
  | cons a acts ih =>
    have he := step_effect hs a
    rw [run, foldl_cons, ← run, ih (hs.step a) (ht.trans_le he.now), he.timeline]
    cases switched s a p group with
    | none => rfl
    | some m => exact modeAt_switch ht

/-- The ledgers are a record of the past: nothing that is done later changes what they tell of it,
and of a time in which they were truthful they tell where telemetry went. -/
theorem past_recorded {s : System} (h : Fresh s) (acts later : List Act) (p : ProjectId)
    (group : TelemetrySignalGroup) (t : DBDateTime) :
    (t < (run s acts).now →
      modeAt .localStore (timeline (run s (acts ++ later)).db.intervals p group) t =
        modeAt .localStore (timeline (run s acts).db.intervals p group) t) ∧
    ∀ elapsed, Truthful (run s acts) → (run s acts).now ≤ t → t < (run s acts).now + elapsed →
      modeAt .localStore (timeline (run s (acts ++ .tick elapsed :: later)).db.intervals p group) t =
        destination (run s acts) p group := by
  have hs := h.sane.run acts
  refine ⟨fun ht ↦ ?_, fun elapsed htold hfrom hto ↦ ?_⟩
  · rw [run, foldl_append, ← run, ← run, modeAt_run hs ht]
  · rw [run, foldl_append, foldl_cons, ← run, ← run, modeAt_run (hs.step (.tick elapsed)) hto,
      ← htold.openMode, openMode_eq_current]
    exact modeAt_current (hs.adjoins p group) fun a ha ↦ (hs.started p group a ha).trans hfrom

theorem cloud_recorded :
    let acts : List Act := [.setWriteMode 1 .cloud linkedSnapshot allSucceed []]
    modeAt .localStore (timeline (run linkedInstance
      (acts ++ [.tick 7, .suspendCloudWrites .quotaExhausted true])).db.intervals 1 .spans) 3 =
        destination (run linkedInstance acts) 1 .spans := by
  have hfresh := linkedInstance_fresh
  have htold := (truthful_step hfresh.sane hfresh.truthful
    (.setWriteMode 1 .cloud linkedSnapshot allSucceed [])).mpr fun _ _ ↦ rfl
  exact (past_recorded hfresh _ _ 1 .spans 3).2 7 htold (by decide) (by decide)

end Temps.Otel
