import Temps.Cloud.Link

namespace Temps.Cloud.CloudLink

open List Option

variable {O T ι σ : Type*} {bytes : σ → ℕ} {s : CloudLink O T ι σ}

section

variable (s)

/-- Every span that is still on its way, in the producer channel, the spool or the pending
submission. -/
def buffered : List (Span O T σ) :=
  s.incoming.flatMap IncomingBatch.spans ++ s.spool.buffer ++ s.pending.getD []

/-- An enrollment is written only when nothing recorded under another tenant is still buffered. -/
def Clean [DecidableEq ι] : Act O T ι σ → Prop
  | .enroll firstLinkOnly (some response) =>
    ∀ state, s.state = some state → enrolls firstLinkOnly response state = true →
      ∀ span ∈ s.buffered, span.bound.tenant = response.tenantId
  | _ => True

/-- Spans are bound to the link as it is, as far as they can still be sent. -/
structure Sound : Prop where
  spool : ∀ span ∈ s.spool.buffer, s.bound = some span.bound
  pending : ∀ spans ∈ s.pending, ∀ span ∈ spans, s.bound = some span.bound
  disk : s.state.bind EnrollmentState.pendingSubmission = s.pending
  older : ∀ batch ∈ s.incoming, batch.generation ≤ s.generation
  incoming : ∀ batch ∈ s.incoming, batch.generation = s.generation →
    ∀ span ∈ batch.spans, s.bound = some span.bound
  sent : ∀ d ∈ s.sent, ∀ span ∈ d.spans, span.bound = d.bound
  tenants : ∀ batch ∈ s.incoming, ∀ t ∈ s.tenant, ∀ span ∈ batch.spans, span.bound.tenant = t
  nonempty : ∀ batch ∈ s.incoming, batch.spans ≠ []
  shipping : s.pending ≠ some []

end

theorem tenant_of_bound {bound : Bound O T} (h : s.bound = some bound) :
    s.tenant = some bound.tenant := by
  obtain ⟨state, hstate, h⟩ := bind_eq_some_iff.mp h
  obtain ⟨t, htoken, rfl⟩ := map_eq_some_iff.mp h
  exact bind_eq_some_iff.mpr ⟨state, hstate, htoken⟩

variable (s) in
theorem bound_persistPending (pending : Option (List (Span O T σ))) :
    (s.persistPending pending).bound = s.bound := by
  cases hstate : s.state <;> simp [bound, persistPending, hstate]

variable (s) in
theorem tenant_persistPending (pending : Option (List (Span O T σ))) :
    (s.persistPending pending).tenant = s.tenant := by
  cases hstate : s.state <;> simp [tenant, persistPending, hstate]

variable (s) in
theorem disk_persistPending_none :
    (s.persistPending none).state.bind EnrollmentState.pendingSubmission = none := by
  cases hstate : s.state <;> simp [persistPending]

theorem Sound.unlinked (h : s.Sound) (hbound : s.bound = none) :
    s.spool.buffer = [] ∧ ∀ spans ∈ s.pending, spans = [] := by
  constructor
  · refine eq_nil_iff_forall_not_mem.mpr fun span hspan ↦ ?_
    exact absurd (h.spool span hspan) (by simp [hbound])
  · intro spans hspans
    refine eq_nil_iff_forall_not_mem.mpr fun span hspan ↦ ?_
    exact absurd (h.pending spans hspans span hspan) (by simp [hbound])

theorem mem_drained {span : Span O T σ} (h : span ∈ (s.drained bytes).buffer) :
    span ∈ s.spool.buffer ∨
      ∃ batch ∈ s.incoming, batch.generation = s.generation ∧ span ∈ batch.spans := by
  rw [drained] at h
  generalize s.incoming = batches at h
  generalize s.spool = spool at h
  induction batches generalizing spool with
  | nil => exact .inl h
  | cons first rest ih =>
    rcases ih _ h with h | ⟨batch, hbatch, h⟩
    · dsimp only at h
      split at h
      case isTrue hgen =>
        rcases Spool.mem_push h with h | h
        exacts [.inl h, .inr ⟨first, mem_cons_self, hgen.1, h⟩]
      case isFalse => exact .inl h
    · exact .inr ⟨batch, mem_cons_of_mem _ hbatch, h⟩

section Sound

variable (h : s.Sound)
include h

namespace Sound

theorem drainIncoming : (s.drainIncoming bytes).Sound where
  __ := h
  spool := by
    intro span hspan
    rcases mem_drained hspan with hspan | ⟨batch, hbatch, hgen, hspan⟩
    exacts [h.spool span hspan, h.incoming batch hbatch hgen span hspan]
  older := by simp [CloudLink.drainIncoming]
  incoming := by simp [CloudLink.drainIncoming]
  tenants := by simp [CloudLink.drainIncoming]
  nonempty := by simp [CloudLink.drainIncoming]

theorem older_succ : ∀ batch ∈ s.incoming, batch.generation ≤ s.generation + 1 :=
  fun batch hbatch ↦ Nat.le_succ_of_le (h.older batch hbatch)

theorem stale {bound : Option (Bound O T)} : ∀ batch ∈ s.incoming,
    batch.generation = s.generation + 1 → ∀ span ∈ batch.spans, bound = some span.bound := by
  intro batch hbatch hgen
  have := h.older batch hbatch
  omega

theorem configure [DecidableEq O] (backend : O) (freshId : ι) :
    (s.configure backend freshId).Sound := by
  fun_cases CloudLink.configure s backend freshId
  case case1 hstate =>
    have hbound : s.bound = none := by rw [CloudLink.bound, hstate, bind_none]
    obtain ⟨hspool, hpending⟩ := h.unlinked hbound
    have hdisk := h.disk
    rw [hstate] at hdisk
    refine { h with
      spool := ?_
      pending := ?_
      disk := hdisk
      older := h.older_succ
      incoming := h.stale
      tenants := ?_ }
    · simp [hspool]
    · simp [← hdisk]
    · simp [CloudLink.tenant]
  case case2 => exact { h with older := h.older_succ, incoming := h.stale }
  case case3 => exact h
  case case4 =>
    exact { h with
      spool := by simp [Spool.empty]
      pending := by simp
      disk := rfl
      older := h.older_succ
      incoming := h.stale
      tenants := by simp [CloudLink.tenant, EnrollmentState.unlink]
      shipping := by simp }

theorem disconnect : s.disconnect.Sound := by
  refine { h with
    spool := by simp [CloudLink.disconnect, Spool.empty]
    pending := by simp [CloudLink.disconnect]
    disk := ?_
    older := h.older_succ
    incoming := h.stale
    tenants := ?_
    shipping := by simp [CloudLink.disconnect] }
  · cases hstate : s.state <;> simp [CloudLink.disconnect, EnrollmentState.unlink]
  · cases hstate : s.state <;>
      simp [CloudLink.tenant, CloudLink.disconnect, hstate, EnrollmentState.unlink]

theorem setFeatureSwitches (telemetry : Bool) : (s.setFeatureSwitches telemetry).Sound := by
  rw [CloudLink.setFeatureSwitches]
  split
  case isTrue => exact { h with }
  case isFalse =>
    exact ⟨by simp [Spool.empty], by simp, s.disk_persistPending_none, by simp, by simp, h.sent,
      by simp, by simp, by simp⟩

theorem record (payloads : List σ) : (s.record payloads).Sound := by
  fun_cases CloudLink.record s payloads
  case case3 bound hbound hne _ =>
    have htagged : ∀ span ∈ payloads.map (fun p ↦ (⟨p, bound⟩ : Span O T σ)),
        span.bound = bound := by
      intro span hspan
      obtain ⟨p, -, rfl⟩ := mem_map.mp hspan
      rfl
    refine { h with older := ?_, incoming := ?_, tenants := ?_, nonempty := ?_ }
    all_goals simp only [mem_append, mem_singleton]
    · rintro batch (hbatch | rfl)
      exacts [h.older batch hbatch, Nat.le_refl _]
    · rintro batch (hbatch | rfl) hgen span hspan
      · exact h.incoming batch hbatch hgen span hspan
      · exact (htagged span hspan).symm ▸ hbound
    · rintro batch (hbatch | rfl) t ht span hspan
      · exact h.tenants batch hbatch t ht span hspan
      · have htenant : s.tenant = some t := ht
        rw [tenant_of_bound hbound] at htenant
        rw [htagged span hspan, some.inj htenant]
    · rintro batch (hbatch | rfl)
      · exact h.nonempty batch hbatch
      · simp only [ne_eq, map_eq_nil_iff]
        exact fun hnil ↦ hne (.inl hnil)
  all_goals exact h

theorem enroll [DecidableEq T] [DecidableEq ι] {firstLinkOnly : Bool}
    {response : Option (EnrollResponse T ι)} (hclean : s.Clean (.enroll firstLinkOnly response)) :
    (s.enroll firstLinkOnly response).Sound := by
  fun_cases CloudLink.enroll s firstLinkOnly response
  case case1 state response hstate henrolls =>
    have htenant : ∀ span ∈ s.buffered, span.bound.tenant = response.tenantId :=
      hclean state hstate henrolls
    -- the link as it is after the enrollment
    have hbound : ∀ span ∈ s.buffered, s.bound = some span.bound →
        some (⟨state.baseUrl, response.tenantId, if state.token = some response.tenantId then
          s.epoch else s.epoch + 1⟩ : Bound O T) = some span.bound := by
      intro span hspan hspanBound
      have htoken : state.token = some span.bound.tenant := by
        have := tenant_of_bound hspanBound
        rwa [CloudLink.tenant, hstate] at this
      rw [← hspanBound, CloudLink.bound, hstate, bind_some, htoken, htenant span hspan]
      simp
    refine { h with
      spool := fun span hspan ↦ hbound span ?_ (h.spool span hspan)
      pending := fun spans hspans span hspan ↦ hbound span ?_ (h.pending spans hspans span hspan)
      disk := ?_
      older := h.older_succ
      incoming := h.stale
      tenants := ?_ }
    · exact mem_append_left _ (mem_append_right _ hspan)
    · exact mem_append_right _ (mem_def.mp hspans ▸ hspan)
    · rw [← h.disk, hstate, bind_some, bind_some]
    · intro batch hbatch t ht span hspan
      obtain rfl : response.tenantId = t := some.inj ht
      refine htenant span (mem_append_left _ (mem_append_left _ ?_))
      exact mem_flatMap.mpr ⟨batch, hbatch, hspan⟩
  all_goals exact h

theorem prepare (hlinked : s.linked) : s.prepare.Sound := by
  obtain ⟨bound, hbound⟩ := isSome_iff_exists.mp hlinked
  obtain ⟨state, hstate, -⟩ := bind_eq_some_iff.mp hbound
  fun_cases CloudLink.prepare s
  case case3 spans rest hne htake stored =>
    obtain ⟨rfl, rfl⟩ := Prod.mk.inj htake
    have hkeep := s.bound_persistPending (some (s.spool.buffer.take batchSize))
    refine ⟨?_, ?_, ?_, h.older, ?_, h.sent, ?_, h.nonempty, ?_⟩
    · exact fun span hspan ↦ hkeep.trans (h.spool span (mem_of_mem_drop hspan))
    · rintro spans ⟨⟩ span hspan
      exact hkeep.trans (h.spool span (mem_of_mem_take hspan))
    · simp [stored, CloudLink.persistPending, hstate]
    · exact fun batch hbatch hgen span hspan ↦
        hkeep.trans (h.incoming batch hbatch hgen span hspan)
    · exact fun batch hbatch t ht ↦ h.tenants batch hbatch t (s.tenant_persistPending _ ▸ ht)
    · exact fun hnil ↦ hne (some.inj hnil)
  all_goals exact h

theorem ship (result : ShipResult) : (s.ship result).Sound := by
  unfold CloudLink.ship
  split
  case h_2 => exact h
  case h_1 bound spans hbound hpending =>
    have hsent : ∀ d ∈ s.sent ++ [⟨bound, spans⟩], ∀ span ∈ d.spans, span.bound = d.bound := by
      simp only [mem_append, mem_singleton]
      rintro d (hd | rfl) span hspan
      · exact h.sent d hd span hspan
      · exact (some.inj (hbound.symm.trans (h.pending spans hpending span hspan))).symm
    cases result with
    | unsent => exact h
    | failed => exact { h with sent := hsent }
    | acknowledged =>
      have hkeep := s.bound_persistPending none
      refine ⟨?_, nofun, s.disk_persistPending_none, h.older, ?_, hsent, ?_, h.nonempty, nofun⟩
      · exact fun span hspan ↦ hkeep.trans (h.spool span hspan)
      · exact fun batch hbatch hgen span hspan ↦
          hkeep.trans (h.incoming batch hbatch hgen span hspan)
      · exact fun batch hbatch t ht ↦ h.tenants batch hbatch t (s.tenant_persistPending _ ▸ ht)

theorem flush (result : ShipResult) : (s.flush bytes result).Sound := by
  have hdrained : (s.drainIncoming bytes).Sound := h.drainIncoming
  fun_cases CloudLink.flush bytes s result
  case case1 | case2 => exact hdrained
  case case3 hlinked => exact (hdrained.prepare (by simpa using hlinked)).ship result

theorem restart : s.restart.Sound := by
  refine ⟨by simp [CloudLink.restart, Spool.empty], ?_, rfl, by simp [CloudLink.restart],
    by simp [CloudLink.restart], h.sent, by simp [CloudLink.restart], by simp [CloudLink.restart],
    ?_⟩
  · intro spans hspans
    exact h.pending spans (h.disk ▸ hspans)
  · exact fun hnil ↦ h.shipping (h.disk.symm.trans hnil)

end Sound

end Sound

variable [DecidableEq O] [DecidableEq T] [DecidableEq ι]

variable (bytes) in
def Careful : CloudLink O T ι σ → List (Act O T ι σ) → Prop
  | _, [] => True
  | s, a :: rest => s.Clean a ∧ Careful (s.apply bytes a) rest

theorem Sound.apply (h : s.Sound) {a : Act O T ι σ} (hclean : s.Clean a) :
    (s.apply bytes a).Sound := by
  cases a with
  | configure backend freshId => exact h.configure backend freshId
  | enroll firstLinkOnly response => exact h.enroll hclean
  | disconnect => exact h.disconnect
  | setFeatureSwitches telemetry => exact h.setFeatureSwitches telemetry
  | record payloads => exact h.record payloads
  | status => exact h.drainIncoming
  | flush result => exact h.flush result
  | restart => exact h.restart

theorem Sound.run (h : s.Sound) {acts : List (Act O T ι σ)} (hcareful : Careful bytes s acts) :
    (s.run bytes acts).Sound := by
  induction acts generalizing s with
  | nil => exact h
  | cons a rest ih => exact ih (h.apply hcareful.1) hcareful.2

omit [DecidableEq O] [DecidableEq T] [DecidableEq ι] in
theorem sound_fresh : (fresh : CloudLink O T ι σ).Sound := by
  refine ⟨?_, ?_, rfl, ?_, ?_, ?_, ?_, ?_, ?_⟩ <;> simp [fresh, Spool.empty]

end Temps.Cloud.CloudLink
