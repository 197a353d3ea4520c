import Temps.Cloud.LinkBinding

namespace Temps.Cloud.CloudLink

open List Option

variable {O T ι σ : Type*} {bytes : σ → ℕ} {A : T} {s s' t : CloudLink O T ι σ}

def Channel (A : T) (s : CloudLink O T ι σ) : Prop :=
  ∀ batch ∈ s.incoming, ∀ span ∈ batch.spans, span.bound.tenant = A

/-- Two links that differ at most in what was recorded under one tenant. -/
structure Agree [DecidableEq T] (A : T) (s s' : CloudLink O T ι σ) : Prop where
  state : (s.persistPending none).state = (s'.persistPending none).state
  telemetry : s.telemetryEnabled = s'.telemetryEnabled
  generation : s.generation = s'.generation
  epoch : s.epoch = s'.epoch
  sent : (s.sent.filter fun d ↦ d.bound.tenant ≠ A) = s'.sent.filter fun d ↦ d.bound.tenant ≠ A
  buffers : s.tenant ≠ some A → s.spool = s'.spool ∧ s.pending = s'.pending
  channel : s.incoming = s'.incoming ∨ Channel A s ∧ Channel A s'

theorem drained_of_unlinked (hlinked : s.linked = false) : s.drained bytes = s.spool := by
  rw [drained, hlinked]
  generalize s.spool = spool
  induction s.incoming generalizing spool with
  | nil => rfl
  | cons batch rest ih => simp

/-- A step that changes only the buffers behind the producer channel and what has been sent. -/
structure Frame (s t : CloudLink O T ι σ) : Prop where
  state : (t.persistPending none).state = (s.persistPending none).state
  telemetry : t.telemetryEnabled = s.telemetryEnabled
  generation : t.generation = s.generation
  epoch : t.epoch = s.epoch
  incoming : t.incoming = s.incoming

theorem Frame.tenant (f : Frame s t) : t.tenant = s.tenant := by
  rw [← t.tenant_persistPending none, ← s.tenant_persistPending none, CloudLink.tenant,
    CloudLink.tenant, f.state]

def deliveries (s : CloudLink O T ι σ) (result : ShipResult) : List (Delivery O T σ) :=
  match s.bound, s.pending with
  | some bound, some spans => if result = .unsent then [] else [⟨bound, spans⟩]
  | _, _ => []

section

variable (s)

theorem record_eq (payloads : List σ) :
    s.record payloads = { s with incoming := (s.record payloads).incoming } := by
  fun_cases record s payloads <;> rfl

theorem state_persistPending (pending : Option (List (Span O T σ))) :
    ((s.persistPending pending).persistPending none).state = (s.persistPending none).state := by
  cases hstate : s.state <;> simp [persistPending, hstate]

theorem frame_prepare : Frame s s.prepare := by
  fun_cases prepare s
  case case1 | case2 => exact ⟨rfl, rfl, rfl, rfl, rfl⟩
  case case3 => exact ⟨s.state_persistPending _, rfl, rfl, rfl, rfl⟩

theorem sent_prepare : s.prepare.sent = s.sent := by
  fun_cases prepare s <;> rfl

variable (result : ShipResult)

theorem frame_ship : Frame s (s.ship result) := by
  fun_cases ship s result
  case case3 => exact ⟨s.state_persistPending _, rfl, rfl, rfl, rfl⟩
  all_goals exact ⟨rfl, rfl, rfl, rfl, rfl⟩

theorem sent_ship : (s.ship result).sent = s.sent ++ s.deliveries result := by
  unfold ship deliveries
  cases s.bound with
  | none => simp
  | some bound =>
    cases s.pending with
    | none => simp
    | some spans => cases result <;> simp

end

theorem filter_deliveries [DecidableEq T] (hA : s.tenant = some A) (result : ShipResult) :
    (s.deliveries result).filter (fun d ↦ d.bound.tenant ≠ A) = [] := by
  fun_cases deliveries s result
  case case2 bound spans _ hbound _ =>
    have htenant := some.inj ((tenant_of_bound hbound).symm.trans hA)
    simp [htenant]
  all_goals rfl

theorem Sound.no_buffers (hs : s.Sound) {t t' : T} (ht : s.tenant = some t) (hne : t ≠ t')
    (hclean : ∀ span ∈ s.buffered, span.bound.tenant = t') : s.spool = .empty ∧ s.pending = none := by
  have hnot : ∀ span ∈ s.buffered, s.bound ≠ some span.bound := by
    intro span hspan hbound
    have htenant := tenant_of_bound hbound
    rw [ht, hclean span hspan] at htenant
    exact hne (some.inj htenant)
  have hspool : s.spool.buffer = [] := by
    refine eq_nil_iff_forall_not_mem.mpr fun span hspan ↦ ?_
    exact hnot span (mem_append_left _ (mem_append_right _ hspan)) (hs.spool span hspan)
  refine ⟨congrArg Spool.mk hspool, ?_⟩
  · cases hpending : s.pending with
    | none => rfl
    | some spans =>
      have hspans : spans = [] := by
        refine eq_nil_iff_forall_not_mem.mpr fun span hspan ↦ ?_
        refine hnot span (mem_append_right _ ?_) (hs.pending spans hpending span hspan)
        rwa [hpending]
      exact absurd (hspans ▸ hpending) hs.shipping

section Agree

variable [DecidableEq T] (h : Agree A s s')
include h

namespace Agree

theorem tenant : s.tenant = s'.tenant := by
  rw [← s.tenant_persistPending none, ← s'.tenant_persistPending none, CloudLink.tenant,
    CloudLink.tenant, h.state]

theorem bound : s.bound = s'.bound := by
  rw [← s.bound_persistPending none, ← s'.bound_persistPending none, CloudLink.bound,
    CloudLink.bound, h.state]
  have hepoch : (s.persistPending none).epoch = (s'.persistPending none).epoch := h.epoch
  rw [hepoch]

theorem cases : s.state = none ∧ s'.state = none ∨
    ∃ state pending', s.state = some state ∧
      s'.state = some { state with pendingSubmission := pending' } := by
  have hstate := h.state
  rw [persistPending, persistPending] at hstate
  cases h₁ : s.state with
  | none =>
    cases h₂ : s'.state with
    | none => exact .inl ⟨rfl, rfl⟩
    | some state' => simp [h₁, h₂] at hstate
  | some state =>
    cases h₂ : s'.state with
    | none => simp [h₁, h₂] at hstate
    | some state' =>
      refine .inr ⟨state, state'.pendingSubmission, rfl, ?_⟩
      simp only [h₁, h₂, map_some, some.injEq, EnrollmentState.mk.injEq] at hstate
      obtain ⟨hid, hurl, htoken, -⟩ := hstate
      simp [hid, hurl, htoken]

theorem linked : s.linked = s'.linked := by
  rw [CloudLink.linked, CloudLink.linked, h.bound]

theorem disconnect : Agree A s.disconnect s'.disconnect := by
  refine { h with
    state := ?_
    generation := congrArg (· + 1) h.generation
    epoch := congrArg (· + 1) h.epoch
    buffers := fun _ ↦ ⟨rfl, rfl⟩ }
  obtain ⟨h₁, h₂⟩ | ⟨state, pending', h₁, h₂⟩ := h.cases
  all_goals simp [CloudLink.disconnect, persistPending, h₁, h₂, EnrollmentState.unlink]

theorem setFeatureSwitches (telemetry : Bool) :
    Agree A (s.setFeatureSwitches telemetry) (s'.setFeatureSwitches telemetry) := by
  cases telemetry with
  | true => exact { h with telemetry := rfl }
  | false =>
    refine ⟨?_, rfl, ?_, congrArg (· + 1) h.epoch, h.sent, fun _ ↦ ⟨rfl, rfl⟩, .inl rfl⟩
    · obtain ⟨h₁, h₂⟩ | ⟨state, pending', h₁, h₂⟩ := h.cases
      all_goals simp [CloudLink.setFeatureSwitches, persistPending, h₁, h₂]
    · simp only [CloudLink.setFeatureSwitches, Bool.false_eq_true, if_false, h.telemetry, h.generation]

theorem configure [DecidableEq O] (backend : O) (freshId : ι) :
    Agree A (s.configure backend freshId) (s'.configure backend freshId) := by
  obtain ⟨h₁, h₂⟩ | ⟨state, pending', h₁, h₂⟩ := h.cases
  · have hbuffers := h.buffers (by simp [CloudLink.tenant, h₁])
    simp only [CloudLink.configure, h₁, h₂]
    exact { h with
      state := rfl
      generation := congrArg (· + 1) h.generation
      buffers := fun _ ↦ hbuffers }
  · simp only [CloudLink.configure, h₁, h₂]
    split
    case isTrue =>
      refine { h with
        state := rfl
        generation := congrArg (· + 1) h.generation
        buffers := fun hne ↦ h.buffers ?_ }
      rwa [CloudLink.tenant, h₁]
    case isFalse =>
      by_cases hlinked : state.isLinked
      · have hlinked' : ({ state with pendingSubmission := pending' } :
          EnrollmentState O T ι (Span O T σ)).isLinked := hlinked
        rw [if_pos hlinked, if_pos hlinked']
        exact h
      · have hlinked' : ¬ ({ state with pendingSubmission := pending' } :
          EnrollmentState O T ι (Span O T σ)).isLinked := hlinked
        rw [if_neg hlinked, if_neg hlinked']
        exact { h with
          state := rfl
          generation := congrArg (· + 1) h.generation
          epoch := congrArg (· + 1) h.epoch
          buffers := fun _ ↦ ⟨rfl, rfl⟩ }

theorem of_record (hA : s.tenant = some A) {payloads payloads' : List σ}
    (hs : (s.record payloads).Sound) (hs' : (s'.record payloads').Sound) :
    Agree A (s.record payloads) (s'.record payloads') := by
  have htenant := h.tenant
  have hchannel : Channel A (s.record payloads) ∧ Channel A (s'.record payloads') := by
    refine ⟨fun batch hbatch ↦ hs.tenants batch hbatch A ?_,
      fun batch hbatch ↦ hs'.tenants batch hbatch A ?_⟩
    · rwa [record_eq]
    · rw [record_eq]
      exact htenant ▸ hA
  rw [record_eq s, record_eq s']
  exact { h with buffers := absurd hA, channel := .inr hchannel }

theorem of_frames {t' : CloudLink O T ι σ} (f : Frame s t) (f' : Frame s' t')
    (hsent : (t.sent.filter fun d ↦ d.bound.tenant ≠ A) = t'.sent.filter fun d ↦ d.bound.tenant ≠ A)
    (hbuffers : s.tenant ≠ some A → t.spool = t'.spool ∧ t.pending = t'.pending) : Agree A t t' where
  state := f.state.trans (h.state.trans f'.state.symm)
  telemetry := f.telemetry.trans (h.telemetry.trans f'.telemetry.symm)
  generation := f.generation.trans (h.generation.trans f'.generation.symm)
  epoch := f.epoch.trans (h.epoch.trans f'.epoch.symm)
  sent := hsent
  buffers := fun hne ↦ hbuffers (f.tenant ▸ hne)
  channel := by
    rw [Channel, Channel, f.incoming, f'.incoming]
    exact h.channel

theorem prepare : Agree A s.prepare s'.prepare := by
  refine h.of_frames (frame_prepare s) (frame_prepare s') ?_ ?_
  · rw [sent_prepare, sent_prepare]
    exact h.sent
  · intro hne
    obtain ⟨hspool, hpending⟩ := h.buffers hne
    rw [CloudLink.prepare, CloudLink.prepare, ← hpending, ← hspool]
    split
    case h_1 => exact ⟨hspool, hpending⟩
    case h_2 =>
      split
      case h_1 => exact ⟨hspool, hpending⟩
      case h_2 => exact ⟨rfl, rfl⟩

theorem ship (result : ShipResult) : Agree A (s.ship result) (s'.ship result) := by
  refine h.of_frames (frame_ship s result) (frame_ship s' result) ?_ ?_
  · rw [sent_ship, sent_ship, filter_append, filter_append, h.sent]
    by_cases hA : s.tenant = some A
    · rw [filter_deliveries hA, filter_deliveries (h.tenant ▸ hA)]
    · rw [deliveries, deliveries, h.bound, (h.buffers hA).2]
  · intro hne
    obtain ⟨hspool, hpending⟩ := h.buffers hne
    unfold CloudLink.ship
    rw [h.bound, hpending]
    split
    case h_1 => cases result <;> simp [hspool, hpending, persistPending]
    case h_2 => exact ⟨hspool, hpending⟩

variable (hs : s.Sound) (hs' : s'.Sound)
include hs hs'

theorem incoming {t : T} (ht : s.tenant = some t) (hne : t ≠ A) : s.incoming = s'.incoming := by
  have hnil : ∀ {u : CloudLink O T ι σ}, u.Sound → u.tenant = some t → Channel A u →
      u.incoming = [] := by
    intro u hu htu hchannel
    refine eq_nil_iff_forall_not_mem.mpr fun batch hbatch ↦ ?_
    obtain ⟨span, hspan⟩ := exists_mem_of_ne_nil _ (hu.nonempty batch hbatch)
    exact hne ((hu.tenants batch hbatch t htu span hspan).symm.trans
      (hchannel batch hbatch span hspan))
  rcases h.channel with heq | ⟨hA, hA'⟩
  · exact heq
  · rw [hnil hs ht hA, hnil hs' (h.tenant ▸ ht) hA']

theorem drainIncoming : Agree A (s.drainIncoming bytes) (s'.drainIncoming bytes) := by
  refine { h with buffers := fun hne ↦ ?_, channel := .inl rfl }
  obtain ⟨hspool, hpending⟩ := h.buffers hne
  refine ⟨?_, hpending⟩
  change s.drained bytes = s'.drained bytes
  cases htenant : s.tenant with
  | none =>
    have hlinked : s.linked = false := by
      cases hbound : s.bound with
      | none => rw [CloudLink.linked, hbound, isSome_none]
      | some bound => rw [tenant_of_bound hbound] at htenant; cases htenant
    rw [drained_of_unlinked hlinked, drained_of_unlinked (h.linked ▸ hlinked), hspool]
  | some t =>
    have hincoming := h.incoming hs hs' htenant fun heq ↦ hne (heq ▸ htenant)
    rw [drained, drained, hincoming, hspool, h.generation, h.linked]

theorem restart : Agree A s.restart s'.restart := by
  refine { h with
    telemetry := rfl
    generation := rfl
    buffers := fun hne ↦ ⟨rfl, ?_⟩
    channel := .inl rfl }
  exact hs.disk.trans ((h.buffers hne).2.trans hs'.disk.symm)

theorem enroll [DecidableEq ι] {firstLinkOnly : Bool} {response : Option (EnrollResponse T ι)}
    (hclean : s.Clean (.enroll firstLinkOnly response))
    (hclean' : s'.Clean (.enroll firstLinkOnly response)) :
    Agree A (s.enroll firstLinkOnly response) (s'.enroll firstLinkOnly response) := by
  obtain ⟨h₁, h₂⟩ | ⟨state, pending', h₁, h₂⟩ := h.cases
  · simp only [CloudLink.enroll, h₁, h₂]
    exact h
  · cases response with
    | none =>
      simp only [CloudLink.enroll, h₁, h₂]
      exact h
    | some response =>
      simp only [CloudLink.enroll, h₁, h₂]
      by_cases henrolls : enrolls firstLinkOnly response state
      · have henrolls' : enrolls firstLinkOnly response
          { state with pendingSubmission := pending' } := henrolls
        rw [if_pos henrolls, if_pos henrolls']
        refine { h with
          state := rfl
          generation := congrArg (· + 1) h.generation
          epoch := by simp only [h.epoch]
          buffers := fun hne ↦ ?_ }
        have htenant : response.tenantId ≠ A := fun heq ↦ hne (congrArg some heq)
        by_cases hA : s.tenant = some A
        · have hempty := hs.no_buffers hA htenant.symm (hclean state h₁ henrolls)
          have hempty' := hs'.no_buffers (h.tenant ▸ hA) htenant.symm (hclean' _ h₂ henrolls')
          exact ⟨hempty.1.trans hempty'.1.symm, hempty.2.trans hempty'.2.symm⟩
        · exact h.buffers hA
      · have henrolls' : ¬ enrolls firstLinkOnly response
          { state with pendingSubmission := pending' } := henrolls
        rw [if_neg henrolls, if_neg henrolls']
        exact h

theorem record (payloads : List σ) : Agree A (s.record payloads) (s'.record payloads) := by
  by_cases hA : s.tenant = some A
  · exact h.of_record hA (hs.record payloads) (hs'.record payloads)
  · cases hbound : s.bound with
    | none =>
      have hbound' : s'.bound = none := h.bound ▸ hbound
      rw [CloudLink.record, CloudLink.record, hbound, hbound']
      exact h
    | some bound =>
      have hincoming : s.incoming = s'.incoming :=
        h.incoming hs hs' (tenant_of_bound hbound) fun heq ↦ hA (heq ▸ tenant_of_bound hbound)
      have hrecord : (s.record payloads).incoming = (s'.record payloads).incoming := by
        rw [CloudLink.record, CloudLink.record, ← h.bound, hbound, ← h.telemetry]
        dsimp only
        rw [hincoming, h.generation]
        split
        case isTrue => exact hincoming
        case isFalse =>
          split
          case isTrue => rfl
          case isFalse => exact hincoming
      rw [record_eq s, record_eq s']
      exact { h with channel := .inl hrecord }

theorem flush (result : ShipResult) : Agree A (s.flush bytes result) (s'.flush bytes result) := by
  have hdrained : Agree A (s.drainIncoming bytes) (s'.drainIncoming bytes) := h.drainIncoming hs hs'
  simp only [CloudLink.flush]
  rw [hdrained.telemetry, hdrained.linked]
  split
  case isTrue => exact hdrained
  case isFalse =>
    split
    case isTrue => exact hdrained
    case isFalse => exact hdrained.prepare.ship result

end Agree

end Agree

section Runs

variable [DecidableEq O] [DecidableEq T] [DecidableEq ι]

theorem Agree.apply (h : Agree A s s') (hs : s.Sound) (hs' : s'.Sound) {a : Act O T ι σ}
    (hclean : s.Clean a) (hclean' : s'.Clean a) : Agree A (s.apply bytes a) (s'.apply bytes a) := by
  cases a with
  | configure backend freshId => exact h.configure backend freshId
  | enroll firstLinkOnly response => exact h.enroll hs hs' hclean hclean'
  | disconnect => exact h.disconnect
  | setFeatureSwitches telemetry => exact h.setFeatureSwitches telemetry
  | record payloads => exact h.record hs hs' payloads
  | status => exact h.drainIncoming hs hs'
  | flush result => exact h.flush hs hs' result
  | restart => exact h.restart hs hs'

/-- Two runs that differ only in the spans recorded while the instance is linked to the tenant. -/
inductive Alike (bytes : σ → ℕ) (A : T) :
    CloudLink O T ι σ → CloudLink O T ι σ → List (Act O T ι σ) → List (Act O T ι σ) → Prop
  | nil {u u' : CloudLink O T ι σ} : Alike bytes A u u' [] []
  | same {u u' : CloudLink O T ι σ} {rest rest' : List (Act O T ι σ)} (a : Act O T ι σ)
      (h : Alike bytes A (u.apply bytes a) (u'.apply bytes a) rest rest') :
    Alike bytes A u u' (a :: rest) (a :: rest')
  | record {u u' : CloudLink O T ι σ} {payloads payloads' : List σ} {rest rest' : List (Act O T ι σ)}
      (hA : u.tenant = some A) (hA' : u'.tenant = some A)
      (h : Alike bytes A (u.record payloads) (u'.record payloads') rest rest') :
    Alike bytes A u u' (.record payloads :: rest) (.record payloads' :: rest')

theorem Alike.agree {acts acts' : List (Act O T ι σ)} (h : Alike bytes A s s' acts acts')
    (hagree : Agree A s s') (hs : s.Sound) (hs' : s'.Sound) (hcareful : Careful bytes s acts)
    (hcareful' : Careful bytes s' acts') : Agree A (s.run bytes acts) (s'.run bytes acts') := by
  induction h with
  | nil => exact hagree
  | same a _ ih =>
    exact ih (hagree.apply hs hs' hcareful.1 hcareful'.1) (hs.apply hcareful.1)
      (hs'.apply hcareful'.1) hcareful.2 hcareful'.2
  | record hA _ _ ih =>
    exact ih (hagree.of_record hA (hs.record _) (hs'.record _)) (hs.record _) (hs'.record _)
      hcareful.2 hcareful'.2

/-- Every span is sent over the link it was recorded under, and what is recorded under one tenant
makes no difference for the others. -/
theorem telemetry_stays_bound {acts : List (Act O T ι σ)} (hcareful : Careful bytes .fresh acts) :
    (∀ d ∈ (fresh.run bytes acts).sent, ∀ span ∈ d.spans, span.bound = d.bound) ∧
    ∀ A acts', Careful bytes .fresh acts' → Alike bytes A .fresh .fresh acts acts' →
      ((fresh.run bytes acts).sent.filter fun d ↦ d.bound.tenant ≠ A) =
        (fresh.run bytes acts').sent.filter fun d ↦ d.bound.tenant ≠ A := by
  refine ⟨(sound_fresh.run hcareful).sent, ?_⟩
  intro A acts' hcareful' halike
  have hfresh : Agree A (fresh : CloudLink O T ι σ) fresh :=
    ⟨rfl, rfl, rfl, rfl, rfl, fun _ ↦ ⟨rfl, rfl⟩, .inl rfl⟩
  exact (halike.agree hfresh sound_fresh sound_fresh hcareful hcareful').sent

end Runs

def exporting : List (Act ℕ ℕ ℕ ℕ) :=
  [.configure 0 0, .enroll false (some ⟨1, none⟩), .setFeatureSwitches true]

def moved : List (Act ℕ ℕ ℕ ℕ) :=
  [.disconnect, .enroll false (some ⟨2, none⟩), .record [8], .flush .acknowledged]

theorem telemetry_stays_bound_moved :
    (fresh.run (fun _ ↦ 80) (exporting ++ [.record [7], .flush .acknowledged] ++ moved)).sent =
        [⟨⟨0, 1, 1⟩, [⟨7, 0, 1, 1⟩]⟩, ⟨⟨0, 2, 3⟩, [⟨8, 0, 2, 3⟩]⟩] ∧
      ∀ d ∈ (fresh.run (fun _ ↦ 80) (exporting ++ [.record [7], .flush .acknowledged] ++ moved)).sent,
        ∀ span ∈ d.spans, span.bound = d.bound := by
  refine ⟨rfl, (telemetry_stays_bound ?_).1⟩
  have hempty : ∀ {s : CloudLink ℕ ℕ ℕ ℕ} {t : ℕ}, s.buffered = [] →
      s.Clean (.enroll false (some ⟨t, none⟩)) := by
    intro s t hnil state _ _ span hspan
    rw [hnil] at hspan
    cases hspan
  exact ⟨trivial, hempty rfl, trivial, trivial, trivial, trivial, hempty rfl, trivial, trivial, trivial⟩

def filled (payloads : List ℕ) : List (Act ℕ ℕ ℕ ℕ) := List.replicate 8 (.record payloads)

/-- A span recorded under tenant 1 is sent to tenant 2 when tenant 2 is enrolled over the link; and
what is left in the producer channel of tenant 1 keeps a span of tenant 2 from being recorded. -/
theorem telemetry_crosses_tenants :
    (∃ d ∈ (fresh.run (fun _ ↦ 80) (exporting ++ [.record [7], .status,
      .enroll false (some ⟨2, none⟩), .flush .acknowledged])).sent,
        ∃ span ∈ d.spans, span.bound.tenant = 1 ∧ d.bound.tenant = 2) ∧
    Alike (fun _ ↦ 80) 1 .fresh .fresh (exporting ++ filled [7] ++ moved)
      (exporting ++ filled [] ++ moved) ∧
    ((fresh.run (fun _ ↦ 80) (exporting ++ filled [7] ++ moved)).sent.filter
      fun d ↦ d.bound.tenant ≠ 1) = [] ∧
    ((fresh.run (fun _ ↦ 80) (exporting ++ filled [] ++ moved)).sent.filter
      fun d ↦ d.bound.tenant ≠ 1) ≠ [] := by
  refine ⟨?_, ?_, rfl, ?_⟩
  · exact ⟨_, mem_singleton_self _, _, mem_singleton_self _, rfl, rfl⟩
  · refine .same _ (.same _ (.same _ ?_))
    refine .record rfl rfl (.record rfl rfl (.record rfl rfl (.record rfl rfl ?_)))
    refine .record rfl rfl (.record rfl rfl (.record rfl rfl (.record rfl rfl ?_)))
    exact .same _ (.same _ (.same _ (.same _ .nil)))
  · exact cons_ne_nil _ _

end Temps.Cloud.CloudLink
