import Temps.Dns.Sync

namespace Temps.Dns.Sync

open Lib.Machine List

variable {p : Platform} {nodeId : ℤ} {s t : State}

namespace State

def Reported (s : State) (v : ℤ) : Prop := s.applied = some v ∨ v ∈ s.acks

/-- The answer holds the complete zone of a generation from its own on. -/
def Complete (p : Platform) (s : State) (body : ChangeSet) : Prop :=
  ∃ generation endpoints, (generation, endpoints) ∈ s.log ∧ body.generation ≤ generation ∧
    body.records = (Registry.fullZone p endpoints).map Endpoint.toRecord

/-- What a tick has learnt: from the reading of the counter on, nothing reported is above the
generation it is going to acknowledge. -/
def TickOk (p : Platform) (s : State) : Prop :=
  match s.tick with
  | .idle => True
  | .asked since => since = s.zone.generation
  | .sending _ => True
  | .labelled _ generation =>
    generation ≤ s.registry.generation ∧ ∀ v, s.Reported v → v ≤ generation
  | .answered since body =>
    if body.fullSnapshot then
      body.generation ≤ s.registry.generation ∧ (∀ v, s.Reported v → v ≤ body.generation) ∧
        s.Complete p body
    else body.generation ≤ since ∧ since = s.zone.generation ∧ ∀ v, s.Reported v → v ≤ since
  | .waiting generation =>
    s.zone.generation = generation ∧ ∀ v, s.Reported v → v ≤ generation
  | .stored generation =>
    s.zone.generation = generation ∧ s.applied = some generation ∧
      ∀ v, s.Reported v → v ≤ generation

structure Inv (p : Platform) (s : State) : Prop where
  zero : 0 ≤ s.registry.generation
  zone : s.zone.generation ≤ s.registry.generation
  disk : ∀ z ∈ s.disk, z.generation ≤ s.registry.generation
  reported : ∀ v, s.Reported v → v ≤ s.registry.generation ∧ s.HasHeld p v
  current : (s.registry.generation, s.registry.endpoints) ∈ s.log
  log : ∀ e ∈ s.log, e.1 ≤ s.registry.generation
  nodup : (s.log.map Prod.fst).Nodup
  tick : s.TickOk p

/-- An answer "up to date" goes to a node whose generation is stored. -/
def Settled (s : State) : Prop :=
  ∀ since body, s.tick = .answered since body → body.fullSnapshot = false →
    s.applied = some since

variable {r : Registry}

theorem inv_fresh (h : 0 ≤ r.generation) : Inv p (fresh r) where
  zero := h
  zone := h
  disk := by simp [fresh]
  reported := by simp [fresh, Reported]
  current := mem_singleton.mpr rfl
  log := by simp [fresh]
  nodup := by simp [fresh]
  tick := trivial

theorem HasHeld.mono {v : ℤ} (h : s.HasHeld p v) (hlog : s.log ⊆ t.log) (hheld : s.held ⊆ t.held) :
    t.HasHeld p v := by
  obtain ⟨generation, endpoints, hmem, hle, hzone⟩ := h
  exact ⟨generation, endpoints, hlog hmem, hle, hheld hzone⟩

variable {body : ChangeSet} {g since : ℤ} {a : Act} {next : Tick}

theorem Complete.mono (h : s.Complete p body) (hlog : s.log ⊆ t.log) : t.Complete p body := by
  obtain ⟨generation, endpoints, hmem, hrest⟩ := h
  exact ⟨generation, endpoints, hlog hmem, hrest⟩

theorem TickOk.mono (h : s.TickOk p) (htick : t.tick = s.tick) (hzone : t.zone = s.zone)
    (hgen : s.registry.generation ≤ t.registry.generation) (hlog : s.log ⊆ t.log)
    (hrep : ∀ v, t.Reported v → s.Reported v)
    (happlied : ∀ v, s.tick = .stored v → t.applied = some v) : t.TickOk p := by
  rw [TickOk, htick, hzone]
  rw [TickOk] at h
  split
  · trivial
  · simpa [*] using h
  · trivial
  · simp only [*] at h
    exact ⟨h.1.trans hgen, fun v hv ↦ h.2 v (hrep v hv)⟩
  · simp only [*] at h
    split
    · rw [if_pos ‹_›] at h
      exact ⟨h.1.trans hgen, fun v hv ↦ h.2.1 v (hrep v hv), h.2.2.mono hlog⟩
    · rw [if_neg ‹_›] at h
      exact ⟨h.1, h.2.1, fun v hv ↦ h.2.2 v (hrep v hv)⟩
  · simp only [*] at h
    exact ⟨h.1, fun v hv ↦ h.2 v (hrep v hv)⟩
  · simp only [*] at h
    exact ⟨h.1, happlied _ ‹_›, fun v hv ↦ h.2.2 v (hrep v hv)⟩

theorem TickOk.stored_applied (h : s.TickOk p) (htick : s.tick = .stored g) :
    s.zone.generation = g ∧ s.applied = some g ∧ ∀ v, s.Reported v → v ≤ g := by
  simpa [TickOk, htick] using h

theorem inv_write (h : Inv p s) (hb : Bumps s.registry r) : Inv p (s.write r) := by
  have hgen : s.registry.generation ≤ r.generation := by
    rcases hb with ⟨heq, -⟩ | heq <;> omega
  obtain ⟨hlog, hcurrent, hle, hnodup⟩ : s.log ⊆ (s.write r).log ∧
      (r.generation, r.endpoints) ∈ (s.write r).log ∧
      (∀ e ∈ (s.write r).log, e.1 ≤ r.generation) ∧ ((s.write r).log.map Prod.fst).Nodup := by
    rw [write]
    split
    case isTrue heq =>
      obtain ⟨-, hsame⟩ := hb.resolve_right (by omega)
      rw [heq, hsame]
      exact ⟨List.Subset.refl _, h.current, h.log, h.nodup⟩
    case isFalse hne =>
      refine ⟨subset_cons_self _ _, mem_cons_self, forall_mem_cons.mpr ⟨le_rfl, ?_⟩,
        nodup_cons.mpr ⟨fun hmem ↦ ?_, h.nodup⟩⟩
      · exact fun e he ↦ (h.log e he).trans hgen
      · obtain ⟨e, he, heq⟩ := mem_map.mp hmem
        have hle := h.log e he
        omega
  refine ⟨h.zero.trans hgen, h.zone.trans hgen, fun z hz ↦ (h.disk z hz).trans hgen, fun v hv ↦ ?_,
    hcurrent, hle, hnodup, ?_⟩
  · obtain ⟨hle, hheld⟩ := h.reported v hv
    exact ⟨hle.trans hgen, hheld.mono hlog (List.Subset.refl _)⟩
  · exact h.tick.mono rfl rfl hgen hlog (fun _ hv ↦ hv) fun v hv ↦ (h.tick.stored_applied hv).2.1

theorem ackApplied_spec {current v : ℤ} {stored : Option ℤ}
    (h : ackApplied nodeId current stored g = .ok v) :
    (stored = some v ∨ v = g) ∧ g ≤ v ∧ ∀ old ∈ stored, old ≤ v := by
  unfold ackApplied at h
  split at h
  case isTrue => exact nomatch h
  case isFalse =>
    cases stored with
    | none =>
      obtain rfl : g = v := by simpa using h
      exact ⟨.inr rfl, le_rfl, by simp⟩
    | some old =>
      obtain rfl : max old g = v := by simpa using h
      refine ⟨?_, by omega, by simp⟩
      obtain hmax | hmax : max old g = old ∨ max old g = g := by omega
      · exact .inl (by rw [hmax])
      · exact .inr hmax

theorem inv_ack (h : Inv p s) {applied : Option ℤ} (hrep : ∀ v, applied = some v → s.Reported v)
    (hstored : ∀ v, s.tick = .stored v → applied = some v)
    (hnext : s.tick = .waiting g → next = .idle ∨ next = .stored g ∧ applied = some g) :
    Inv p { s with
      applied := applied, acks := s.acks.erase g, tick := s.answerAck g next } := by
  have hsub : ∀ v, (applied = some v ∨ v ∈ s.acks.erase g) → s.Reported v := by
    rintro v (hv | hv)
    · exact hrep v hv
    · exact .inr (mem_of_mem_erase hv)
  refine { h with reported := fun v hv ↦ h.reported v (hsub v hv), tick := ?_ }
  by_cases hwait : s.tick = .waiting g
  · have hok := h.tick
    rw [TickOk, hwait] at hok
    rw [answerAck, if_pos hwait]
    rcases hnext hwait with rfl | ⟨rfl, rfl⟩
    · trivial
    · exact ⟨hok.1, rfl, fun v hv ↦ hok.2 v (hsub v hv)⟩
  · exact h.tick.mono (if_neg hwait) rfl le_rfl (List.Subset.refl _) hsub hstored

theorem inv_apply (h : Inv p s) {z : Zone} (persisted : Bool)
    (htick : s.tick = .answered since body) (hz : s.zone.receive since body = some z) :
    Inv p (s.apply z persisted) := by
  have hok := h.tick
  simp only [TickOk, htick] at hok
  rw [Zone.receive] at hz
  split at hz
  case isFalse hdiff =>
    -- an answer that is no snapshot is never ahead of the node
    rw [if_neg (by simpa using hdiff)] at hok
    rw [if_neg (by omega)] at hz
    exact nomatch hz
  case isTrue hfull =>
    rw [if_pos hfull] at hok
    obtain ⟨hgen, hrep, generation, endpoints, hmem, hle, hrecords⟩ := hok
    obtain rfl := Option.some.inj hz
    have hnew {v : ℤ} (hv : (s.apply (Zone.replace body.generation body.records) persisted).Reported
        v) : v = body.generation ∨ s.Reported v := by
      rcases hv with hv | hv
      · exact .inr (.inl hv)
      · exact (mem_cons.mp hv).imp_right .inr
    refine { h with zone := hgen, disk := ?_, reported := fun v hv ↦ ?_, tick := ?_ }
    · intro z hz
      simp only [apply] at hz
      split at hz
      · obtain rfl := Option.some.inj hz
        exact hgen
      · exact h.disk z hz
    · rcases hnew hv with rfl | hv
      · refine ⟨hgen, generation, endpoints, hmem, hle, ?_⟩
        rw [← hrecords]
        exact mem_cons_self
      · obtain ⟨hv', hold⟩ := h.reported v hv
        exact ⟨hv', hold.mono (List.Subset.refl _) (subset_cons_self _ _)⟩
    · exact ⟨rfl, fun v hv ↦ (hnew hv).elim Eq.le (hrep v)⟩

theorem inv_step (h : Inv p s) (hstep : s.step p nodeId a = some t) : Inv p t := by
  have hok := h.tick
  revert hstep
  fun_cases step p nodeId s a <;> rintro ⟨⟩
  case case1 r hr => exact inv_write h (replace_bumps p hr)
  case case2 => exact h
  case case3 | case4 => exact inv_write h (deleteWhere_bumps _ _)
  case case5 => exact { h with }
  case case6 => exact { h with tick := rfl }
  case case8 since htick hup =>
    rw [TickOk, htick] at hok
    refine { h with tick := ⟨hup.2, hok, fun v hv ↦ ?_⟩ }
    exact (h.reported v hv).1.trans hup.2
  case case11 => exact { h with tick := ⟨le_rfl, fun v hv ↦ (h.reported v hv).1⟩ }
  case case13 since generation htick =>
    rw [TickOk, htick] at hok
    exact { h with tick := ⟨hok.1, hok.2, _, _, h.current, hok.1, rfl⟩ }
  case case16 persisted since body htick z hz => exact inv_apply h persisted htick hz
  case case18 g hg v hv =>
    obtain ⟨hfrom, hge, hmax⟩ := ackApplied_spec hv
    have hrep : s.Reported v := hfrom.imp_right fun (hv : v = g) ↦ hv ▸ hg
    refine inv_ack h (fun w hw ↦ ?_) (fun w hw ↦ ?_) fun hwait ↦ .inr ⟨rfl, ?_⟩
    · obtain rfl := Option.some.inj hw
      exact hrep
    · obtain ⟨-, hw, hle⟩ := h.tick.stored_applied hw
      exact congrArg some (le_antisymm (hle v hrep) (hmax w hw))
    · rw [TickOk, hwait] at hok
      exact congrArg some (le_antisymm (hok.2 v hrep) hge)
  case case19 =>
    exact inv_ack h (fun w hw ↦ .inl hw) (fun w hw ↦ (h.tick.stored_applied hw).2.1)
      fun _ ↦ .inl rfl
  case case24 =>
    have hzone : (Zone.loadFromDisk s.disk).generation ≤ s.registry.generation := by
      cases hd : s.disk with
      | none => exact h.zero.trans le_rfl
      | some z => exact h.disk z hd
    refine { h with zone := hzone, reported := fun v hv ↦ ?_, tick := trivial }
    obtain ⟨hle, hheld⟩ := h.reported v hv
    exact ⟨hle, hheld.mono (List.Subset.refl _) (subset_cons_self _ _)⟩
  -- the tick moves to a stage that promises nothing
  all_goals exact { h with tick := trivial }

theorem TickOk.upToDate (h : s.TickOk p) (htick : s.tick = .answered since body)
    (hbody : body.fullSnapshot = false) :
    body.generation ≤ since ∧ since = s.zone.generation ∧ ∀ v, s.Reported v → v ≤ since := by
  simpa [TickOk, htick, hbody] using h

theorem answered_of_answerAck (hnext : ∀ since body, next ≠ .answered since body)
    (h : s.answerAck g next = .answered since body) : s.tick = .answered since body := by
  rw [answerAck] at h
  split at h
  · exact absurd h (hnext since body)
  · exact h

theorem settled_step (h : Inv p s) (hs : s.Settled) (ha : s.Repaired a)
    (hstep : s.step p nodeId a = some t) : t.Settled := by
  have hkeep {u : State} (htick : u.tick = s.tick) (happlied : u.applied = s.applied) :
      u.Settled := fun since body hu hbody ↦ happlied.trans (hs since body (htick ▸ hu) hbody)
  have hother {u : State} (hu : ∀ since body, u.tick ≠ .answered since body) : u.Settled :=
    fun since body htick ↦ absurd htick (hu since body)
  revert hstep
  fun_cases step p nodeId s a <;> rintro ⟨⟩
  case case1 | case3 | case4 | case5 => exact hkeep rfl rfl
  case case2 => exact hs
  case case8 since htick hup =>
    intro since' body hbody _
    obtain ⟨rfl, -⟩ := Tick.answered.inj hbody
    rcases ha since htick with hle | hlt | hstored
    · omega
    · omega
    · exact hstored
  case case13 =>
    intro since' body hbody hfull
    obtain ⟨-, rfl⟩ := Tick.answered.inj hbody
    exact nomatch hfull
  case case18 g hg v hv =>
    obtain ⟨hfrom, -, hmax⟩ := ackApplied_spec hv
    intro since body hbody hfull
    have hbefore := answered_of_answerAck (by simp) hbody
    have happlied := hs since body hbefore hfull
    have hle : v ≤ since :=
      (h.tick.upToDate hbefore hfull).2.2 v (hfrom.imp_right fun (hv : v = g) ↦ hv ▸ hg)
    exact congrArg some (le_antisymm hle (hmax since happlied))
  case case19 =>
    exact fun since body hbody hfull ↦ hs since body (answered_of_answerAck (by simp) hbody) hfull
  -- the other steps leave the tick at a stage without an answer
  all_goals exact hother (by simp [apply])

theorem applied_of_completes (h : Inv p s) (hs : s.Settled) (ha : s.Completes a)
    (hstep : s.step p nodeId a = some t) : t.applied = some t.zone.generation := by
  cases a with
  | deliver persisted =>
    obtain ⟨since, body, htick, hnone⟩ := ha
    have hbody : body.fullSnapshot = false := by
      by_contra hfull
      rw [Zone.receive, if_pos (by simpa using hfull)] at hnone
      exact nomatch hnone
    simp only [step, htick, hnone] at hstep
    obtain rfl := Option.some.inj hstep
    exact (hs since body htick hbody).trans
      (congrArg some (h.tick.upToDate htick hbody).2.1)
  | ackReply =>
    obtain ⟨g, htick⟩ := ha
    simp only [step, htick] at hstep
    obtain rfl := Option.some.inj hstep
    obtain ⟨hzone, happlied, -⟩ := h.tick.stored_applied htick
    exact happlied.trans (congrArg some hzone.symm)
  | _ => exact ha.elim

end State

def samplePlatform : Platform where
  isWhitespace c := c = ' '
  parseIp _ := some .v4
  debugTruncated text := text
  order e e' := e.id ≤ e'.id

def emptyRegistry : Registry := ⟨0, [], 1, [], []⟩

def sampleDraft : EndpointDraft :=
  ⟨"db.temps.local", .a, some "10.0.0.5", none, 30, .serviceMember, 4, none⟩

def syncedRun : List Act :=
  [.replace .serviceMember 4 [sampleDraft], .ask, .check, .label, .read, .deliver true,
   .ackHandle 1, .ackReply, .ask, .check]

def repaired (s : State) : Act → Bool
  | .check =>
    match s.tick with
    | .asked since => since ≤ 0 || since < s.registry.generation || s.applied == some since
    | _ => true
  | _ => true

theorem repaired_of_passes (s : State) (a : Act) (h : repaired s a) : s.Repaired a := by
  cases a with
  | check =>
    intro since htick
    simp only [repaired, htick, Bool.or_eq_true, decide_eq_true_eq, beq_iff_eq] at h
    rcases h with (h | h) | h
    · exact .inl h
    · exact .inr (.inl h)
    · exact .inr (.inr h)
  | _ => trivial

def lostAckRun : List Act :=
  [.replace .serviceMember 4 [sampleDraft], .ask, .check, .label, .read, .deliver true, .giveUp,
   .ask, .check, .deliver true]

end Temps.Dns.Sync
