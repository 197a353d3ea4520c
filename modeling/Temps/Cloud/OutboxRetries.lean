import Temps.Cloud.Outbox

namespace Temps.Cloud.Outbox

open Lib.Custody Lib.Machine List Function

variable {s t : SpanOutbox} {a : Act} {r : Row} {i d : ℕ} {p q : Drain} {state : RowState}

/-- A drain has nothing in its hands that still counts: its batch has been refused, and no row of it
for the last time. -/
def Spent (s : SpanOutbox) (d : ℕ) : Prop :=
  match s.drains d with
  | .idle => True
  | .refused ids | .recorded ids =>
    ∀ i ∈ ids, (s.rows i).state = .pending → (s.rows i).attempts < outboxMaxAttempts
  | _ => False

/-- No claim takes a row that another drain has in its hands; a batch that is not offered is not
counted as refused, and no reply to an accepted batch is lost; a drain loses its batch, by a failed
statement, a timeout or a crash, only when it is spent. -/
def Undisturbed (s : SpanOutbox) : Act → Prop
  | .claim _ => ∀ i ∈ s.claimIds, ∀ d, i ∉ (s.drains d).ids
  | .skip _ blocked => blocked = false
  | .answer _ answer => answer ≠ .lost
  | .abandon d _ => Spent s d
  | .crash _ => ∀ d, Spent s d
  | _ => True

/-- The attempts of a free row are its refusals, and there is one left. -/
def Row.Retryable (r : Row) : Prop :=
  r.state = .pending → r.attempts = r.refusals ∧ r.attempts < outboxMaxAttempts

/-- The attempts of a row in the hands of a drain: its refusals, and the current offer until it is
refused. -/
def Drain.Counts (r : Row) : Drain → Prop
  | .refused _ | .recorded _ => r.attempts = r.refusals ∧ r.attempts ≤ outboxMaxAttempts
  | _ => r.attempts = r.refusals + 1 ∧ r.attempts ≤ outboxMaxAttempts

def Drain.Knows (i : ℕ) (r : Row) : Drain → Prop
  | .decoding _ undecodable => i ∈ undecodable → r.decodable = false
  | .shipped _ => r.acknowledged = true
  | _ => True

def Holding (p : Drain) (i : ℕ) (r : Row) : Prop :=
  (r.state = .pending → p.Counts r) ∧ p.Knows i r

structure Row.Justified (r : Row) : Prop where
  delivered : r.state = .delivered → r.acknowledged = true
  spilled : r.state = .spilledToLocal → r.keptLocally = true
  deadLetter : r.state = .deadLetter → r.decodable = false ∨ outboxMaxAttempts ≤ r.refusals

structure Retries (s : SpanOutbox) : Prop where
  kept : Kept holds Holding (fun _ r ↦ r.Retryable) s.drains s.rows
  justified : ∀ i, (s.rows i).Justified
  spills : ∀ j ids, s.spills j = .stored ids → ∀ i ∈ ids, (s.rows i).keptLocally = true

theorem Row.Justified.of_pending (hpending : r.state = .pending) : r.Justified :=
  ⟨fun h ↦ by simp [hpending] at h, fun h ↦ by simp [hpending] at h,
    fun h ↦ by simp [hpending] at h⟩

theorem Row.Justified.settle (h : r.Justified) (hdelivered : state = .delivered → r.acknowledged)
    (hspilled : state = .spilledToLocal → r.keptLocally)
    (hdead : state = .deadLetter → r.decodable = false ∨ outboxMaxAttempts ≤ r.refusals) :
    (r.settle state).Justified := by
  by_cases hr : r.state = .pending
  · rw [Row.settle_pending hr]
    exact ⟨hdelivered, hspilled, hdead⟩
  · rwa [Row.settle_of_ne hr]

theorem Row.Retryable.of_settled (h : r.state ≠ .pending) : r.Retryable := fun hr ↦ absurd hr h

theorem Holding.keep (h : Holding q i r) : Holding q i r.keep := by
  cases q <;> exact h

theorem Holding.settle (h : Holding q i r) (hne : state ≠ .pending) :
    Holding q i (r.settle state) := by
  by_cases hr : r.state = .pending
  · rw [Row.settle_pending hr]
    refine ⟨fun hpending ↦ absurd hpending hne, ?_⟩
    cases q <;> exact h.2
  · rwa [Row.settle_of_ne hr]

theorem keptLocally_settle (r : Row) (state : RowState) :
    (r.settle state).keptLocally = r.keptLocally := by
  rw [Row.settle]
  split <;> rfl

theorem Retries.lock (h : Retries s) (lock : Option ℕ) : Retries { s with lock := lock } :=
  { h with }

variable {ids : List ℕ}

section

variable (h : Retries s)
include h

namespace Retries

variable {f : Row → Row}

theorem drain (hdrain : s.drains d = q) (hids : ∀ i ∈ ids, i ∈ q.ids)
    (hkept : Kept holds Holding (fun _ r ↦ r.Retryable) (update s.drains d p) (s.update ids f).rows)
    (hjustified : ∀ i ∈ ids, Holding q i (s.rows i) → (s.rows i).Justified →
      (f (s.rows i)).Justified) (hlocal : ∀ r, (f r).keptLocally = r.keptLocally) :
    Retries ((s.update ids f).setDrain d p) where
  kept := hkept
  justified := fun i ↦ update_cases (h.justified i) fun hi hrow ↦
    hjustified i hi (hdrain ▸ h.kept.held d i (hdrain.symm ▸ hids i hi)) hrow
  spills := by
    intro j ids' hj i hi
    exact update_cases (P := fun r ↦ r.keptLocally) (h.spills j ids' hj i hi)
      fun _ hrow ↦ (hlocal _).trans hrow

theorem setDrain (hdrain : s.drains d = q) (hp : p.ids = q.ids)
    (hheld : ∀ i, Holding q i (s.rows i) → Holding p i (s.rows i)) : Retries (s.setDrain d p) where
  kept := kept_setDrain h.kept hdrain hp fun i _ ↦ hheld i
  justified := h.justified
  spills := h.spills

theorem finish (hdrain : s.drains d = q)
    (hfree : ∀ i, Holding q i (s.rows i) → (f (s.rows i)).Retryable)
    (hjustified : ∀ i, Holding q i (s.rows i) → (s.rows i).Justified → (f (s.rows i)).Justified)
    (hlocal : ∀ r, (f r).keptLocally = r.keptLocally) :
    Retries ((s.update q.ids f).setDrain d .idle) :=
  h.drain hdrain (fun _ ↦ id) (kept_finish h.kept hdrain fun i _ ↦ hfree i)
    (fun i _ ↦ hjustified i) hlocal

theorem claim (hdrain : s.drains d = .idle)
    (hown : ∀ i ∈ s.claimIds, ∀ d, i ∉ (s.drains d).ids) : Retries (s.claim d) where
  kept := by
    refine kept_claim h.kept hdrain hown fun i _ hfree ↦ ⟨fun hpending ↦ ?_, fun hbad ↦ ?_⟩
    · obtain ⟨heq, hlt⟩ := hfree hpending
      exact ⟨congrArg (· + 1) heq, hlt⟩
    · have hrow := (mem_filter.mp hbad).2
      simpa [Row.claim] using hrow
  justified := fun i ↦ update_cases (h.justified i) fun _ hrow ↦
    { hrow with }
  spills := by
    intro j ids hj i hi
    exact update_cases (P := fun r ↦ r.keptLocally) (h.spills j ids hj i hi) fun _ ↦ id

theorem enqueue (hknown : Known s) (projectId : ℕ) (decodable : Bool) :
    Retries { s with
      rows := update s.rows s.count (.new projectId decodable)
      count := s.count + 1 } where
  kept := by
    refine kept_enqueue h.kept hknown fun _ ↦ ⟨rfl, ?_⟩
    simp [Row.new, outboxMaxAttempts]
  justified := (forall_update_iff s.rows fun _ r ↦ r.Justified).mpr
    ⟨.of_pending rfl, fun i _ ↦ h.justified i⟩
  spills := by
    intro j ids hj i hi
    have hne : i ≠ s.count := Nat.ne_of_lt (hknown.spills j i (by rwa [hj]))
    simp only [update_of_ne hne]
    exact h.spills j ids hj i hi

theorem deadLetter {good bad : List ℕ} (hdrain : s.drains d = .decoding good bad) :
    Retries ((s.update bad (Row.settle · .deadLetter)).setDrain d (.ofClaimed good)) := by
  have hbad : ∀ i ∈ bad, i ∈ (Drain.decoding good bad).ids := fun i ↦ mem_append_right _
  have hgood : ∀ i ∈ (Drain.ofClaimed good).ids, i ∈ (Drain.decoding good bad).ids :=
    fun i hi ↦ mem_append_left _ (ids_ofClaimed good ▸ hi)
  refine h.drain hdrain hbad (kept_drain h.kept hdrain hbad hgood ?_ ?_) ?_ (keptLocally_settle · _)
  · intro i hi hrow
    cases good with
    | nil => cases hi
    | cons first rest =>
      refine ⟨fun hpending ↦ ?_, trivial⟩
      rw [rows_update] at hpending ⊢
      split at hpending
      case isTrue => exact absurd hpending (Row.not_pending_settle (by simp))
      case isFalse hnot =>
        rw [if_neg hnot]
        exact hrow.1 hpending
  · intro i hi hnot _
    rw [ids_ofClaimed] at hnot
    rw [rows_update, if_pos ((mem_append.mp hi).resolve_left hnot)]
    exact .of_settled (Row.not_pending_settle (by simp))
  · exact fun i hi hrow hjustified ↦ hjustified.settle (by simp) (by simp) fun _ ↦ .inl (hrow.2 hi)

theorem answer {answer : Answer} (hdrain : s.drains d = .shipping ids) (hlost : answer ≠ .lost) :
    Retries ((s.update ids answer.effect).setDrain d (answer.next ids)) := by
  refine h.drain hdrain (fun _ ↦ id) (kept_advance h.kept hdrain (answer.ids_next ids) ?_) ?_ ?_
  · intro i _ hrow
    obtain ⟨hcounts, -⟩ := hrow
    cases answer with
    | acknowledged => exact ⟨hcounts, rfl⟩
    | refused =>
      refine ⟨fun hpending ↦ ?_, trivial⟩
      exact hcounts hpending
    | lost => exact absurd rfl hlost
    | dropped stored =>
      cases stored with
      | true | false => exact ⟨hcounts, trivial⟩
  · intro i _ _ hrow
    cases answer with
    | acknowledged => exact ⟨fun _ ↦ rfl, hrow.spilled, hrow.deadLetter⟩
    | refused =>
      refine ⟨hrow.delivered, hrow.spilled, fun hdead ↦ ?_⟩
      exact (hrow.deadLetter hdead).imp id Nat.le_succ_of_le
    | lost => exact absurd rfl hlost
    | dropped stored =>
      cases stored with
      | true => exact { hrow with }
      | false => exact hrow
  · intro r
    cases answer with
    | acknowledged | refused | lost => rfl
    | dropped stored => cases stored <;> rfl

theorem deadLetterExhausted (hdrain : s.drains d = .recorded ids) :
    Retries ((s.update ids Row.exhaust).setDrain d .idle) := by
  refine h.finish hdrain ?_ ?_ ?_
  · intro i hrow hpending
    by_cases hlast : (s.rows i).state = .pending ∧ outboxMaxAttempts ≤ (s.rows i).attempts
    · rw [Row.exhaust_eq hlast.1 hlast.2] at hpending
      cases hpending
    · rw [Row.exhaust_of_not hlast] at hpending ⊢
      obtain ⟨heq, -⟩ := hrow.1 hpending
      exact ⟨heq, Nat.lt_of_not_le fun hmax ↦ hlast ⟨hpending, hmax⟩⟩
  · intro i hrow hjustified
    by_cases hlast : (s.rows i).state = .pending ∧ outboxMaxAttempts ≤ (s.rows i).attempts
    · rw [Row.exhaust_eq hlast.1 hlast.2]
      obtain ⟨heq, -⟩ := hrow.1 hlast.1
      exact ⟨nofun, nofun, fun _ ↦ .inr (heq ▸ hlast.2)⟩
    · rwa [Row.exhaust_of_not hlast]
  · intro r
    rw [Row.exhaust]
    split <;> rfl

theorem releaseClaim (hdrain : s.drains d = .notLinked ids) :
    Retries ((s.update ids Row.release).setDrain d .idle) := by
  have hstate : ∀ r : Row, r.release.state = r.state := by
    intro r
    rw [Row.release]
    split <;> rfl
  refine h.finish hdrain ?_ ?_ ?_
  · intro i hrow hpending
    rw [hstate] at hpending
    obtain ⟨heq, hmax⟩ := hrow.1 hpending
    rw [Row.release, if_pos hpending]
    dsimp only
    omega
  · intro i _ hjustified
    rw [Row.release]
    split
    case isTrue hpending => exact .of_pending hpending
    case isFalse => exact hjustified
  · intro r
    rw [Row.release]
    split <;> rfl

end Retries

end

theorem Spent.inFlight (h : Spent s d) : (s.drains d).inFlight = [] := by
  rw [Spent] at h
  split at h
  case h_1 hd | h_2 hd | h_3 hd => rw [hd]; rfl
  case h_4 => exact absurd h not_false

theorem Spent.retryable (h : Spent s d) (hi : i ∈ (s.drains d).ids)
    (hrow : Holding (s.drains d) i (s.rows i)) : (s.rows i).Retryable := by
  intro hpending
  have hcounts := hrow.1 hpending
  rw [Spent] at h
  split at h
  case h_1 hd => rw [hd] at hi; cases hi
  case h_2 ids hd | h_3 ids hd =>
    rw [hd] at hi hcounts
    exact ⟨hcounts.1, h i hi hpending⟩
  case h_4 => exact absurd h not_false

namespace Retries

variable (h : Retries s)
include h

theorem abandon (hspent : Spent s d) (stored : Bool) :
    Retries ((s.cutOff (s.drains d).inFlight stored).setDrain d .idle) := by
  rw [hspent.inFlight, cutOff_nil]
  refine ⟨?_, h.justified, h.spills⟩
  refine h.kept.move (by simp [holds, Drain.ids]) (fun _ _ _ ↦ rfl) (by simp [holds, Drain.ids]) ?_
  exact fun i hi _ ↦ hspent.retryable hi (h.kept.held d i hi)

theorem crash (hspent : ∀ d, Spent s d) (stored : Bool) :
    Retries { s.cutOff ((s.lock.map fun d ↦ (s.drains d).inFlight).getD []) stored with
      lock := none
      drains := fun _ ↦ .idle
      spills := fun _ ↦ .idle } := by
  have hnone : (s.lock.map fun d ↦ (s.drains d).inFlight).getD [] = [] := by
    cases s.lock with
    | none => rfl
    | some d => exact (hspent d).inFlight
  rw [hnone, cutOff_nil]
  refine ⟨?_, h.justified, nofun⟩
  refine h.kept.release (by simp [holds, Drain.ids]) ?_ fun _ _ ↦ rfl
  exact fun d i hi ↦ (hspent d).retryable hi (h.kept.held d i hi)

theorem setSpill {j : ℕ} {p : Spill} (hp : ∀ ids, p ≠ .stored ids) :
    Retries (s.setSpill j p) where
  __ := h
  spills := (forall_update_iff s.spills fun _ p ↦
    ∀ ids, p = .stored ids → ∀ i ∈ ids, (s.rows i).keptLocally = true).mpr
    ⟨fun ids hk ↦ absurd hk (hp ids), fun k _ ↦ h.spills k⟩

theorem storeSpans (j : ℕ) (ids : List ℕ) :
    Retries ((s.update ids Row.keep).setSpill j (.stored ids)) where
  kept := h.kept.map (fun _ _ _ hrow ↦ update_cases hrow fun _ ↦ Holding.keep)
    (fun _ _ hrow ↦ update_cases hrow fun _ ↦ id)
  justified := fun i ↦ update_cases (h.justified i) fun _ hrow ↦
    ⟨hrow.delivered, fun _ ↦ rfl, hrow.deadLetter⟩
  spills := by
    intro k ids' hk i hi
    simp only [SpanOutbox.setSpill, update_apply] at hk
    split at hk
    case isTrue =>
      cases hk
      exact congrArg Row.keptLocally (if_pos hi)
    case isFalse =>
      exact update_cases (P := fun r ↦ r.keptLocally) (h.spills k ids' hk i hi) fun _ _ ↦ rfl

theorem markSpilled {j : ℕ} (hspill : s.spills j = .stored ids) :
    Retries ((s.update ids (Row.settle · .spilledToLocal)).setSpill j .idle) where
  kept := by
    refine h.kept.map (fun _ _ _ hrow ↦ update_cases hrow fun _ hrow ↦ hrow.settle (by simp)) ?_
    exact fun _ _ hrow ↦ update_cases hrow fun _ _ ↦ .of_settled (Row.not_pending_settle (by simp))
  justified := fun i ↦ update_cases (h.justified i) fun hi hrow ↦
    hrow.settle (by simp) (fun _ ↦ h.spills j ids hspill i hi) (by simp)
  spills := by
    intro k ids' hk i hi
    simp only [SpanOutbox.setSpill, update_apply] at hk
    split at hk
    case isTrue => cases hk
    case isFalse =>
      exact update_cases (P := fun r ↦ r.keptLocally) (h.spills k ids' hk i hi)
        fun _ hrow ↦ (keptLocally_settle _ _).trans hrow

theorem step (hknown : Known s) (ha : Undisturbed s a) (hstep : s.step a = some t) : Retries t := by
  cases step_move hstep with
  | enqueue => exact h.enqueue hknown _ _
  | deleteProject => exact { h with }
  | claim hdrain => exact h.claim hdrain ha
  | deadLetter hdrain => exact h.deadLetter hdrain
  | skip hdrain =>
    obtain rfl := ha
    exact h.setDrain hdrain rfl fun _ ↦ id
  | ship hdrain =>
    refine Retries.lock ?_ _
    exact h.setDrain hdrain rfl fun _ ↦ id
  | answer hdrain => exact (h.answer hdrain ha).lock _
  | markDelivered hdrain =>
    refine h.finish hdrain ?_ ?_ (keptLocally_settle · _)
    · exact fun i _ ↦ .of_settled (Row.not_pending_settle (by simp))
    · exact fun i hrow hjustified ↦ hjustified.settle (fun _ ↦ hrow.2) (by simp) (by simp)
  | recordError hdrain => exact h.setDrain hdrain rfl fun _ ↦ id
  | deadLetterExhausted hdrain => exact h.deadLetterExhausted hdrain
  | releaseClaim hdrain => exact h.releaseClaim hdrain
  | abandon => exact (h.abandon ha _).lock _
  | pendingForProjects | abandonSpill => exact h.setSpill nofun
  | storeSpans => exact h.storeSpans _ _
  | markSpilled hspill => exact h.markSpilled hspill
  | crash => exact h.crash ha _

end Retries

theorem retries_init : Retries .init where
  kept := by
    refine ⟨nofun, nofun, fun i _ _ ↦ ⟨rfl, ?_⟩⟩
    simp [SpanOutbox.init, Row.new, outboxMaxAttempts]
  justified := fun _ ↦ .of_pending rfl
  spills := nofun

theorem reaches_retries (h : Reaches SpanOutbox.step Undisturbed .init s) : Retries s := by
  refine (h.invariant (I := fun s ↦ Retries s ∧ Known s) ?_ ⟨retries_init, known_init⟩).1
  exact fun hs ha hstep ↦ ⟨hs.1.step hs.2 ha hstep, hs.2.step hstep⟩

def lostClaims (n : ℕ) : SpanOutbox :=
  { SpanOutbox.init with
    rows := update SpanOutbox.init.rows 0 { Row.new 7 true with attempts := n }
    count := 1 }

theorem lostClaims_succ {n : ℕ} (hn : n < outboxMaxAttempts) :
    Reaches SpanOutbox.step anything (lostClaims n) (lostClaims (n + 1)) := by
  have hids : (lostClaims n).claimIds = [0] := by
    simp [SpanOutbox.claimIds, SpanOutbox.claimable, lostClaims, SpanOutbox.init, Row.new, hn,
      outboxBatchSize]
  have hclaim : (lostClaims n).step (.claim 0) = some ((lostClaims n).claim 0) := by
    change (if (lostClaims n).claimIds = [] then none else some ((lostClaims n).claim 0)) = _
    rw [if_neg (by simp [hids])]
  have hrows : ((lostClaims n).claim 0).rows = (lostClaims (n + 1)).rows := by
    funext i
    change (if i ∈ (lostClaims n).claimIds then _ else _) = _
    rw [hids]
    by_cases hi : i = 0 <;> simp [hi, lostClaims, Row.claim]
  have hcrash : ((lostClaims n).claim 0).step (.crash false) = some (lostClaims (n + 1)) := by
    change some (⟨((lostClaims n).claim 0).rows, _, _, _, _, _⟩ : SpanOutbox) = _
    rw [hrows]
    rfl
  exact (Reaches.refl.snoc trivial hclaim).snoc trivial hcrash

theorem reaches_lostClaims {n : ℕ} (hn : n ≤ outboxMaxAttempts) :
    Reaches SpanOutbox.step anything .init (lostClaims n) := by
  induction n with
  | zero => exact Reaches.refl.snoc (a := Act.enqueue 7 true) trivial rfl
  | succ n ih => exact (ih (Nat.le_of_succ_le hn)).trans (lostClaims_succ hn)

end Temps.Cloud.Outbox
