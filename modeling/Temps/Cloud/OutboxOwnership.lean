import Temps.Cloud.Outbox

namespace Temps.Cloud.Outbox

open Lib.Custody Lib.Machine List Function

variable {s t : SpanOutbox} {a : Act} {r : Row} {i d : ℕ} {p q : Drain}

/-- Claims, requests, the local store and the settling statements succeed: no drain is dropped, and
Cloud stores a batch only if its acknowledgement arrives. -/
def Succeeds : Act → Prop
  | .answer _ answer => answer ≠ .lost ∧ answer ≠ .dropped true
  | .abandon _ _ | .crash _ => False
  | _ => True

/-- A claim takes no row that a drain or a spill has in its hands, and a spill reads no row that a
drain has in its hands. -/
def Exclusive (s : SpanOutbox) : Act → Prop
  | .claim _ => ∀ i ∈ s.claimIds, (∀ d, i ∉ (s.drains d).ids) ∧ ∀ j, i ∉ (s.spills j).ids
  | .pendingForProjects _ projectIds =>
    ∀ i ∈ s.pendingForProjects projectIds, ∀ d, i ∉ (s.drains d).ids
  | _ => True

def Row.Unsent (r : Row) : Prop := r.acknowledged = false ∧ r.stored = 0

def Drain.Owns (i : ℕ) (r : Row) : Drain → Prop
  | .decoding good bad => r.Unsent ∧ (i ∈ bad → i ∉ good)
  | .shipped _ => True
  | _ => r.Unsent

def Owned (p : Drain) (i : ℕ) (r : Row) : Prop := r.state = .pending ∧ p.Owns i r

def Row.Unowned (r : Row) : Prop := r.state ≠ .delivered → r.Unsent

structure OneOwner (s : SpanOutbox) : Prop where
  kept : Kept holds Owned (fun _ r ↦ r.Unowned) s.drains s.rows
  apart : ∀ j, ∀ i ∈ (s.spills j).ids, ∀ d, i ∉ (s.drains d).ids

theorem Row.Unsent.settle {state : RowState} (h : r.Unsent) : (r.settle state).Unsent := by
  rw [Row.settle]
  split <;> exact h

variable {ids : List ℕ} {f : Row → Row}

section

variable (h : OneOwner s)
include h

namespace OneOwner

theorem apart_drain (hdrain : s.drains d = q) (hp : ∀ i ∈ p.ids, i ∈ q.ids) :
    ∀ j, ∀ i ∈ (s.spills j).ids, ∀ e, i ∉ (update s.drains d p e).ids :=
  fun j i hi ↦ (forall_update_iff s.drains fun _ p ↦ i ∉ p.ids).mpr
    ⟨fun he ↦ h.apart j i hi d (hdrain ▸ hp i he), fun e _ ↦ h.apart j i hi e⟩

theorem drain (hdrain : s.drains d = q) (hp : ∀ i ∈ p.ids, i ∈ q.ids)
    (hkept : Kept holds Owned (fun _ r ↦ r.Unowned) (update s.drains d p) (s.update ids f).rows) :
    OneOwner ((s.update ids f).setDrain d p) :=
  ⟨hkept, h.apart_drain hdrain hp⟩

theorem setDrain (hdrain : s.drains d = q) (hp : p.ids = q.ids)
    (hheld : ∀ i, Owned q i (s.rows i) → Owned p i (s.rows i)) : OneOwner (s.setDrain d p) :=
  ⟨kept_setDrain h.kept hdrain hp fun i _ ↦ hheld i, h.apart_drain hdrain fun _ hi ↦ hp ▸ hi⟩

theorem finish (hdrain : s.drains d = q)
    (hfree : ∀ i, Owned q i (s.rows i) → (f (s.rows i)).Unowned) :
    OneOwner ((s.update q.ids f).setDrain d .idle) :=
  h.drain hdrain (by simp [Drain.ids]) (kept_finish h.kept hdrain fun i _ ↦ hfree i)

theorem lock (lock : Option ℕ) : OneOwner { s with lock := lock } := { h with }

theorem claim (hdrain : s.drains d = .idle)
    (hown : ∀ i ∈ s.claimIds, (∀ d, i ∉ (s.drains d).ids) ∧ ∀ j, i ∉ (s.spills j).ids) :
    OneOwner (s.claim d) where
  kept := by
    refine kept_claim h.kept hdrain (fun i hi ↦ (hown i hi).1) fun i hi hfree ↦ ?_
    have hpending : (s.rows i).state = .pending := by
      have := (mem_claimIds hi).2
      simp only [SpanOutbox.claimable, decide_eq_true_eq] at this
      exact this.1
    refine ⟨hpending, hfree (by simp [hpending]), fun hbad hgood ↦ ?_⟩
    have hundecodable := (mem_filter.mp hbad).2
    simp [(mem_filter.mp hgood).2] at hundecodable
  apart j i hi := (forall_update_iff s.drains fun _ p ↦ i ∉ p.ids).mpr
    ⟨fun he ↦ (hown i (mem_ids_claimPhase.mp he)).2 j hi, fun e _ ↦ h.apart j i hi e⟩

theorem enqueue (hknown : Known s) (projectId : ℕ) (decodable : Bool) :
    OneOwner { s with
      rows := update s.rows s.count (.new projectId decodable)
      count := s.count + 1 } :=
  ⟨kept_enqueue h.kept hknown fun _ ↦ ⟨rfl, rfl⟩, h.apart⟩

theorem deadLetter {good bad : List ℕ} (hdrain : s.drains d = .decoding good bad) :
    OneOwner ((s.update bad (Row.settle · .deadLetter)).setDrain d (.ofClaimed good)) := by
  have hbad : ∀ i ∈ bad, i ∈ (Drain.decoding good bad).ids := fun i ↦ mem_append_right _
  have hgood : ∀ i ∈ (Drain.ofClaimed good).ids, i ∈ (Drain.decoding good bad).ids :=
    fun i hi ↦ mem_append_left _ (ids_ofClaimed good ▸ hi)
  refine h.drain hdrain hgood (kept_drain h.kept hdrain hbad hgood ?_ ?_)
  · intro i hi ⟨hpending, hunsent, hdisjoint⟩
    cases good with
    | nil => cases hi
    | cons first rest =>
      rw [rows_update, if_neg fun hmem ↦ hdisjoint hmem hi]
      exact ⟨hpending, hunsent⟩
  · intro i hi hnot hrow
    rw [ids_ofClaimed] at hnot
    rw [rows_update, if_pos ((mem_append.mp hi).resolve_left hnot)]
    exact fun _ ↦ hrow.2.1.settle

theorem answer {answer : Answer} (hdrain : s.drains d = .shipping ids)
    (hreply : answer ≠ .lost ∧ answer ≠ .dropped true) :
    OneOwner ((s.update ids answer.effect).setDrain d (answer.next ids)) := by
  refine h.drain hdrain (fun i hi ↦ answer.ids_next ids ▸ hi)
    (kept_advance h.kept hdrain (answer.ids_next ids) fun i _ ↦ ?_)
  intro ⟨hpending, hunsent⟩
  cases answer with
  | acknowledged => exact ⟨hpending, trivial⟩
  | refused => exact ⟨hpending, hunsent⟩
  | lost => exact absurd rfl hreply.1
  | dropped stored =>
    cases stored with
    | true => exact absurd rfl hreply.2
    | false => exact ⟨hpending, hunsent⟩

theorem setSpill {j : ℕ} {p : Spill}
    (hp : ∀ i ∈ p.ids, ∀ d, i ∉ (s.drains d).ids) : OneOwner (s.setSpill j p) where
  kept := h.kept
  apart := (forall_update_iff s.spills fun _ p ↦ ∀ i ∈ p.ids, ∀ d, i ∉ (s.drains d).ids).mpr
    ⟨hp, fun k _ ↦ h.apart k⟩

theorem spill {j : ℕ} (hids : (s.spills j).ids = ids) (hf : ∀ r : Row, r.Unowned → (f r).Unowned) :
    OneOwner (s.update ids f) where
  kept := by
    refine h.kept.map (fun d i hi hrow ↦ ?_) fun i _ hrow ↦ update_cases hrow fun _ ↦ hf _
    rw [rows_update, if_neg fun hmem ↦ h.apart j i (hids ▸ hmem) d hi]
    exact hrow
  apart := h.apart

theorem step (hknown : Known s) (hsucceeds : Succeeds a)
    (hexclusive : Exclusive s a) (hstep : s.step a = some t) : OneOwner t := by
  cases step_move hstep with
  | enqueue => exact h.enqueue hknown _ _
  | deleteProject => exact { h with }
  | claim hdrain => exact h.claim hdrain hexclusive
  | deadLetter hdrain => exact h.deadLetter hdrain
  | @skip _ blocked _ hdrain =>
    cases blocked with
    | true | false => exact h.setDrain hdrain rfl fun _ ↦ id
  | ship hdrain =>
    refine OneOwner.lock ?_ _
    exact h.setDrain hdrain rfl fun _ ↦ id
  | answer hdrain => exact (h.answer hdrain hsucceeds).lock _
  | markDelivered hdrain =>
    refine h.finish hdrain fun i hrow hne ↦ ?_
    rw [Row.settle_pending hrow.1] at hne
    exact absurd rfl hne
  | recordError hdrain => exact h.setDrain hdrain rfl fun _ ↦ id
  | deadLetterExhausted hdrain =>
    refine h.finish hdrain fun i hrow _ ↦ ?_
    rw [Row.exhaust]
    split <;> exact hrow.2
  | releaseClaim hdrain =>
    refine h.finish hdrain fun i hrow _ ↦ ?_
    rw [Row.release]
    split <;> exact hrow.2
  | abandon | crash => exact hsucceeds.elim
  | pendingForProjects => exact h.setSpill hexclusive
  | @storeSpans j ids hspill =>
    have hids : (s.spills j).ids = ids := by rw [hspill]; rfl
    refine (h.spill (f := Row.keep) hids fun _ hrow ↦ hrow).setSpill ?_
    exact fun i hi ↦ h.apart j i (hids ▸ hi)
  | @markSpilled j ids hspill =>
    have hids : (s.spills j).ids = ids := by rw [hspill]; rfl
    refine (h.spill hids fun r hrow ↦ ?_).setSpill (by simp [Spill.ids])
    by_cases hpending : r.state = .pending
    · exact fun _ ↦ (hrow (by simp [hpending])).settle
    · rwa [Row.settle_of_ne hpending]
  | abandonSpill => exact h.setSpill (by simp [Spill.ids])

end OneOwner

end

theorem oneOwner_init : OneOwner .init :=
  ⟨⟨nofun, nofun, fun _ _ _ ↦ ⟨rfl, rfl⟩⟩, by simp [SpanOutbox.init, Spill.ids]⟩

/-- A row is in the hands of one drain at a time, is not offered again once it is acknowledged, and
is spilled only if Cloud has never accepted it. -/
theorem one_drain_at_a_time
    (h : Reaches SpanOutbox.step (fun s a ↦ Succeeds a ∧ Exclusive s a) .init s) :
    (∀ d e i, i ∈ (s.drains d).ids → i ∈ (s.drains e).ids → d = e) ∧
    (∀ d ids, s.drains d = .claimed ids ∨ s.drains d = .shipping ids →
      ∀ i ∈ ids, (s.rows i).acknowledged = false) ∧
    (∀ i, (s.rows i).state = .spilledToLocal → (s.rows i).stored = 0) := by
  obtain ⟨hs, -⟩ : OneOwner s ∧ Known s := by
    refine h.invariant (I := fun s ↦ OneOwner s ∧ Known s) ?_ ⟨oneOwner_init, known_init⟩
    exact fun hs ha hstep ↦ ⟨hs.1.step hs.2 ha.1 ha.2 hstep, hs.2.step hstep⟩
  refine ⟨hs.kept.unique, ?_, ?_⟩
  · rintro d ids (hdrain | hdrain) i hi
    all_goals
      have hrow := hs.kept.held d i (by rwa [hdrain])
      rw [hdrain] at hrow
      exact hrow.2.1
  · intro i hspilled
    by_cases hheld : ∃ d, i ∈ (s.drains d).ids
    · obtain ⟨d, hd⟩ := hheld
      have hpending := (hs.kept.held d i hd).1
      simp [hspilled] at hpending
    · exact (hs.kept.free i (not_exists.mp hheld) (by simp [hspilled])).2

theorem one_drain_at_a_time_spilled :
    ∃ s, Reaches SpanOutbox.step (fun s a ↦ Succeeds a ∧ Exclusive s a) .init s ∧
      (s.rows 0).state = .delivered ∧ (s.rows 1).state = .spilledToLocal ∧
      (s.rows 1).stored = 0 := by
  have hclaimed : Reaches SpanOutbox.step (fun s a ↦ Succeeds a ∧ Exclusive s a) .init _ :=
    (Reaches.refl.snoc (a := Act.enqueue 7 true) ⟨trivial, trivial⟩ rfl).snoc (a := Act.claim 0)
      ⟨trivial, fun _ _ ↦ ⟨fun _ ↦ not_mem_nil, fun _ ↦ not_mem_nil⟩⟩ rfl
  have hrequeued := hclaimed.run [.deadLetter 0, .ship 0, .answer 0 .acknowledged, .markDelivered 0,
    .enqueue 8 true] (by simp [Succeeds, Exclusive]) rfl
  have hidle : ∀ d i, i ∉ (update (update (update (update
      (update SpanOutbox.init.drains 0 (.decoding [0] [])) 0 (.claimed [0])) 0
      (.shipping [0])) 0 (.shipped [0])) 0 .idle d).ids := by
    intro d i
    rcases eq_or_ne d 0 with rfl | hd
    · simp [Drain.ids]
    · simp [SpanOutbox.init, Drain.ids]
  have hspilled := (hrequeued.snoc (a := Act.pendingForProjects 0 [8])
    ⟨trivial, fun i _ d ↦ hidle d i⟩ rfl).run [.storeSpans 0, .markSpilled 0]
    (by simp [Succeeds, Exclusive]) rfl
  exact ⟨_, hspilled, rfl, rfl, (one_drain_at_a_time hspilled).2.2 1 rfl⟩

/-- Two drains claim one row, and the second offers it after the first had it acknowledged. A spill
that reads the row before it is delivered marks it as spilled. -/
theorem row_offered_by_two_drains :
    (∃ s ids, Reaches SpanOutbox.step (fun _ a ↦ Succeeds a) .init s ∧ 0 ∈ (s.drains 0).ids ∧
      0 ∈ (s.drains 1).ids ∧ s.drains 1 = .shipping ids ∧ 0 ∈ ids ∧
      (s.rows 0).acknowledged = true) ∧
    (∃ s, Reaches SpanOutbox.step (fun _ a ↦ Succeeds a) .init s ∧
      (s.rows 0).state = .spilledToLocal ∧ (s.rows 0).acknowledged = true ∧
      (s.rows 0).stored = 1) := by
  have hclaimed : Reaches SpanOutbox.step (fun _ a ↦ Succeeds a) .init _ :=
    Reaches.refl.run [.enqueue 7 true, .claim 0, .deadLetter 0] (by simp [Succeeds]) rfl
  have hagain := hclaimed.run [.claim 1, .deadLetter 1, .ship 0, .answer 0 .acknowledged, .ship 1]
    (by simp [Succeeds]) rfl
  have hspilled := hclaimed.run [.pendingForProjects 0 [7], .ship 0, .answer 0 .acknowledged,
    .storeSpans 0, .markSpilled 0] (by simp [Succeeds]) rfl
  exact ⟨⟨_, [0], hagain, mem_cons_self, mem_cons_self, rfl, mem_cons_self, rfl⟩,
    ⟨_, hspilled, rfl, rfl, rfl⟩⟩

end Temps.Cloud.Outbox
