import Temps.Cloud.Outbox
import Temps.Cloud.Submitter

namespace Temps.Cloud

open Lib.Custody Lib.Machine List Option

namespace Outbox

variable {s t : SpanOutbox} {a : Act} {r : Row} {i d : ℕ} {p q : Drain}

/-- No claim takes a row that another drain has in its hands, and a batch that Cloud stores is
settled: its reply arrives, and its drain goes on until the rows are marked as delivered. -/
def Settles (s : SpanOutbox) : Act → Prop
  | .claim _ => ∀ i ∈ s.claimIds, ∀ d, i ∉ (s.drains d).ids
  | .answer _ answer => answer ≠ .lost ∧ answer ≠ .dropped true
  | .abandon d stored => stored = false ∧ ∀ ids, s.drains d ≠ .shipped ids
  | .crash stored => stored = false ∧ ∀ d ids, s.drains d ≠ .shipped ids
  | _ => True

def Drain.bound : Drain → ℕ
  | .shipped _ => 1
  | _ => 0

def Offered (p : Drain) (_ : ℕ) (r : Row) : Prop := r.stored ≤ p.bound

def Row.StoredOnce (r : Row) : Prop := r.stored ≤ 1 ∧ (r.state = .pending → r.stored = 0)

structure StoredOnce (s : SpanOutbox) : Prop where
  kept : Kept holds Offered (fun _ r ↦ r.StoredOnce) s.drains s.rows

theorem Row.StoredOnce.of_zero (h : r.stored ≤ 0) : r.StoredOnce :=
  ⟨Nat.le_trans h (Nat.zero_le 1), fun _ ↦ Nat.le_zero.mp h⟩

theorem Row.StoredOnce.of_settled (h : r.stored ≤ 1) {state : RowState} (hstate : state ≠ .pending) :
    (r.settle state).StoredOnce := by
  refine ⟨?_, fun hpending ↦ absurd hpending (Row.not_pending_settle hstate)⟩
  rw [Row.settle]
  split <;> exact h

theorem stored_settle (r : Row) (state : RowState) : (r.settle state).stored = r.stored := by
  rw [Row.settle]
  split <;> rfl

theorem Drain.bound_le_one (p : Drain) : p.bound ≤ 1 := by
  cases p <;> simp [Drain.bound]

theorem Offered.of_eq {r' : Row} (h : Offered q i r) (hr : r'.stored = r.stored) :
    Offered q i r' := hr.trans_le h

theorem Offered.zero (h : Offered q i r) (hq : ∀ ids, q ≠ .shipped ids) : r.stored ≤ 0 := by
  cases q with
  | shipped ids => exact absurd rfl (hq ids)
  | _ => exact h

namespace StoredOnce

variable {ids : List ℕ}

theorem drain {f : Row → Row}
    (hkept : Kept holds Offered (fun _ r ↦ r.StoredOnce) (Function.update s.drains d p)
      (s.update ids f).rows) : StoredOnce ((s.update ids f).setDrain d p) := ⟨hkept⟩

variable (h : StoredOnce s)
include h

theorem claim (hdrain : s.drains d = .idle)
    (hown : ∀ i ∈ s.claimIds, ∀ d, i ∉ (s.drains d).ids) : StoredOnce (s.claim d) := by
  refine ⟨kept_claim h.kept hdrain hown fun i hi hrow ↦ ?_⟩
  have hclaimable := (mem_claimIds hi).2
  simp only [SpanOutbox.claimable, decide_eq_true_eq] at hclaimable
  exact Nat.le_of_eq (hrow.2 hclaimable.1)

theorem deadLetter {good bad : List ℕ} (hdrain : s.drains d = .decoding good bad) :
    StoredOnce ((s.update bad (Row.settle · .deadLetter)).setDrain d (.ofClaimed good)) := by
  have hrow : ∀ i, (s.rows i).stored ≤ 0 →
      ((s.update bad (Row.settle · .deadLetter)).rows i).stored ≤ 0 := by
    exact fun i hi ↦ update_cases (P := fun r ↦ r.stored ≤ 0) hi fun _ ↦ (stored_settle _ _).trans_le
  refine .drain (kept_drain h.kept hdrain (fun i ↦ mem_append_right _) ?_ ?_ ?_)
  · exact fun i hi ↦ mem_append_left _ (ids_ofClaimed good ▸ hi)
  · exact fun i _ hi ↦ Nat.le_trans (hrow i hi) (Nat.zero_le _)
  · exact fun i _ _ hi ↦ .of_zero (hrow i hi)

theorem answer {answer : Answer}
    (hdrain : s.drains d = .shipping ids) (hreply : answer ≠ .lost ∧ answer ≠ .dropped true) :
    StoredOnce ((s.update ids answer.effect).setDrain d (answer.next ids)) := by
  refine .drain (kept_advance h.kept hdrain (answer.ids_next ids) fun i _ hrow ↦ ?_)
  cases answer with
  | acknowledged => exact Nat.succ_le_succ hrow
  | refused => exact hrow
  | lost => exact absurd rfl hreply.1
  | dropped stored =>
    cases stored with
    | true => exact absurd rfl hreply.2
    | false => exact hrow

theorem step (hknown : Known s) (ha : Settles s a) (hstep : s.step a = some t) : StoredOnce t := by
  cases step_move hstep with
  | enqueue => exact ⟨kept_enqueue h.kept hknown (.of_zero (Nat.le_refl _))⟩
  | deleteProject | pendingForProjects | abandonSpill => exact ⟨h.kept⟩
  | claim hdrain => exact h.claim hdrain ha
  | deadLetter hdrain => exact h.deadLetter hdrain
  | @skip _ blocked _ hdrain =>
    cases blocked with
    | true | false => exact ⟨kept_setDrain h.kept hdrain rfl fun _ _ ↦ id⟩
  | ship hdrain | recordError hdrain => exact ⟨kept_setDrain h.kept hdrain rfl fun _ _ ↦ id⟩
  | answer hdrain => exact ⟨(h.answer hdrain ha).kept⟩
  | markDelivered hdrain =>
    refine .drain (kept_finish h.kept hdrain fun i _ hrow ↦ ?_)
    exact .of_settled hrow (by rintro ⟨⟩)
  | deadLetterExhausted hdrain =>
    refine .drain (kept_finish h.kept hdrain fun i _ hrow ↦ .of_zero ?_)
    rw [Row.exhaust]
    split <;> exact hrow
  | releaseClaim hdrain =>
    refine .drain (kept_finish h.kept hdrain fun i _ hrow ↦ .of_zero ?_)
    rw [Row.release]
    split <;> exact hrow
  | abandon =>
    obtain ⟨rfl, hshipped⟩ := ha
    refine ⟨h.kept.move (by simp [holds, Drain.ids]) (fun _ _ _ ↦ rfl) (by simp [holds, Drain.ids])
      fun i hi _ ↦ ?_⟩
    exact .of_zero ((h.kept.held _ i hi).zero hshipped)
  | storeSpans =>
    exact ⟨h.kept.map (fun _ _ _ hrow ↦ update_cases hrow fun _ ↦ id)
      fun _ _ hrow ↦ update_cases hrow fun _ ↦ id⟩
  | markSpilled =>
    refine ⟨h.kept.map (fun _ _ _ hrow ↦ update_cases hrow fun _ hrow ↦ ?_)
      fun _ _ hrow ↦ update_cases hrow fun _ hrow ↦ ?_⟩
    · exact hrow.of_eq (stored_settle _ _)
    · exact .of_settled hrow.1 (by rintro ⟨⟩)
  | crash =>
    obtain ⟨rfl, hshipped⟩ := ha
    refine ⟨h.kept.release (by simp [holds, Drain.ids]) (fun d i hi ↦ ?_) fun _ _ ↦ rfl⟩
    exact .of_zero ((h.kept.held d i hi).zero (hshipped d))

end StoredOnce

theorem storedOnce_init : StoredOnce .init := ⟨⟨nofun, nofun, fun _ _ ↦ .of_zero (Nat.le_refl _)⟩⟩

theorem StoredOnce.le_one (h : StoredOnce s) (i : ℕ) : (s.rows i).stored ≤ 1 := by
  by_cases hheld : ∃ d, i ∈ (s.drains d).ids
  · obtain ⟨d, hd⟩ := hheld
    exact Nat.le_trans (h.kept.held d i hd) (Drain.bound_le_one _)
  · exact (h.kept.free i (not_exists.mp hheld)).1

end Outbox

/-- The three ways of submitting spans, which share the flush lock. -/
structure Exporter where
  mirror : Submitter
  scope : Submitter
  outbox : Outbox.SpanOutbox

namespace Exporter

inductive Act where
  | mirror (act : Submitter.Act)
  | scope (act : Submitter.Act)
  | outbox (act : Outbox.Act)
  | crash (mirror scope outbox : Bool)
  deriving DecidableEq

def init : Exporter := ⟨.init, .init, .init⟩

variable (bytes : ℕ → ℕ) (s : Exporter)

def locked : Prop := s.mirror.flush ≠ .idle ∨ s.scope.flush ≠ .idle ∨ s.outbox.lock ≠ none

instance : Decidable s.locked := inferInstanceAs (Decidable (_ ∨ _))

def locks : Act → Bool
  | .mirror .begin | .scope .begin | .outbox (.ship _) => true
  | _ => false

def advance : Act → Option Exporter
  | .mirror act => (s.mirror.step true bytes act).map fun mirror ↦ { s with mirror := mirror }
  | .scope act => (s.scope.step false bytes act).map fun scope ↦ { s with scope := scope }
  | .outbox (.crash _) => none
  | .outbox act => (s.outbox.step act).map fun outbox ↦ { s with outbox := outbox }
  | .crash mirror scope outbox =>
    (s.outbox.step (.crash outbox)).map fun outbox ↦
      ⟨s.mirror.crash mirror, s.scope.crash scope, outbox⟩

def step (a : Act) : Option Exporter := if locks a ∧ s.locked then none else s.advance bytes a

def Settles : Act → Prop
  | .outbox act => Outbox.Settles s.outbox act
  | .crash _ _ stored => Outbox.Settles s.outbox (.crash stored)
  | _ => True

structure Once (s : Exporter) : Prop where
  mirror : s.mirror.Once true
  scope : s.scope.Once false
  outbox : Outbox.StoredOnce s.outbox
  known : Outbox.Known s.outbox

variable {bytes s} {t : Exporter} {a : Act}

theorem Once.step (h : Once s) (ha : s.Settles a) (hstep : s.step bytes a = some t) : Once t := by
  obtain ⟨-, hstep⟩ := ite_none_left_eq_some.mp hstep
  cases a with
  | mirror act =>
    obtain ⟨mirror, hmirror, rfl⟩ := map_eq_some_iff.mp hstep
    exact { h with mirror := h.mirror.step hmirror }
  | scope act =>
    obtain ⟨scope, hscope, rfl⟩ := map_eq_some_iff.mp hstep
    exact { h with scope := h.scope.step hscope }
  | outbox act =>
    have hstep : (s.outbox.step act).map (fun outbox ↦ { s with outbox := outbox }) = some t := by
      cases act with
      | crash stored => cases hstep
      | _ => exact hstep
    obtain ⟨outbox, houtbox, rfl⟩ := map_eq_some_iff.mp hstep
    exact { h with
      outbox := h.outbox.step h.known ha houtbox
      known := h.known.step houtbox }
  | crash mirror scope stored =>
    have hstep : (s.outbox.step (.crash stored)).map (fun outbox ↦
        (⟨s.mirror.crash mirror, s.scope.crash scope, outbox⟩ : Exporter)) = some t := hstep
    obtain ⟨outbox, houtbox, rfl⟩ := map_eq_some_iff.mp hstep
    exact ⟨h.mirror.crash mirror, h.scope.crash scope, h.outbox.step (a := .crash stored) h.known ha houtbox,
      h.known.step houtbox⟩

theorem once_init : Once .init :=
  ⟨Submitter.once_init, Submitter.once_init, Outbox.storedOnce_init, Outbox.known_init⟩

/-- Cloud stores every span once at most, and a span that it has is sent again only in the same
submission. -/
theorem span_stored_once (h : Reaches (step bytes) Settles .init s) :
    (∀ span, s.mirror.stored span ≤ 1) ∧ (∀ span, s.scope.stored span ≤ 1) ∧
    (∀ i, (s.outbox.rows i).stored ≤ 1) ∧
    (∀ submitter ∈ [s.mirror, s.scope], ∀ g p, submitter.flush = .shipping g p →
      ∀ q ∈ submitter.accepted, ∀ span ∈ p.spans, span ∈ q.spans → q = p) ∧
    (∀ d ids, s.outbox.drains d = .shipping ids → ∀ i ∈ ids, (s.outbox.rows i).stored = 0) := by
  obtain ⟨hmirror, hscope, houtbox, -⟩ : Once s :=
    h.invariant (fun hs ha hstep ↦ hs.step ha hstep) once_init
  refine ⟨hmirror.stored_le_one, hscope.stored_le_one, houtbox.le_one, ?_, ?_⟩
  · have hshared : ∀ {durable} {submitter : Submitter}, submitter.Once durable → ∀ g p,
        submitter.flush = .shipping g p → ∀ q ∈ submitter.accepted, ∀ span ∈ p.spans,
        span ∈ q.spans → q = p := by
      intro durable submitter hsubmitter g p hflush q hq span hp hspan
      exact hsubmitter.eq_of_shared (.inr (by rw [hflush]; rfl)) hq hp hspan
    intro submitter hmem
    rcases mem_pair.mp hmem with rfl | rfl
    · exact hshared hmirror
    · exact hshared hscope
  · intro d ids hdrain i hi
    have hrow := houtbox.kept.held d i (by rwa [hdrain])
    rw [hdrain] at hrow
    exact Nat.le_zero.mp hrow

/-- The acknowledgement of a batch of the mirror is lost, and after a crash the batch is sent again
under its id. -/
theorem span_stored_once_resubmitted :
    ∃ s p, Reaches (step fun _ ↦ 1) Settles .init s ∧ s.mirror.flush = .shipping 0 p ∧
      s.mirror.stored 0 = 1 ∧ ∀ q ∈ s.mirror.accepted, ∀ span ∈ p.spans, span ∈ q.spans → q = p := by
  have hsent : Reaches (step fun _ ↦ 1) Settles .init _ :=
    Reaches.refl.run [.mirror (.record 2), .mirror .begin, .mirror .choose,
      .mirror (.savePending .done), .mirror .ship, .mirror (.stop true)] (by simp [Settles]) rfl
  have hagain := (hsent.snoc (a := Act.crash false false false) ⟨rfl, nofun⟩ rfl).run
    [.mirror .begin, .mirror .choose, .mirror .ship] (by simp [Settles]) rfl
  have honce := (span_stored_once hagain).2.2.2.1 _ mem_cons_self 0 _ rfl
  exact ⟨_, _, hagain, rfl, rfl, honce⟩

/-- The reply to a batch of the outbox is lost, and the batch is sent again under a new id. -/
theorem outbox_span_stored_twice :
    ∃ s, Reaches (step fun _ ↦ 1) anything .init s ∧ (s.outbox.rows 0).stored = 2 := by
  have hrun : Reaches (step fun _ ↦ 1) anything .init _ := Reaches.refl.run
      [.outbox (.enqueue 7 true), .outbox (.claim 0), .outbox (.deadLetter 0), .outbox (.ship 0),
        .outbox (.answer 0 .lost), .outbox (.recordError 0), .outbox (.deadLetterExhausted 0),
        .outbox (.claim 0), .outbox (.deadLetter 0), .outbox (.ship 0),
        .outbox (.answer 0 .acknowledged)] (fun _ _ _ ↦ trivial) rfl
  exact ⟨_, hrun, rfl⟩

end Exporter

end Temps.Cloud
