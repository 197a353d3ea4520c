import Mathlib.Data.List.Nodup
import Mathlib.Data.List.Pairwise
import Temps.Cloud.Spool
import Temps.Lib.Machine

namespace Temps.Cloud

open Lib.Machine

def scopeSpoolCapacity : ℕ := batchSize * 2

/-- Spans are numbered in the order in which they are recorded. -/
structure PendingSubmission where
  submissionId : ℕ
  spans : List ℕ
  deriving DecidableEq

/-- How far a flush has come. It goes on only in the generation in which it began. -/
inductive Flush where
  | idle
  | begun (generation : ℕ)
  | taken (generation : ℕ) (submission : PendingSubmission)
  | ready (generation : ℕ) (submission : PendingSubmission)
  | shipping (generation : ℕ) (submission : PendingSubmission)
  | acknowledged (submission : PendingSubmission)
  | saved (submission : PendingSubmission)
  deriving DecidableEq

/-- A save of the link state may fail, and may be on disk even so. -/
inductive Save where
  | done
  | failed (written : Bool)
  deriving DecidableEq

def Save.written {α : Type*} (new old : α) : Save → α
  | .done => new
  | .failed written => if written then new else old

/-- One way of submitting spans: the mirror, whose pending submission is saved with the link state,
or a scope, which is kept in memory. `state` is the pending submission in the link state as the
process has it, and `disk` as it was saved. On the side is recorded what Cloud has accepted; the ids
of one submitter are never those of another one. -/
structure Submitter where
  generation : ℕ
  spool : Spool ℕ
  pending : Option PendingSubmission
  state : Option PendingSubmission
  disk : Option PendingSubmission
  flush : Flush
  nextSpan : ℕ
  nextId : ℕ
  accepted : List PendingSubmission

namespace Submitter

inductive Act where
  | record (count : ℕ)
  | begin
  | choose
  | savePending (save : Save)
  | ship
  | answer (accepted heard : Bool)
  | saveAcknowledgement (save : Save)
  | forget
  | stop (accepted : Bool)
  | bumpGeneration
  | unlinkState (save : Save)
  | revokeState (save : Save)
  | clearSpool
  | clearPending
  | saveState (save : Save)
  deriving DecidableEq

def init : Submitter where
  generation := 0
  spool := .empty
  pending := none
  state := none
  disk := none
  flush := .idle
  nextSpan := 0
  nextId := 0
  accepted := []

variable (durable : Bool) (bytes : ℕ → ℕ) (s : Submitter)

def capacity : ℕ := if durable then defaultCapacity else scopeSpoolCapacity

def accept (submission : PendingSubmission) : Submitter :=
  if submission.submissionId ∈ s.accepted.map PendingSubmission.submissionId then s
  else { s with accepted := submission :: s.accepted }

def cutOff (accepted : Bool) : Submitter :=
  match s.flush, accepted with
  | .shipping _ submission, true => s.accept submission
  | _, _ => s

def choose (generation : ℕ) : Submitter :=
  match s.pending with
  | some pending => { s with flush := .ready generation pending }
  | none =>
    if durable ∧ s.generation ≠ generation then { s with flush := .idle }
    else
      match s.spool.take batchSize with
      | ([], _) => { s with flush := .idle }
      | (spans, rest) =>
        { s with
          spool := rest
          nextId := s.nextId + 1
          pending := if durable then none else some ⟨s.nextId, spans⟩
          flush :=
            if durable then .taken generation ⟨s.nextId, spans⟩
            else .ready generation ⟨s.nextId, spans⟩ }

def step : Act → Option Submitter
  | .record count =>
    some { s with
      spool := s.spool.push (capacity durable) bytes (List.range' s.nextSpan count)
      nextSpan := s.nextSpan + count }
  | .begin => if s.flush = .idle then some { s with flush := .begun s.generation } else none
  | .choose =>
    match s.flush with
    | .begun generation => some (s.choose durable generation)
    | _ => none
  | .savePending save =>
    match s.flush, save with
    | .taken generation next, .done =>
      some { s with
        state := some next
        disk := some next
        pending := some next
        flush := .ready generation next }
    | .taken _ next, .failed _ =>
      some { s with
        disk := save.written (some next) s.disk
        spool := s.spool.requeue (capacity durable) bytes next.spans
        flush := .idle }
    | _, _ => none
  | .ship =>
    match s.flush with
    | .ready generation pending => some { s with flush := .shipping generation pending }
    | _ => none
  | .answer accepted heard =>
    match s.flush with
    | .shipping generation pending =>
      some { s.cutOff accepted with
        flush :=
          if accepted ∧ heard ∧ s.generation = generation then
            if durable then .acknowledged pending else .saved pending
          else .idle }
    | _ => none
  | .saveAcknowledgement save =>
    match s.flush, save with
    | .acknowledged pending, .done =>
      some { s with state := none, disk := none, flush := .saved pending }
    | .acknowledged _, .failed _ => some { s with disk := save.written none s.disk, flush := .idle }
    | _, _ => none
  | .forget =>
    match s.flush with
    | .saved pending =>
      some { s with
        pending := s.pending.filter fun current ↦ current.submissionId ≠ pending.submissionId
        flush := .idle }
    | _ => none
  | .stop accepted =>
    match s.flush with
    | .taken _ _ => none
    | _ => some { s.cutOff accepted with flush := .idle }
  | .bumpGeneration => some { s with generation := s.generation + 1 }
  | .unlinkState save =>
    match s.flush, save with
    | .taken _ _, _ => none
    | _, .done => some { s with state := none, disk := none }
    | _, .failed _ => some { s with disk := save.written none s.disk }
  | .revokeState save =>
    match s.flush, s.state with
    | .taken _ _, _ => none
    | _, none => some s
    | _, some _ => some { s with state := none, disk := save.written none s.disk }
  | .clearSpool => some { s with spool := .empty }
  | .clearPending => some { s with pending := none }
  | .saveState save =>
    match s.flush with
    | .taken _ _ => none
    | _ => some { s with disk := save.written s.state s.disk }

def crash (accepted : Bool) : Submitter :=
  { s.cutOff accepted with
    generation := 0
    spool := .empty
    pending := s.disk
    state := s.disk
    flush := .idle }

end Submitter

open List Option

def Flush.submission : Flush → Option PendingSubmission
  | .idle | .begun _ => none
  | .taken _ submission | .ready _ submission | .shipping _ submission => some submission
  | .acknowledged submission | .saved submission => some submission

def Flush.chosen : Flush → Option PendingSubmission
  | .taken _ _ => none
  | flush => flush.submission

def PendingSubmission.Apart (p q : PendingSubmission) : Prop :=
  p.submissionId ≠ q.submissionId ∧ p.spans.Disjoint q.spans

instance : Std.Symm PendingSubmission.Apart :=
  ⟨fun _ _ hapart ↦ ⟨hapart.1.symm, List.disjoint_symm hapart.2⟩⟩

namespace Submitter

variable {durable : Bool} {bytes : ℕ → ℕ} {s t : Submitter} {a : Act} {p q : PendingSubmission}
  {g : ℕ} {flush : Flush}

def Names (s : Submitter) (p : PendingSubmission) : Prop :=
  s.pending = some p ∨ s.state = some p ∨ s.disk = some p ∨ s.flush.submission = some p

def Live (s : Submitter) (p : PendingSubmission) : Prop :=
  s.pending = some p ∨ s.flush.submission = some p

def Sending (s : Submitter) (p : PendingSubmission) : Prop :=
  s.pending = some p ∨ s.flush.chosen = some p

/-- Accepted submissions have nothing in common with each other, with the spool, or with a
submission that is known and not accepted; and a submission that may be sent is the only one known. -/
structure Once (durable : Bool) (s : Submitter) : Prop where
  known : ∀ p, s.Names p ∨ p ∈ s.accepted →
    p.submissionId < s.nextId ∧ p.spans.Nodup ∧ ∀ x ∈ p.spans, x < s.nextSpan
  spool : s.spool.buffer.Nodup ∧ ∀ x ∈ s.spool.buffer, x < s.nextSpan
  apart : s.accepted.Pairwise PendingSubmission.Apart
  queued : ∀ p ∈ s.accepted, p.spans.Disjoint s.spool.buffer
  fair : ∀ p, s.Names p → p ∈ s.accepted ∨ ∀ q ∈ s.accepted, p.Apart q
  live : ∀ p, s.Live p → p.spans.Disjoint s.spool.buffer
  alone : ∀ p q, s.Sending p → s.Names q → q = p
  taken : ∀ g p, s.flush = .taken g p → durable = true ∧ s.pending = none ∧ p ∉ s.accepted
  memory : durable = false → s.state = none ∧ s.disk = none

def taking (durable : Bool) (s : Submitter) (generation : ℕ) (next : PendingSubmission) :
    Submitter :=
  { s with
    spool := (s.spool.take batchSize).2
    nextId := s.nextId + 1
    pending := if durable then none else some next
    flush := if durable then .taken generation next else .ready generation next }

theorem Names.of_live (h : s.Live p) : s.Names p := h.elim .inl fun h ↦ .inr (.inr (.inr h))

theorem Flush.submission_of_chosen (h : flush.chosen = some p) : flush.submission = some p := by
  cases flush <;> first | exact h | cases h

theorem Names.of_sending (h : s.Sending p) : s.Names p :=
  .of_live (h.imp id Flush.submission_of_chosen)

section

variable (h : Once durable s)
include h

namespace Once

section

variable (haccepted : t.accepted = s.accepted) (hid : t.nextId = s.nextId)
  (hspan : t.nextSpan = s.nextSpan) (hspool : t.spool.buffer.Sublist s.spool.buffer)
  (hnames : ∀ p, t.Names p → s.Names p)
include haccepted hid hspan hspool hnames

theorem frame (hlive : ∀ p, t.Live p → p.spans.Disjoint t.spool.buffer)
    (halone : ∀ p q, t.Sending p → t.Names q → q = p)
    (htaken : ∀ g p, t.flush = .taken g p → t.pending = none ∧ s.flush = .taken g p)
    (hmemory : durable = false → t.state = none ∧ t.disk = none) : Once durable t where
  known := by
    rw [haccepted, hid, hspan]
    exact fun p hp ↦ h.known p (hp.imp_left (hnames p))
  spool := by
    rw [hspan]
    exact ⟨h.spool.1.sublist hspool, fun x hx ↦ h.spool.2 x (hspool.mem hx)⟩
  apart := haccepted ▸ h.apart
  queued := by
    rw [haccepted]
    exact fun p hp ↦ disjoint_of_subset_right hspool.subset (h.queued p hp)
  fair := by
    rw [haccepted]
    exact fun p hp ↦ h.fair p (hnames p hp)
  live := hlive
  alone := halone
  taken := by
    rw [haccepted]
    intro g p hp
    obtain ⟨hpending, htaken⟩ := htaken g p hp
    obtain ⟨hdurable, -, hnot⟩ := h.taken g p htaken
    exact ⟨hdurable, hpending, hnot⟩
  memory := hmemory

theorem shrink (hlive : ∀ p, t.Live p → s.Live p) (hsending : ∀ p, t.Sending p → s.Sending p)
    (htaken : ∀ g p, t.flush = .taken g p → t.pending = none ∧ s.flush = .taken g p)
    (hmemory : durable = false → t.state = none ∧ t.disk = none) : Once durable t :=
  h.frame haccepted hid hspan hspool hnames
    (fun p hp ↦ disjoint_of_subset_right hspool.subset (h.live p (hlive p hp)))
    (fun p q hp hq ↦ h.alone p q (hsending p hp) (hnames q hq)) htaken hmemory

end

theorem setFlush (hsubmission : ∀ p, flush.submission = some p → s.Sending p)
    (htaken : ∀ g p, flush ≠ .taken g p) : Once durable { s with flush := flush } := by
  have hlive : ∀ p, Live { s with flush := flush } p → s.Live p := by
    rintro p (hp | hp)
    · exact .inl hp
    · exact (hsubmission p hp).imp id Flush.submission_of_chosen
  refine h.shrink rfl rfl rfl (.refl _) ?_ hlive ?_ (fun g p hp ↦ absurd hp (htaken g p)) h.memory
  · rintro p (hp | hp | hp | hp)
    · exact .inl hp
    · exact .inr (.inl hp)
    · exact .inr (.inr (.inl hp))
    · exact .of_sending (hsubmission p hp)
  · rintro p (hp | hp)
    · exact .inl hp
    · exact hsubmission p (Flush.submission_of_chosen hp)

theorem record (capacity count : ℕ) :
    Once durable { s with
      spool := s.spool.push capacity bytes (List.range' s.nextSpan count)
      nextSpan := s.nextSpan + count } := by
  have hspool : (s.spool.push capacity bytes (List.range' s.nextSpan count)).buffer.Sublist
      (s.spool.buffer ++ List.range' s.nextSpan count) := Spool.push_sublist
  have hnew : ∀ spans : List ℕ, (∀ x ∈ spans, x < s.nextSpan) →
      spans.Disjoint (List.range' s.nextSpan count) := by
    intro spans hold x hx hrange
    have := (mem_range'_1.mp hrange).1
    exact absurd (hold x hx) (Nat.not_lt.mpr this)
  have hdisjoint : ∀ spans : List ℕ, (∀ x ∈ spans, x < s.nextSpan) →
      spans.Disjoint s.spool.buffer → spans.Disjoint
        (s.spool.push capacity bytes (List.range' s.nextSpan count)).buffer := by
    intro spans hold hspans
    refine disjoint_of_subset_right hspool.subset ?_
    exact disjoint_append_right.mpr ⟨hspans, hnew spans hold⟩
  refine ⟨?_, ⟨?_, ?_⟩, h.apart, ?_, h.fair, ?_, h.alone, h.taken, h.memory⟩
  · intro p hp
    obtain ⟨hid, hnodup, hold⟩ := h.known p hp
    exact ⟨hid, hnodup, fun x hx ↦ Nat.lt_add_right count (hold x hx)⟩
  · refine .sublist hspool (nodup_append'.mpr ⟨h.spool.1, ?_, hnew _ h.spool.2⟩)
    exact nodup_range'
  · intro x hx
    rcases mem_append.mp (hspool.mem hx) with hx | hx
    · exact Nat.lt_add_right count (h.spool.2 x hx)
    · exact (mem_range'_1.mp hx).2
  · exact fun p hp ↦ hdisjoint _ (h.known p (.inr hp)).2.2 (h.queued p hp)
  · exact fun p hp ↦ hdisjoint _ (h.known p (.inl (.of_live hp))).2.2 (h.live p hp)

theorem take (generation : ℕ) : Once durable
    (s.taking durable generation ⟨s.nextId, (s.spool.take batchSize).1⟩) := by
  set next : PendingSubmission := ⟨s.nextId, (s.spool.take batchSize).1⟩
  set t := s.taking durable generation next with ht
  have htaken : next.spans.Sublist s.spool.buffer := take_sublist _ _
  have hrest : t.spool.buffer.Sublist s.spool.buffer := drop_sublist _ _
  have hlive : ∀ p, t.Live p → p = next := by
    rintro p (hp | hp)
    · cases durable with
      | true => cases hp
      | false => exact (some.inj hp).symm
    · cases durable <;> exact (some.inj hp).symm
  have hnames : ∀ p, t.Names p → p = next ∨ s.Names p := by
    rintro p (hp | hp | hp | hp)
    · exact .inl (hlive p (.inl hp))
    · exact .inr (.inr (.inl hp))
    · exact .inr (.inr (.inr (.inl hp)))
    · exact .inl (hlive p (.inr hp))
  have hfresh : ∀ q ∈ s.accepted, next.Apart q := by
    refine fun q hq ↦ ⟨Nat.ne_of_gt (h.known q (.inr hq)).1, ?_⟩
    exact disjoint_of_subset_left htaken.subset (disjoint_symm (h.queued q hq))
  refine ⟨?_, ⟨h.spool.1.sublist hrest, fun x hx ↦ h.spool.2 x (hrest.mem hx)⟩, h.apart, ?_, ?_, ?_,
    ?_, ?_, h.memory⟩
  · intro p hp
    rcases or_assoc.mp (hp.imp_left (hnames p)) with rfl | hp
    · refine ⟨Nat.lt_succ_self _, h.spool.1.sublist htaken, ?_⟩
      exact fun x hx ↦ h.spool.2 x (htaken.mem hx)
    · obtain ⟨hid, hspans⟩ := h.known p hp
      exact ⟨Nat.lt_succ_of_lt hid, hspans⟩
  · exact fun p hp ↦ disjoint_of_subset_right hrest.subset (h.queued p hp)
  · intro p hp
    rcases hnames p hp with rfl | hp
    · exact .inr hfresh
    · exact h.fair p hp
  · intro p hp
    rw [hlive p hp]
    exact disjoint_take_drop h.spool.1 (Nat.le_refl _)
  · intro p q hp hq
    cases durable with
    | true => simp [ht, taking, Sending, Flush.chosen] at hp
    | false =>
      obtain ⟨hstate, hdisk⟩ := h.memory rfl
      have hp : p = next := hlive p (hp.imp id Flush.submission_of_chosen)
      rcases hq with hq | hq | hq | hq
      · exact (hlive q (.inl hq)).trans hp.symm
      · exact nomatch hstate.symm.trans hq
      · exact nomatch hdisk.symm.trans hq
      · exact (hlive q (.inr hq)).trans hp.symm
  · intro g p hp
    cases durable with
    | true =>
      obtain ⟨rfl, rfl⟩ : generation = g ∧ next = p := by simpa [ht, taking] using hp
      refine ⟨rfl, rfl, fun hmem ↦ ?_⟩
      exact (hfresh next hmem).1 rfl
    | false => simp [ht, taking] at hp

theorem choose (generation : ℕ) : Once durable (s.choose durable generation) := by
  fun_cases Submitter.choose durable s generation
  case case1 pending hpending =>
    refine h.setFlush (fun p hp ↦ .inl ?_) nofun
    exact hpending.trans hp
  case case4 htake =>
    have := h.take generation
    rwa [taking, htake] at this
  all_goals exact h.setFlush nofun nofun

theorem savePending (hflush : s.flush = .taken g p) :
    Once durable
      { s with state := some p, disk := some p, pending := some p, flush := .ready g p } := by
  obtain ⟨hdurable, -, -⟩ := h.taken g p hflush
  have hp : s.flush.submission = some p := by rw [hflush]; rfl
  have hnames : ∀ q, Names { s with
      state := some p, disk := some p, pending := some p, flush := .ready g p } q → q = p := by
    rintro q (hq | hq | hq | hq) <;> exact (some.inj hq).symm
  refine h.frame rfl rfl rfl (.refl _) ?_ ?_ ?_ nofun (by simp [hdurable])
  · intro q hq
    rw [hnames q hq]
    exact .inr (.inr (.inr hp))
  · intro q hq
    rw [hnames q (.of_live hq)]
    exact h.live p (.inr hp)
  · intro q r hq hr
    rw [hnames q (.of_sending hq), hnames r hr]

theorem savePendingFailed (hflush : s.flush = .taken g p) (capacity : ℕ) (written : Bool) :
    Once durable
      { s with
        disk := if written then some p else s.disk
        spool := s.spool.requeue capacity bytes p.spans
        flush := .idle } := by
  obtain ⟨hdurable, hpending, hnot⟩ := h.taken g p hflush
  have hp : s.Live p := .inr (by rw [hflush]; rfl)
  have hfresh : ∀ q ∈ s.accepted, p.Apart q := (h.fair p (.of_live hp)).resolve_left hnot
  obtain ⟨-, hnodup, hold⟩ := h.known p (.inl (.of_live hp))
  have hspool : (s.spool.requeue capacity bytes p.spans).buffer.Sublist
      (p.spans ++ s.spool.buffer) := Spool.requeue_sublist
  have hnames : ∀ q, Names { s with
      disk := if written then some p else s.disk
      spool := s.spool.requeue capacity bytes p.spans
      flush := .idle } q → s.Names q := by
    rintro q (hq | hq | hq | hq)
    · exact .inl hq
    · exact .inr (.inl hq)
    · cases written with
      | true => exact some.inj hq ▸ .of_live hp
      | false => exact .inr (.inr (.inl hq))
    · cases hq
  refine ⟨fun q hq ↦ h.known q (hq.imp_left (hnames q)), ⟨?_, ?_⟩, h.apart, ?_,
    fun q hq ↦ h.fair q (hnames q hq), ?_, ?_, nofun, by simp [hdurable]⟩
  · exact .sublist hspool (nodup_append'.mpr ⟨hnodup, h.spool.1, h.live p hp⟩)
  · exact fun x hx ↦ (mem_append.mp (hspool.mem hx)).elim (hold x) (h.spool.2 x)
  · intro q hq
    refine disjoint_of_subset_right hspool.subset ?_
    exact disjoint_append_right.mpr ⟨disjoint_symm (hfresh q hq).2, h.queued q hq⟩
  · rintro q (hq | hq)
    · exact nomatch hpending.symm.trans hq
    · cases hq
  · rintro q r (hq | hq) _
    · exact nomatch hpending.symm.trans hq
    · cases hq

theorem accept (hp : s.Sending p) : Once durable (s.accept p) := by
  rw [Submitter.accept]
  split
  case isTrue => exact h
  case isFalse hnew =>
    have hname : s.Names p := .of_sending hp
    have hapart : ∀ q ∈ s.accepted, p.Apart q := by
      refine (h.fair p hname).resolve_left fun hmem ↦ hnew ?_
      exact mem_map_of_mem hmem
    refine ⟨?_, h.spool, .cons hapart h.apart, ?_, ?_, h.live, h.alone, ?_, h.memory⟩
    · intro q hq
      rcases hq.imp_right mem_cons.mp with hq | rfl | hq
      · exact h.known q (.inl hq)
      · exact h.known q (.inl hname)
      · exact h.known q (.inr hq)
    · exact forall_mem_cons.mpr ⟨h.live p (hp.imp id Flush.submission_of_chosen), h.queued⟩
    · intro q hq
      rw [h.alone p q hp hq]
      exact .inl mem_cons_self
    · intro g q hq
      obtain ⟨-, hpending, -⟩ := h.taken g q hq
      rcases hp with hp | hp
      · exact nomatch hpending.symm.trans hp
      · rw [hq] at hp
        cases hp

end Once

end

theorem cutOff_eq (s : Submitter) (accepted : Bool) :
    ∃ list, s.cutOff accepted = { s with accepted := list } := by
  fun_cases Submitter.cutOff s accepted
  case case1 =>
    rw [Submitter.accept]
    split <;> exact ⟨_, rfl⟩
  case case2 => exact ⟨_, rfl⟩

theorem Once.cutOff (h : Once durable s) (accepted : Bool) : Once durable (s.cutOff accepted) := by
  fun_cases Submitter.cutOff s accepted
  case case1 hflush => exact h.accept (.inr (by rw [hflush]; rfl))
  case case2 => exact h

theorem Save.written_eq {α : Type*} (new old : α) (save : Save) :
    save.written new old = new ∨ save.written new old = old := by
  cases save with
  | done => exact .inl rfl
  | failed written => cases written <;> simp [Save.written]

section

variable (h : Once durable s) {state : Option PendingSubmission}
include h

theorem Once.setState {disk : Option PendingSubmission}
    (hstate : ∀ p, state = some p → s.state = some p)
    (hdisk : ∀ p, disk = some p → s.state = some p ∨ s.disk = some p) :
    Once durable { s with state := state, disk := disk } := by
  refine h.shrink rfl rfl rfl (.refl _) ?_ (fun _ ↦ id) (fun _ ↦ id) (fun g p hp ↦ ?_) ?_
  · rintro p (hp | hp | hp | hp)
    · exact .inl hp
    · exact .inr (.inl (hstate p hp))
    · exact .inr ((hdisk p hp).imp id .inl)
    · exact .inr (.inr (.inr hp))
  · exact ⟨(h.taken g p hp).2.1, hp⟩
  · intro hdurable
    obtain ⟨hnone, hnone'⟩ := h.memory hdurable
    refine ⟨eq_none_iff_forall_ne_some.mpr fun p hp ↦ ?_,
      eq_none_iff_forall_ne_some.mpr fun p hp ↦ ?_⟩
    · simpa [hnone] using hstate p hp
    · simpa [hnone, hnone'] using hdisk p hp

theorem Once.clearDisk (save : Save) (hstate : ∀ p, state = some p → s.state = some p) :
    Once durable { s with state := state, disk := save.written none s.disk } := by
  refine h.setState hstate fun p hp ↦ ?_
  rcases Save.written_eq none s.disk save with heq | heq <;> rw [heq] at hp
  · cases hp
  · exact .inr hp

theorem Once.clearPending {pending : Option PendingSubmission}
    (hpending : ∀ p, pending = some p → s.pending = some p) :
    Once durable { s with pending := pending } := by
  refine h.shrink rfl rfl rfl (.refl _) (fun p ↦ .imp_left (hpending p))
    (fun p ↦ .imp_left (hpending p)) (fun p ↦ .imp_left (hpending p)) (fun g p hp ↦ ?_) h.memory
  refine ⟨eq_none_iff_forall_ne_some.mpr fun q hq ↦ ?_, hp⟩
  simpa [(h.taken g p hp).2.1] using hpending q hq

theorem Once.crash (accepted : Bool) : Once durable (s.crash accepted) := by
  have hc := h.cutOff accepted
  obtain ⟨list, hcut⟩ := cutOff_eq s accepted
  have hdisk : (s.cutOff accepted).disk = s.disk := by rw [hcut]
  refine hc.frame rfl rfl rfl (nil_sublist _) ?_ ?_ ?_ nofun ?_
  · rintro p (hp | hp | hp | hp)
    · exact .inr (.inr (.inl (hdisk.trans hp)))
    · exact .inr (.inr (.inl (hdisk.trans hp)))
    · exact .inr (.inr (.inl hp))
    · cases hp
  · exact fun p _ ↦ disjoint_nil_right _
  · have hname : ∀ p, (s.crash accepted).Names p → s.disk = some p := by
      rintro p (hp | hp | hp | hp)
      · exact hp
      · exact hp
      · exact hdisk.symm.trans hp
      · cases hp
    intro p q hp hq
    exact some.inj ((hname q hq).symm.trans (hname p (.of_sending hp)))
  · intro hdurable
    exact ⟨(h.memory hdurable).2, (hc.memory hdurable).2⟩

theorem Once.step (hstep : s.step durable bytes a = some t) : Once durable t := by
  revert hstep
  fun_cases Submitter.step durable bytes s a <;> rintro ⟨⟩
  case case1 => exact h.record _ _
  case case2 => exact h.setFlush nofun nofun
  case case4 generation _ => exact h.choose generation
  case case6 hflush => exact h.savePending hflush
  case case7 written hflush => exact h.savePendingFailed hflush _ written
  case case9 hflush =>
    refine h.setFlush (fun q hq ↦ .inr ?_) nofun
    rw [hflush]
    exact hq
  case case11 accepted heard generation p hflush =>
    obtain ⟨list, hcut⟩ := cutOff_eq s accepted
    have hp : (s.cutOff accepted).Sending p := .inr (by rw [hcut, hflush]; rfl)
    refine (h.cutOff accepted).setFlush (fun q hq ↦ ?_) (fun g q hq ↦ ?_)
    · split at hq
      case isTrue => cases durable <;> exact some.inj hq ▸ hp
      case isFalse => cases hq
    · split at hq
      case isTrue => cases durable <;> cases hq
      case isFalse => cases hq
  case case13 hflush =>
    have hunlinked : Once durable { s with state := none, disk := none } := h.setState nofun nofun
    refine hunlinked.setFlush (fun q hq ↦ .inr ?_) nofun
    rw [hflush]
    exact hq
  case case14 written hflush =>
    exact (h.clearDisk (.failed written) fun _ ↦ id).setFlush nofun nofun
  case case16 =>
    exact (h.clearPending fun q hq ↦ (filter_eq_some_iff.mp hq).1).setFlush nofun nofun
  case case19 accepted _ => exact (h.cutOff accepted).setFlush nofun nofun
  case case20 =>
    exact { h with }
  case case22 => exact h.setState nofun nofun
  case case23 written _ => exact h.clearDisk (.failed written) fun _ ↦ id
  case case25 => exact h
  case case26 save _ _ _ => exact h.clearDisk save nofun
  case case27 =>
    exact h.shrink rfl rfl rfl (nil_sublist _) (fun _ ↦ id) (fun _ ↦ id) (fun _ ↦ id)
      (fun g p hp ↦ ⟨(h.taken g p hp).2.1, hp⟩) h.memory
  case case28 => exact h.clearPending nofun
  case case30 save _ =>
    refine h.setState (fun _ ↦ id) fun p hp ↦ ?_
    rcases Save.written_eq s.state s.disk save with heq | heq <;> rw [heq] at hp
    · exact .inl hp
    · exact .inr hp

end

theorem once_init : Once durable .init where
  known := by
    rintro p ((hp | hp | hp | hp) | hp) <;> cases hp
  spool := ⟨nodup_nil, nofun⟩
  apart := .nil
  queued := nofun
  fair := by
    rintro p (hp | hp | hp | hp) <;> cases hp
  live := by
    rintro p (hp | hp) <;> cases hp
  alone := by
    rintro p q (hp | hp) <;> cases hp
  taken := nofun
  memory := fun _ ↦ ⟨rfl, rfl⟩

def stored (s : Submitter) (span : ℕ) : ℕ :=
  (s.accepted.flatMap PendingSubmission.spans).count span

theorem Once.stored_le_one (h : Once durable s) (span : ℕ) : s.stored span ≤ 1 := by
  refine nodup_iff_count_le_one.mp (nodup_flatMap.mpr ⟨?_, ?_⟩) span
  · exact fun p hp ↦ (h.known p (.inr hp)).2.1
  · exact h.apart.imp fun hapart ↦ hapart.2

theorem Once.eq_of_shared (h : Once durable s) (hp : s.Sending p) (hq : q ∈ s.accepted) {span : ℕ}
    (hspan : span ∈ p.spans) (hspan' : span ∈ q.spans) : q = p := by
  rcases h.fair p (.of_sending hp) with hmem | hapart
  · by_contra hne
    exact (h.apart.forall hq hmem hne).2 hspan' hspan
  · exact absurd hspan' ((hapart q hq).2 hspan)

end Submitter

end Temps.Cloud
