import Temps.Lib.Custody
import Temps.Lib.Machine

namespace Temps.Cloud.Outbox

open Lib.Custody Lib.Machine List Function

def outboxBatchSize : ℕ := 500

def outboxMaxAttempts : ℕ := 10

inductive RowState where
  | pending
  | delivered
  | deadLetter
  | spilledToLocal
  deriving DecidableEq

/-- A span row. On the side are recorded how often Cloud has refused it, whether Cloud has
acknowledged it, how often Cloud has stored it, and whether the local store has it. -/
structure Row where
  projectId : ℕ
  decodable : Bool
  state : RowState
  attempts : ℕ
  refusals : ℕ
  acknowledged : Bool
  stored : ℕ
  keptLocally : Bool
  deriving DecidableEq

namespace Row

def new (projectId : ℕ) (decodable : Bool) : Row :=
  ⟨projectId, decodable, .pending, 0, 0, false, 0, false⟩

variable (r : Row)

def claim : Row := { r with attempts := r.attempts + 1 }

/-- `SET state = $2 WHERE state = 'pending'`. -/
def settle (state : RowState) : Row := if r.state = .pending then { r with state := state } else r

/-- `SET attempts = GREATEST(attempts - 1, 0) WHERE state = 'pending'`. -/
def release : Row := if r.state = .pending then { r with attempts := r.attempts - 1 } else r

/-- `SET state = 'dead_letter' WHERE state = 'pending' AND attempts >= $2`. -/
def exhaust : Row :=
  if r.state = .pending ∧ outboxMaxAttempts ≤ r.attempts then { r with state := .deadLetter } else r

def store : Row := { r with stored := r.stored + 1 }

def keep : Row := { r with keptLocally := true }

end Row

/-- How a request that was sent ends: acknowledged; refused; stored with the reply lost; or given up
because export was switched off or the link changed, after Cloud has stored the batch or not. -/
inductive Answer where
  | acknowledged
  | refused
  | lost
  | dropped (stored : Bool)
  deriving DecidableEq

def Answer.effect (r : Row) : Answer → Row
  | .acknowledged => { r.store with acknowledged := true }
  | .refused => { r with refusals := r.refusals + 1 }
  | .lost => r.store
  | .dropped stored => if stored then r.store else r

/-- How far one batch of `drain_until_idle` has come. -/
inductive Drain where
  | idle
  | decoding (claimed undecodable : List ℕ)
  | claimed (ids : List ℕ)
  | shipping (ids : List ℕ)
  | shipped (ids : List ℕ)
  | refused (ids : List ℕ)
  | recorded (ids : List ℕ)
  | notLinked (ids : List ℕ)
  deriving DecidableEq

def Drain.ids : Drain → List ℕ
  | .idle => []
  | .decoding good bad => good ++ bad
  | .claimed ids | .shipping ids | .shipped ids | .refused ids | .recorded ids | .notLinked ids => ids

def Drain.ofClaimed : List ℕ → Drain
  | [] => .idle
  | ids => .claimed ids

def Answer.next (ids : List ℕ) : Answer → Drain
  | .acknowledged => .shipped ids
  | .refused | .lost => .refused ids
  | .dropped _ => .notLinked ids

def Drain.inFlight : Drain → List ℕ
  | .shipping ids => ids
  | _ => []

inductive Spill where
  | idle
  | read (ids : List ℕ)
  | stored (ids : List ℕ)
  deriving DecidableEq

def Spill.ids : Spill → List ℕ
  | .idle => []
  | .read ids | .stored ids => ids

/-- The table, with the ids in the order of enqueueing, and what is going on: the drains, the holder
of the flush lock, and the spills. -/
structure SpanOutbox where
  rows : ℕ → Row
  count : ℕ
  live : ℕ → Bool
  lock : Option ℕ
  drains : ℕ → Drain
  spills : ℕ → Spill

inductive Act where
  | enqueue (projectId : ℕ) (decodable : Bool)
  | deleteProject (projectId : ℕ)
  | claim (d : ℕ)
  | deadLetter (d : ℕ)
  | skip (d : ℕ) (blocked : Bool)
  | ship (d : ℕ)
  | answer (d : ℕ) (answer : Answer)
  | markDelivered (d : ℕ)
  | recordError (d : ℕ)
  | deadLetterExhausted (d : ℕ)
  | releaseClaim (d : ℕ)
  | abandon (d : ℕ) (stored : Bool)
  | pendingForProjects (j : ℕ) (projectIds : List ℕ)
  | storeSpans (j : ℕ)
  | markSpilled (j : ℕ)
  | abandonSpill (j : ℕ)
  | crash (stored : Bool)
  deriving DecidableEq

namespace SpanOutbox

def init : SpanOutbox where
  rows := fun _ ↦ .new 0 true
  count := 0
  live := fun _ ↦ true
  lock := none
  drains := fun _ ↦ .idle
  spills := fun _ ↦ .idle

variable (s : SpanOutbox)

def update (ids : List ℕ) (f : Row → Row) : SpanOutbox :=
  { s with rows := fun i ↦ if i ∈ ids then f (s.rows i) else s.rows i }

def setDrain (d : ℕ) (phase : Drain) : SpanOutbox :=
  { s with drains := Function.update s.drains d phase }

def setSpill (j : ℕ) (phase : Spill) : SpanOutbox :=
  { s with spills := Function.update s.spills j phase }

def claimable (i : ℕ) : Bool :=
  (s.rows i).state = .pending ∧ (s.rows i).attempts < outboxMaxAttempts ∧ s.live (s.rows i).projectId

def claimIds : List ℕ := ((List.range s.count).filter s.claimable).take outboxBatchSize

def claim (d : ℕ) : SpanOutbox :=
  let ids := s.claimIds
  let decodable := fun i ↦ (s.rows i).decodable
  (s.update ids Row.claim).setDrain d
    (.decoding (ids.filter decodable) (ids.filter fun i ↦ !decodable i))

def pendingForProjects (projectIds : List ℕ) : List ℕ :=
  (((List.range s.count).filter fun i ↦
    (s.rows i).state = .pending ∧ (s.rows i).projectId ∈ projectIds).take outboxBatchSize).filter
      fun i ↦ (s.rows i).decodable

def cutOff (ids : List ℕ) (stored : Bool) : SpanOutbox := s.update (if stored then ids else []) Row.store

def unlock (d : ℕ) : SpanOutbox := { s with lock := if s.lock = some d then none else s.lock }

def step : Act → Option SpanOutbox
  | .enqueue projectId decodable =>
    some { s with
      rows := Function.update s.rows s.count (.new projectId decodable)
      count := s.count + 1 }
  | .deleteProject projectId => some { s with live := Function.update s.live projectId false }
  | .claim d =>
    match s.drains d with
    | .idle => if s.claimIds = [] then none else some (s.claim d)
    | _ => none
  | .deadLetter d =>
    match s.drains d with
    | .decoding claimed undecodable =>
      some ((s.update undecodable (Row.settle · .deadLetter)).setDrain d (.ofClaimed claimed))
    | _ => none
  | .skip d blocked =>
    match s.drains d with
    | .claimed ids => some (s.setDrain d (if blocked then .refused ids else .notLinked ids))
    | _ => none
  | .ship d =>
    match s.drains d, s.lock with
    | .claimed ids, none => some { s.setDrain d (.shipping ids) with lock := some d }
    | _, _ => none
  | .answer d answer =>
    match s.drains d with
    | .shipping ids =>
      some (((s.update ids answer.effect).setDrain d (answer.next ids)).unlock d)
    | _ => none
  | .markDelivered d =>
    match s.drains d with
    | .shipped ids => some ((s.update ids (Row.settle · .delivered)).setDrain d .idle)
    | _ => none
  | .recordError d =>
    match s.drains d with
    | .refused ids => some (s.setDrain d (.recorded ids))
    | _ => none
  | .deadLetterExhausted d =>
    match s.drains d with
    | .recorded ids => some ((s.update ids Row.exhaust).setDrain d .idle)
    | _ => none
  | .releaseClaim d =>
    match s.drains d with
    | .notLinked ids => some ((s.update ids Row.release).setDrain d .idle)
    | _ => none
  | .abandon d stored => some (((s.cutOff (s.drains d).inFlight stored).setDrain d .idle).unlock d)
  | .pendingForProjects j projectIds =>
    match s.spills j with
    | .idle =>
      if s.pendingForProjects projectIds = [] then none
      else some (s.setSpill j (.read (s.pendingForProjects projectIds)))
    | _ => none
  | .storeSpans j =>
    match s.spills j with
    | .read ids => some ((s.update ids Row.keep).setSpill j (.stored ids))
    | _ => none
  | .markSpilled j =>
    match s.spills j with
    | .stored ids => some ((s.update ids (Row.settle · .spilledToLocal)).setSpill j .idle)
    | _ => none
  | .abandonSpill j => some (s.setSpill j .idle)
  | .crash stored =>
    some { s.cutOff ((s.lock.map fun d ↦ (s.drains d).inFlight).getD []) stored with
      lock := none
      drains := fun _ ↦ .idle
      spills := fun _ ↦ .idle }

end SpanOutbox

inductive Move (s : SpanOutbox) : Act → SpanOutbox → Prop
  | enqueue {projectId decodable} :
    Move s (.enqueue projectId decodable)
      { s with
        rows := Function.update s.rows s.count (.new projectId decodable)
        count := s.count + 1 }
  | deleteProject {projectId} :
    Move s (.deleteProject projectId) { s with live := Function.update s.live projectId false }
  | claim {d} (hdrain : s.drains d = .idle) : Move s (.claim d) (s.claim d)
  | deadLetter {d claimed undecodable} (hdrain : s.drains d = .decoding claimed undecodable) :
    Move s (.deadLetter d)
      ((s.update undecodable (Row.settle · .deadLetter)).setDrain d (.ofClaimed claimed))
  | skip {d blocked ids} (hdrain : s.drains d = .claimed ids) :
    Move s (.skip d blocked) (s.setDrain d (if blocked then .refused ids else .notLinked ids))
  | ship {d ids} (hdrain : s.drains d = .claimed ids) (hlock : s.lock = none) :
    Move s (.ship d) { s.setDrain d (.shipping ids) with lock := some d }
  | answer {d answer ids} (hdrain : s.drains d = .shipping ids) :
    Move s (.answer d answer)
      (((s.update ids answer.effect).setDrain d (answer.next ids)).unlock d)
  | markDelivered {d ids} (hdrain : s.drains d = .shipped ids) :
    Move s (.markDelivered d) ((s.update ids (Row.settle · .delivered)).setDrain d .idle)
  | recordError {d ids} (hdrain : s.drains d = .refused ids) :
    Move s (.recordError d) (s.setDrain d (.recorded ids))
  | deadLetterExhausted {d ids} (hdrain : s.drains d = .recorded ids) :
    Move s (.deadLetterExhausted d) ((s.update ids Row.exhaust).setDrain d .idle)
  | releaseClaim {d ids} (hdrain : s.drains d = .notLinked ids) :
    Move s (.releaseClaim d) ((s.update ids Row.release).setDrain d .idle)
  | abandon {d stored} :
    Move s (.abandon d stored) (((s.cutOff (s.drains d).inFlight stored).setDrain d .idle).unlock d)
  | pendingForProjects {j projectIds} (hspill : s.spills j = .idle) :
    Move s (.pendingForProjects j projectIds)
      (s.setSpill j (.read (s.pendingForProjects projectIds)))
  | storeSpans {j ids} (hspill : s.spills j = .read ids) :
    Move s (.storeSpans j) ((s.update ids Row.keep).setSpill j (.stored ids))
  | markSpilled {j ids} (hspill : s.spills j = .stored ids) :
    Move s (.markSpilled j) ((s.update ids (Row.settle · .spilledToLocal)).setSpill j .idle)
  | abandonSpill {j} : Move s (.abandonSpill j) (s.setSpill j .idle)
  | crash {stored} :
    Move s (.crash stored)
      { s.cutOff ((s.lock.map fun d ↦ (s.drains d).inFlight).getD []) stored with
        lock := none
        drains := fun _ ↦ .idle
        spills := fun _ ↦ .idle }

theorem step_move {s t : SpanOutbox} {a : Act} (h : s.step a = some t) : Move s a t := by
  revert h
  fun_cases SpanOutbox.step s a <;> rintro ⟨⟩
  case case1 => exact .enqueue
  case case2 => exact .deleteProject
  case case4 hdrain _ => exact .claim hdrain
  case case6 hdrain => exact .deadLetter hdrain
  case case8 hdrain => exact .skip hdrain
  case case10 hlock hdrain => exact .ship hdrain hlock
  case case12 hdrain => exact .answer hdrain
  case case14 hdrain => exact .markDelivered hdrain
  case case16 hdrain => exact .recordError hdrain
  case case18 hdrain => exact .deadLetterExhausted hdrain
  case case20 hdrain => exact .releaseClaim hdrain
  case case22 => exact .abandon
  case case24 hspill _ => exact .pendingForProjects hspill
  case case26 hspill => exact .storeSpans hspill
  case case28 hspill => exact .markSpilled hspill
  case case30 => exact .abandonSpill
  case case31 => exact .crash

variable {s t : SpanOutbox} {a : Act} {r : Row} {i d : ℕ} {p q : Drain} {f : Row → Row}
  {ids : List ℕ}

def holds (p : Drain) (i : ℕ) : Prop := i ∈ p.ids

theorem rows_update (ids : List ℕ) (f : Row → Row) :
    (s.update ids f).rows i = if i ∈ ids then f (s.rows i) else s.rows i := rfl

theorem update_cases {P : Row → Prop} (hrow : P (s.rows i))
    (hf : i ∈ ids → P (s.rows i) → P (f (s.rows i))) : P ((s.update ids f).rows i) := by
  rw [rows_update]
  split
  case isTrue hi => exact hf hi hrow
  case isFalse => exact hrow

theorem Row.settle_pending (h : r.state = .pending) (state : RowState) :
    r.settle state = { r with state := state } := if_pos h

theorem Row.settle_of_ne (h : r.state ≠ .pending) (state : RowState) : r.settle state = r :=
  if_neg h

theorem Row.not_pending_settle {state : RowState} (h : state ≠ .pending) :
    (r.settle state).state ≠ .pending := by
  by_cases hr : r.state = .pending
  · rwa [Row.settle_pending hr]
  · rwa [Row.settle_of_ne hr]

theorem Row.exhaust_eq (h : r.state = .pending) (hmax : outboxMaxAttempts ≤ r.attempts) :
    r.exhaust = { r with state := .deadLetter } := if_pos ⟨h, hmax⟩

theorem Row.exhaust_of_not (h : ¬ (r.state = .pending ∧ outboxMaxAttempts ≤ r.attempts)) :
    r.exhaust = r := if_neg h

theorem ids_ofClaimed (ids : List ℕ) : (Drain.ofClaimed ids).ids = ids := by
  cases ids <;> rfl

theorem Answer.ids_next (answer : Answer) (ids : List ℕ) : (answer.next ids).ids = ids := by
  cases answer <;> rfl

theorem cutOff_nil (stored : Bool) : s.cutOff [] stored = s := by
  cases stored <;> simp [SpanOutbox.cutOff, SpanOutbox.update]

def claimPhase (s : SpanOutbox) : Drain :=
  .decoding (s.claimIds.filter fun i ↦ (s.rows i).decodable)
    (s.claimIds.filter fun i ↦ !(s.rows i).decodable)

theorem mem_ids_claimPhase : i ∈ (claimPhase s).ids ↔ i ∈ s.claimIds := by
  simp only [claimPhase, Drain.ids, mem_append, mem_filter]
  cases (s.rows i).decodable <;> simp

theorem mem_claimIds (hi : i ∈ s.claimIds) : i < s.count ∧ s.claimable i := by
  obtain ⟨hrange, hclaimable⟩ := mem_filter.mp (mem_of_mem_take hi)
  exact ⟨mem_range.mp hrange, hclaimable⟩

theorem mem_pendingForProjects {projectIds : List ℕ} (hi : i ∈ s.pendingForProjects projectIds) :
    i < s.count ∧ (s.rows i).state = .pending := by
  obtain ⟨hrange, hrow⟩ := mem_filter.mp (mem_of_mem_take (mem_filter.mp hi).1)
  exact ⟨mem_range.mp hrange, (of_decide_eq_true hrow).1⟩

structure Known (s : SpanOutbox) : Prop where
  drains : ∀ d, ∀ i ∈ (s.drains d).ids, i < s.count
  spills : ∀ j, ∀ i ∈ (s.spills j).ids, i < s.count

section

variable (h : Known s)
include h

theorem Known.setDrain (hp : ∀ i ∈ p.ids, i < s.count) : Known (s.setDrain d p) where
  drains := (forall_update_iff s.drains fun _ p ↦ ∀ i ∈ p.ids, i < s.count).mpr
    ⟨hp, fun e _ ↦ h.drains e⟩
  spills := h.spills

theorem Known.setSpill {j : ℕ} {p : Spill} (hp : ∀ i ∈ p.ids, i < s.count) :
    Known (s.setSpill j p) where
  drains := h.drains
  spills := (forall_update_iff s.spills fun _ p ↦ ∀ i ∈ p.ids, i < s.count).mpr
    ⟨hp, fun k _ ↦ h.spills k⟩

theorem Known.update (ids : List ℕ) (f : Row → Row) : Known (s.update ids f) := { h with }

theorem Known.lock (lock : Option ℕ) : Known { s with lock := lock } := { h with }

theorem Known.step (hstep : s.step a = some t) : Known t := by
  have hdrain : ∀ {d q}, s.drains d = q → ∀ i ∈ q.ids, i < s.count :=
    fun hd i hi ↦ h.drains _ i (hd ▸ hi)
  have hspill : ∀ {j q}, s.spills j = q → ∀ i ∈ q.ids, i < s.count :=
    fun hj i hi ↦ h.spills _ i (hj ▸ hi)
  cases step_move hstep with
  | enqueue =>
    exact ⟨fun d i hi ↦ Nat.lt_succ_of_lt (h.drains d i hi),
      fun j i hi ↦ Nat.lt_succ_of_lt (h.spills j i hi)⟩
  | deleteProject => exact { h with }
  | claim =>
    exact (h.update _ _).setDrain fun i hi ↦ (mem_claimIds (mem_ids_claimPhase.mp hi)).1
  | deadLetter hd =>
    refine (h.update _ _).setDrain fun i hi ↦ hdrain hd i ?_
    rw [ids_ofClaimed] at hi
    exact mem_append_left _ hi
  | @skip d blocked ids hd =>
    refine h.setDrain fun i hi ↦ hdrain hd i ?_
    cases blocked <;> exact hi
  | ship hd => exact (h.setDrain (p := .shipping _) fun i hi ↦ hdrain hd i hi).lock _
  | answer hd =>
    refine ((h.update _ _).setDrain fun i hi ↦ hdrain hd i ?_).lock _
    rwa [Answer.ids_next] at hi
  | recordError hd => exact h.setDrain fun i hi ↦ hdrain hd i hi
  | markDelivered | deadLetterExhausted | releaseClaim =>
    exact (h.update _ _).setDrain (by simp [Drain.ids])
  | abandon => exact ((h.update _ _).setDrain (by simp [Drain.ids])).lock _
  | pendingForProjects => exact h.setSpill fun i hi ↦ (mem_pendingForProjects hi).1
  | storeSpans hj => exact (h.update _ _).setSpill fun i hi ↦ hspill hj i hi
  | markSpilled => exact (h.update _ _).setSpill (by simp [Spill.ids])
  | abandonSpill => exact h.setSpill (by simp [Spill.ids])
  | crash => exact ⟨by simp [Drain.ids], by simp [Spill.ids]⟩

end

theorem known_init : Known .init := ⟨by simp [SpanOutbox.init, Drain.ids],
  by simp [SpanOutbox.init, Spill.ids]⟩

variable {Held : Drain → ℕ → Row → Prop} {Free : ℕ → Row → Prop}
  (h : Kept holds Held Free s.drains s.rows)
include h

section

variable (hdrain : s.drains d = q)
include hdrain

theorem kept_drain (hids : ∀ i ∈ ids, i ∈ q.ids) (hp : ∀ i ∈ p.ids, i ∈ q.ids)
    (hheld : ∀ i ∈ p.ids, Held q i (s.rows i) → Held p i ((s.update ids f).rows i))
    (hfree : ∀ i ∈ q.ids, i ∉ p.ids → Held q i (s.rows i) → Free i ((s.update ids f).rows i)) :
    Kept holds Held Free (update s.drains d p) (s.update ids f).rows := by
  subst hdrain
  refine h.move (fun i hi ↦ .inl (hp i hi)) ?_ ?_ ?_
  · exact fun i hi _ ↦ if_neg fun hmem ↦ hi (hids i hmem)
  · exact fun i hi ↦ hheld i hi (h.held d i (hp i hi))
  · exact fun i hi hnot ↦ hfree i hi hnot (h.held d i hi)

theorem kept_advance (hp : p.ids = q.ids)
    (hheld : ∀ i ∈ q.ids, Held q i (s.rows i) → Held p i (f (s.rows i))) :
    Kept holds Held Free (update s.drains d p) (s.update q.ids f).rows := by
  refine kept_drain h hdrain (fun _ ↦ id) (fun i hi ↦ hp ▸ hi) ?_ ?_
  · intro i hi hrow
    rw [hp] at hi
    rw [rows_update, if_pos hi]
    exact hheld i hi hrow
  · exact fun i hi hnot ↦ absurd (hp.symm ▸ hi) hnot

theorem kept_setDrain (hp : p.ids = q.ids)
    (hheld : ∀ i ∈ q.ids, Held q i (s.rows i) → Held p i (s.rows i)) :
    Kept holds Held Free (update s.drains d p) s.rows := by
  have := kept_advance h hdrain (f := id) hp hheld
  rwa [show (s.update q.ids id).rows = s.rows from funext fun i ↦ ite_self _] at this

theorem kept_finish (hfree : ∀ i ∈ q.ids, Held q i (s.rows i) → Free i (f (s.rows i))) :
    Kept holds Held Free (update s.drains d .idle) (s.update q.ids f).rows := by
  refine kept_drain h hdrain (fun _ ↦ id) (by simp [Drain.ids]) (by simp [Drain.ids]) ?_
  intro i hi _ hrow
  rw [rows_update, if_pos hi]
  exact hfree i hi hrow

end

theorem kept_claim (hdrain : s.drains d = .idle)
    (hown : ∀ i ∈ s.claimIds, ∀ d, i ∉ (s.drains d).ids)
    (hheld : ∀ i ∈ s.claimIds, Free i (s.rows i) → Held (claimPhase s) i (s.rows i).claim) :
    Kept holds Held Free (s.claim d).drains (s.claim d).rows := by
  refine h.move (fun i hi ↦ .inr (hown i (mem_ids_claimPhase.mp hi))) ?_ ?_ ?_
  · exact fun i _ hi ↦ if_neg fun hmem ↦ hi (mem_ids_claimPhase.mpr hmem)
  · intro i hi
    have hmem : i ∈ s.claimIds := mem_ids_claimPhase.mp hi
    have hclaim : (s.claim d).rows i = (s.rows i).claim := if_pos hmem
    rw [hclaim]
    exact hheld i hmem (h.free i (hown i hmem))
  · intro i hi
    rw [hdrain] at hi
    cases hi

theorem kept_enqueue (hknown : Known s) {row : Row} (hnew : Free s.count row) :
    Kept holds Held Free s.drains (update s.rows s.count row) where
  unique := h.unique
  held := by
    intro d i hi
    rw [update_of_ne (Nat.ne_of_lt (hknown.drains d i hi))]
    exact h.held d i hi
  free := by
    intro i hnone
    rcases eq_or_ne i s.count with rfl | hne
    · rwa [update_self]
    · rw [update_of_ne hne]
      exact h.free i hnone

end Temps.Cloud.Outbox
