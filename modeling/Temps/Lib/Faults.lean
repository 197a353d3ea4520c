import Mathlib.Data.List.Basic

namespace Temps.Lib.Faults

variable {σ ε α β : Type}

/-- What becomes of one call out of the process: it is served, it fails without effect, it takes
effect but its answer is lost, or the process ends before it. -/
inductive Fate
  | done
  | refused
  | lost
  | crash
  deriving DecidableEq

inductive Outcome (ε α : Type)
  | returned (a : α)
  | failed (e : ε)
  | crashed

structure Result (σ ε α : Type) where
  outcome : Outcome ε α
  state : σ
  fates : List Fate

/-- A program over the state `σ`; the fates of its calls are given in advance, and a call past the
end of the list is served. -/
def Prog (σ ε α : Type) := σ → List Fate → Result σ ε α

namespace Prog

def pure (a : α) : Prog σ ε α := fun s fates ↦ ⟨.returned a, s, fates⟩

def bind (prog : Prog σ ε α) (next : α → Prog σ ε β) : Prog σ ε β := fun s fates ↦
  let r := prog s fates
  match r.outcome with
  | .returned a => next a r.state r.fates
  | .failed e => ⟨.failed e, r.state, r.fates⟩
  | .crashed => ⟨.crashed, r.state, r.fates⟩

instance : Monad (Prog σ ε) where
  pure := pure
  bind := bind

def fail (e : ε) : Prog σ ε α := fun s fates ↦ ⟨.failed e, s, fates⟩

def lift (x : Except ε α) : Prog σ ε α :=
  match x with
  | .ok a => pure a
  | .error e => fail e

def attempt (prog : Prog σ ε α) : Prog σ ε (Except ε α) := fun s fates ↦
  let r := prog s fates
  match r.outcome with
  | .returned a => ⟨.returned (.ok a), r.state, r.fates⟩
  | .failed e => ⟨.returned (.error e), r.state, r.fates⟩
  | .crashed => ⟨.crashed, r.state, r.fates⟩

def effect (f : σ → Except ε (α × σ)) (s : σ) : σ :=
  match f s with
  | .ok (_, s') => s'
  | .error _ => s

def call (refusal : ε) (f : σ → Except ε (α × σ)) : Prog σ ε α := fun s fates ↦
  match fates.headD .done with
  | .done =>
    match f s with
    | .ok (a, s') => ⟨.returned a, s', fates.tail⟩
    | .error e => ⟨.failed e, s, fates.tail⟩
  | .refused => ⟨.failed refusal, s, fates.tail⟩
  | .lost => ⟨.failed refusal, effect f s, fates.tail⟩
  | .crash => ⟨.crashed, s, fates.tail⟩

def forEach (body : α → Prog σ ε Unit) : List α → Prog σ ε Unit
  | [] => pure ()
  | x :: xs => bind (body x) fun _ ↦ forEach body xs

end Prog

open Prog

/-- The run returned with `Q`, or it stopped early with `R`. -/
def Ends (r : Result σ ε α) (Q : α → σ → Prop) (R : σ → Prop) : Prop :=
  match r.outcome with
  | .returned a => Q a r.state
  | .failed _ => R r.state
  | .crashed => R r.state

abbrev Leaves (r : Result σ ε α) (R : σ → Prop) : Prop := Ends r (fun _ ↦ R) R

/-- `C` holds of what the program returns, if it returns. -/
def After (prog : Prog σ ε α) (C : α → σ → List Fate → Prop) (s : σ) (fates : List Fate) : Prop :=
  match (prog s fates).outcome with
  | .returned a => C a (prog s fates).state (prog s fates).fates
  | _ => True

/-- `C` holds before each turn of the loop. -/
def Before (C : α → σ → List Fate → Prop) (body : α → Prog σ ε Unit) :
    List α → σ → List Fate → Prop
  | [], _, _ => True
  | x :: xs, s, fates => C x s fates ∧ After (body x) (fun _ ↦ Before C body xs) s fates

section Decidable

variable {C : α → σ → List Fate → Prop} [∀ a s fates, Decidable (C a s fates)]

instance decidableAfter (prog : Prog σ ε α) (s : σ) (fates : List Fate) :
    Decidable (After prog C s fates) :=
  match h : (prog s fates).outcome with
  | .returned a =>
    decidable_of_iff (C a (prog s fates).state (prog s fates).fates) (by rw [After, h])
  | .failed e => .isTrue (by rw [After, h]; trivial)
  | .crashed => .isTrue (by rw [After, h]; trivial)

instance decidableBefore (body : α → Prog σ ε Unit) :
    ∀ xs s fates, Decidable (Before C body xs s fates)
  | [], _, _ => .isTrue trivial
  | x :: xs, s, fates =>
    have := @decidableAfter _ _ _ (fun _ ↦ Before C body xs) (fun _ ↦ decidableBefore body xs)
      (body x) s fates
    inferInstanceAs (Decidable (C x s fates ∧ After (body x) (fun _ ↦ Before C body xs) s fates))

end Decidable

variable {Q Q' : α → σ → Prop} {R R' : σ → Prop} {s : σ} {fates : List Fate} {prog : Prog σ ε α}
  {body : α → Prog σ ε Unit} {next : α → Prog σ ε β} {r : Result σ ε α} {xs : List α} {refusal : ε}

theorem Ends.mono (h : Ends r Q R) (hQ : ∀ a s, Q a s → Q' a s)
    (hR : ∀ s, R s → R' s) : Ends r Q' R' := by
  rw [Ends] at h ⊢
  cases hr : r.outcome with
  | returned a =>
    rw [hr] at h
    exact hQ _ _ h
  | failed e | crashed =>
    rw [hr] at h
    exact hR _ h

theorem Ends.state (h : Ends r (fun _ ↦ R) R) : R r.state := by
  rw [Ends] at h
  cases hr : r.outcome with
  | returned a | failed e | crashed => simpa only [hr] using h

theorem ends_pure {a : α} (h : Q a s) : Ends ((Prog.pure a : Prog σ ε α) s fates) Q R := h

theorem ends_fail {e : ε} (h : R s) : Ends ((Prog.fail e : Prog σ ε α) s fates) Q R := h

theorem ends_bind {Q : β → σ → Prop}
    (h : Ends (prog s fates) (fun a s' ↦ ∀ fates',
      prog s fates = ⟨.returned a, s', fates'⟩ → Ends (next a s' fates') Q R) R) :
    Ends ((prog >>= next) s fates) Q R := by
  change Ends (Prog.bind prog next s fates) Q R
  generalize hr : prog s fates = r at h
  obtain ⟨outcome, s', fates'⟩ := r
  simp only [Prog.bind, hr]
  cases outcome with
  | returned a => exact h fates' rfl
  | failed e => exact h
  | crashed => exact h

theorem Ends.bind {P : β → σ → Prop}
    (h : Ends (prog s fates) Q R) (hnext : ∀ a s' fates', Q a s' → Ends (next a s' fates') P R) :
    Ends ((prog >>= next) s fates) P R :=
  ends_bind (h.mono (fun a s' ha fates' _ ↦ hnext a s' fates' ha) fun _ hR ↦ hR)

theorem ends_lift {x : Except ε α} (hok : ∀ a, x = .ok a → Q a s) (herr : R s) :
    Ends ((Prog.lift x : Prog σ ε α) s fates) Q R := by
  cases x with
  | ok a => exact hok a rfl
  | error e => exact herr

theorem ends_attempt {Q : Except ε α → σ → Prop}
    (h : Ends (prog s fates) (fun a s' ↦ Q (.ok a) s' ∧ R s')
      (fun s' ↦ (∀ e, Q (.error e) s') ∧ R s')) :
    Ends (attempt prog s fates) Q R := by
  generalize hr : prog s fates = r at h
  obtain ⟨outcome, s', fates'⟩ := r
  simp only [attempt, hr]
  cases outcome with
  | returned a => exact h.1
  | failed e => exact h.1 e
  | crashed => exact h.2

theorem Ends.attempt (h : Ends (prog s fates) (fun _ ↦ R) R) :
    Ends (attempt prog s fates) (fun _ ↦ R) R :=
  ends_attempt (h.mono (fun _ _ hR ↦ ⟨hR, hR⟩) fun _ hR ↦ ⟨fun _ ↦ hR, hR⟩)

theorem ends_call {f : σ → Except ε (α × σ)} (hok : ∀ a s', f s = .ok (a, s') → Q a s' ∧ R s')
    (hsame : R s) : Ends (call refusal f s fates) Q R := by
  have heffect : R (effect f s) := by
    rw [effect]
    cases hf : f s with
    | error e => exact hsame
    | ok r => exact (hok r.1 r.2 hf).2
  rw [call]
  cases fates.headD .done with
  | refused | crash => exact hsame
  | lost => exact heffect
  | done =>
    cases hf : f s with
    | error e => exact hsame
    | ok r => exact (hok r.1 r.2 hf).1

theorem ends_update {f : σ → σ} {Q : Unit → σ → Prop} (hdone : Q () (f s))
    (hlost : R (f s)) (hsame : R s) : Ends (call refusal (fun s ↦ .ok ((), f s)) s fates) Q R := by
  refine ends_call ?_ hsame
  intro _ s' hs'
  obtain ⟨-, rfl⟩ := Prod.mk.inj (Except.ok.inj hs')
  exact ⟨hdone, hlost⟩

theorem ends_forEach {C : α → σ → List Fate → Prop} (I : List α → σ → Prop)
    (hbody : ∀ x xs s fates, I (x :: xs) s → C x s fates → Ends (body x s fates) (fun _ ↦ I xs) R)
    (hbefore : Before C body xs s fates) (h : I xs s) :
    Ends (forEach body xs s fates) (fun _ ↦ I []) R := by
  induction xs generalizing s fates with
  | nil => exact h
  | cons x xs ih =>
    obtain ⟨hx, hrest⟩ := hbefore
    apply ends_bind
    apply (hbody x xs s fates h hx).mono _ fun _ hR ↦ hR
    intro _ s' hI fates' hrun
    rw [After, hrun] at hrest
    exact ih hrest hI

theorem before_true (body : α → Prog σ ε Unit) (xs : List α) (s : σ) (fates : List Fate) :
    Before (fun _ _ _ ↦ True) body xs s fates := by
  induction xs generalizing s fates with
  | nil => trivial
  | cons x xs ih =>
    refine ⟨trivial, ?_⟩
    rw [After]
    split
    · exact ih _ _
    · trivial

theorem ends_loop {I : List α → σ → Prop}
    (hbody : ∀ x xs s fates, I (x :: xs) s → Ends (body x s fates) (fun _ ↦ I xs) R) (h : I xs s) :
    Ends (forEach body xs s fates) (fun _ ↦ I []) R :=
  ends_forEach I (fun x xs s fates hs _ ↦ hbody x xs s fates hs) (before_true body xs s fates) h

theorem ends_forEach_keeps (hbody : ∀ x s fates, R s → Ends (body x s fates) (fun _ ↦ R) R)
    (xs : List α) (h : R s) :
    Ends (forEach body xs s fates) (fun _ ↦ R) R :=
  ends_loop (fun x _ s fates hs ↦ hbody x s fates hs) h

end Temps.Lib.Faults
