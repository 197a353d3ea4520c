import Mathlib.Data.List.MinMax
import Mathlib.Tactic.Linarith
import Temps.Lib.Machine

namespace Temps.WireGuard

open List Function

variable {K : Type} [DecidableEq K]

def hellosPerSecond : ℕ := 5

def helloSourcesTracked : ℕ := 64

def full : ℕ := hellosPerSecond * 1000

/-- A token bucket per source: the tokens left, in thousandths, and when they were last topped up,
in nanoseconds. -/
structure HelloLimiter (K : Type) where
  sources : List K
  bucket : K → ℕ × ℕ

/-- A call of `allow`, with the order in which it finds the entries of the map. -/
structure Hello (K : Type) where
  source : K
  now : ℕ
  order : List K → List K
  perm : ∀ l, (order l).Perm l

def u64Max : ℕ := 2 ^ 64 - 1

def topUp (tokens elapsed : ℕ) : ℕ :=
  min (min (tokens + min (elapsed * hellosPerSecond) u64Max) u64Max) full

namespace HelloLimiter

def empty : HelloLimiter K := ⟨[], fun _ ↦ (0, 0)⟩

def stalest (l : HelloLimiter K) (h : Hello K) : Option K :=
  if h.source ∉ l.sources ∧ helloSourcesTracked ≤ l.sources.length then
    (h.order l.sources).argmin fun k ↦ (l.bucket k).2
  else none

def evict (l : HelloLimiter K) (h : Hello K) : List K :=
  match l.stalest h with
  | some stalest => l.sources.erase stalest
  | none => l.sources

def entry (l : HelloLimiter K) (h : Hello K) : ℕ × ℕ :=
  if h.source ∈ l.evict h then l.bucket h.source else (full, h.now)

def tokens (l : HelloLimiter K) (h : Hello K) : ℕ :=
  topUp (l.entry h).1 (min ((h.now - (l.entry h).2) / 10 ^ 6) u64Max)

def allow (l : HelloLimiter K) (h : Hello K) : Bool × HelloLimiter K :=
  let sources := if h.source ∈ l.evict h then l.evict h else h.source :: l.evict h
  if l.tokens h < 1000 then (false, ⟨sources, update l.bucket h.source (l.tokens h, h.now)⟩)
  else (true, ⟨sources, update l.bucket h.source (l.tokens h - 1000, h.now)⟩)

def after (l : HelloLimiter K) (calls : List (Hello K)) : HelloLimiter K :=
  calls.foldl (fun l h ↦ (l.allow h).2) l

def granted (source : K) (l : HelloLimiter K) : List (Hello K) → ℕ
  | [] => 0
  | h :: calls =>
    (if h.source = source ∧ (l.allow h).1 then 1 else 0) + granted source (l.allow h).2 calls

def Keeps (source : K) (l : HelloLimiter K) : List (Hello K) → Prop
  | [] => True
  | h :: calls => l.stalest h ≠ some source ∧ Keeps source (l.allow h).2 calls

variable {l : HelloLimiter K} {h : Hello K} {source : K} {calls : List (Hello K)} {t₀ t₁ : ℕ}

theorem topUp_eq (tokens elapsed : ℕ) :
    topUp tokens elapsed = min (tokens + elapsed * hellosPerSecond) full := by
  have hfull : full ≤ u64Max := by decide
  rw [topUp]
  omega

theorem tokens_le (l : HelloLimiter K) (h : Hello K) : l.tokens h ≤ full := Nat.min_le_right _ _

theorem allow_sources : (l.allow h).2.sources =
    if h.source ∈ l.evict h then l.evict h else h.source :: l.evict h := by
  rw [allow]
  split <;> rfl

theorem allow_bucket (hne : source ≠ h.source) : (l.allow h).2.bucket source = l.bucket source := by
  rw [allow]
  split <;> exact update_of_ne hne _ _

theorem allow_self (l : HelloLimiter K) (h : Hello K) :
    ((l.allow h).2.bucket h.source).2 = h.now ∧
      ((l.allow h).2.bucket h.source).1 + (if (l.allow h).1 then 1 else 0) * 1000 = l.tokens h := by
  rw [allow]
  split <;> simp only [update_self, if_true, Bool.false_eq_true]
  · exact ⟨trivial, Nat.add_zero _⟩
  · exact ⟨trivial, by omega⟩

theorem length_allow (l : HelloLimiter K) (h : Hello K)
    (hle : l.sources.length ≤ helloSourcesTracked) :
    (l.allow h).2.sources.length ≤ helloSourcesTracked := by
  have hpos : 0 < helloSourcesTracked := by decide
  have hevict : l.stalest h = none ∧ l.evict h = l.sources ∨
      (l.evict h).length + 1 = l.sources.length := by
    rw [evict]
    split
    case h_1 k hk =>
      rw [stalest] at hk
      split at hk
      case isFalse => cases hk
      case isTrue =>
        have hmem : k ∈ l.sources := (h.perm _).mem_iff.mp (argmin_mem hk)
        exact .inr (length_erase_add_one hmem)
    case h_2 hnone => exact .inl ⟨hnone, rfl⟩
  rw [allow_sources]
  rcases hevict with ⟨hnone, heq⟩ | hlt
  · rw [heq]
    split
    case isTrue => exact hle
    case isFalse hnew =>
      by_contra hfull
      rw [length_cons] at hfull
      rw [stalest, if_pos ⟨hnew, by omega⟩, argmin_eq_none] at hnone
      have hlen := (h.perm l.sources).length_eq
      rw [hnone, length_nil] at hlen
      omega
  · split
    · omega
    · rwa [length_cons, hlt]

theorem mem_evict (hkeep : l.stalest h ≠ some source) (hmem : source ∈ l.sources) :
    source ∈ l.evict h := by
  fun_cases evict l h
  case case1 k hk =>
    refine (mem_erase_of_ne ?_).mpr hmem
    rintro rfl
    exact hkeep hk
  case case2 => exact hmem

theorem mem_allow (hmem : source = h.source ∨ source ∈ l.evict h) :
    source ∈ (l.allow h).2.sources := by
  rw [allow_sources]
  split
  case isTrue hin => exact hmem.elim (· ▸ hin) id
  case isFalse => exact mem_cons.mpr hmem

/-- From a top-up on, the calls granted are paid by the tokens and by the time that passes. -/
theorem granted_le (hmem : source ∈ l.sources) (hkeep : Keeps source l calls)
    (hsorted : calls.Pairwise fun a b ↦ a.now ≤ b.now)
    (hafter : ∀ h ∈ calls, (l.bucket source).2 ≤ h.now ∧ h.now ≤ t₁) :
    granted source l calls * 10 ^ 9 ≤
      (l.bucket source).1 * 10 ^ 6 + hellosPerSecond * (t₁ - (l.bucket source).2) := by
  induction calls generalizing l with
  | nil => exact (Nat.zero_mul _).trans_le (Nat.zero_le _)
  | cons h calls ih =>
    obtain ⟨hstays, hkeep⟩ := hkeep
    obtain ⟨hbefore, hsorted⟩ := pairwise_cons.mp hsorted
    obtain ⟨hnow, hafter⟩ := forall_mem_cons.mp hafter
    have hin := mem_evict hstays hmem
    rw [granted]
    by_cases heq : h.source = source
    · subst heq
      obtain ⟨hat, htokens⟩ := l.allow_self h
      have hih := ih (mem_allow (.inl rfl)) hkeep hsorted fun k hk ↦
        ⟨hat.trans_le (hbefore k hk), (hafter k hk).2⟩
      have htop : l.tokens h ≤
          (l.bucket h.source).1 + (h.now - (l.bucket h.source).2) / 10 ^ 6 * hellosPerSecond := by
        rw [tokens, entry, if_pos hin, topUp_eq]
        exact (Nat.min_le_left _ _).trans
          (Nat.add_le_add_left (Nat.mul_le_mul_right _ (Nat.min_le_left _ _)) _)
      have hmillis := Nat.div_mul_le_self (h.now - (l.bucket h.source).2) (10 ^ 6)
      have hsplit : t₁ - (l.bucket h.source).2 = t₁ - h.now + (h.now - (l.bucket h.source).2) := by
        omega
      rw [hat] at hih
      simp only [true_and, hellosPerSecond] at htop hih ⊢
      linarith
    · have hsame := allow_bucket (l := l) (Ne.symm heq)
      have hih := ih (mem_allow (.inr hin)) hkeep hsorted (by rwa [hsame])
      rw [hsame] at hih
      simpa [heq] using hih

theorem granted_window (hkeep : Keeps source l calls)
    (hsorted : calls.Pairwise fun a b ↦ a.now ≤ b.now)
    (hwindow : ∀ h ∈ calls, t₀ ≤ h.now ∧ h.now ≤ t₁) :
    granted source l calls * 10 ^ 9 ≤ hellosPerSecond * 10 ^ 9 + hellosPerSecond * (t₁ - t₀) := by
  induction calls generalizing l with
  | nil => exact (Nat.zero_mul _).trans_le (Nat.zero_le _)
  | cons h calls ih =>
    obtain ⟨-, hkeep⟩ := hkeep
    obtain ⟨hbefore, hsorted⟩ := pairwise_cons.mp hsorted
    obtain ⟨hnow, hwindow⟩ := forall_mem_cons.mp hwindow
    rw [granted]
    by_cases heq : h.source = source
    · subst heq
      -- the first call of the source finds at most a full bucket
      obtain ⟨hat, htokens⟩ := l.allow_self h
      have hrest := granted_le (mem_allow (.inl rfl)) hkeep hsorted fun k hk ↦
        ⟨hat.trans_le (hbefore k hk), (hwindow k hk).2⟩
      have hfull : l.tokens h ≤ hellosPerSecond * 1000 := l.tokens_le h
      have hlate : hellosPerSecond * (t₁ - h.now) ≤ hellosPerSecond * (t₁ - t₀) :=
        Nat.mul_le_mul_left _ (Nat.sub_le_sub_left hnow.1 _)
      rw [hat] at hrest
      simp only [true_and]
      linarith
    · simpa [heq] using ih hkeep hsorted hwindow

/-- The map stays within its size, and a source is granted at most a burst and its rate over any
window in which its bucket is not evicted. -/
theorem hello_rate (before window : List (Hello K))
    (hsorted : (before ++ window).Pairwise fun a b ↦ a.now ≤ b.now) :
    (after empty (before ++ window)).sources.length ≤ helloSourcesTracked ∧
    (∀ tokens elapsed, topUp tokens elapsed = min (tokens + elapsed * hellosPerSecond) full) ∧
    ∀ (source : K) (t₀ t₁ : ℕ), (∀ h ∈ window, t₀ ≤ h.now ∧ h.now ≤ t₁) →
      Keeps source (after empty before) window →
        granted source (after empty before) window * 10 ^ 9 ≤
          hellosPerSecond * 10 ^ 9 + hellosPerSecond * (t₁ - t₀) := by
  refine ⟨?_, topUp_eq, fun source t₀ t₁ hwindow hkeep ↦ ?_⟩
  · exact Lib.Machine.foldl_invariant length_allow (Nat.zero_le _) _
  · exact granted_window hkeep (pairwise_append.mp hsorted).2.1 hwindow

def hello (source now : ℕ) : Hello ℕ := ⟨source, now, id, fun _ ↦ .refl _⟩

theorem sixth_hello_waits :
    granted 1 empty (replicate 6 (hello 1 0)) = 5 ∧
      granted 1 empty (replicate 6 (hello 1 0)) * 10 ^ 9 ≤
        hellosPerSecond * 10 ^ 9 + hellosPerSecond * (0 - 0) :=
  ⟨by decide, (hello_rate [] (replicate 6 (hello 1 0)) (by decide)).2.2 1 0 0 (by decide)
    ⟨by decide, by decide, by decide, by decide, by decide, by decide, trivial⟩⟩

end HelloLimiter

end Temps.WireGuard
