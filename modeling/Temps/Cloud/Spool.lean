import Mathlib.Algebra.BigOperators.Group.List.Basic
import Mathlib.Algebra.Ring.Nat

namespace Temps.Cloud

open List

def defaultCapacity : ℕ := 10000

def defaultCapacityBytes : ℕ := 8 * 1024 * 1024

def batchSize : ℕ := 500

/-- The bounded buffer of spans that the backend has not accepted yet, the oldest first. -/
structure Spool (S : Type*) where
  buffer : List S

namespace Spool

variable {S : Type*} (capacity : ℕ) (bytes : S → ℕ)

def empty : Spool S := ⟨[]⟩

def full (need : ℕ) (buffer : List S) : Prop :=
  buffer.length = capacity ∨ defaultCapacityBytes < (buffer.map bytes).sum + need

instance (need : ℕ) (buffer : List S) : Decidable (full capacity bytes need buffer) :=
  inferInstanceAs (Decidable (_ ∨ _))

def evictFront (need : ℕ) : List S → List S
  | [] => []
  | span :: rest =>
    if full capacity bytes need (span :: rest) then evictFront need rest else span :: rest

def pushOne (spool : Spool S) (span : S) : Spool S :=
  if defaultCapacityBytes < bytes span then spool
  else ⟨evictFront capacity bytes (bytes span) spool.buffer ++ [span]⟩

def push (spool : Spool S) (spans : List S) : Spool S := spans.foldl (pushOne capacity bytes) spool

def take (spool : Spool S) (max : ℕ) : List S × Spool S :=
  (spool.buffer.take max, ⟨spool.buffer.drop max⟩)

def evictBack (need : ℕ) (buffer : List S) : List S :=
  (evictFront capacity bytes need buffer.reverse).reverse

def requeueOne (span : S) (spool : Spool S) : Spool S :=
  if defaultCapacityBytes < bytes span then spool
  else ⟨span :: evictBack capacity bytes (bytes span) spool.buffer⟩

def requeue (spool : Spool S) (spans : List S) : Spool S :=
  spans.foldr (requeueOne capacity bytes) spool

variable {capacity bytes} {need : ℕ} {span : S} {spool : Spool S} {spans : List S}

theorem evictFront_suffix (buffer : List S) : evictFront capacity bytes need buffer <:+ buffer := by
  induction buffer with
  | nil => exact suffix_rfl
  | cons span rest ih =>
    rw [evictFront]
    split
    case isTrue => exact ih.trans (suffix_cons _ _)
    case isFalse => exact suffix_rfl

theorem evictBack_sublist (buffer : List S) :
    (evictBack capacity bytes need buffer).Sublist buffer := by
  rw [← reverse_sublist, evictBack, reverse_reverse]
  exact (evictFront_suffix buffer.reverse).sublist

theorem pushOne_sublist :
    (spool.pushOne capacity bytes span).buffer.Sublist (spool.buffer ++ [span]) := by
  rw [pushOne]
  split
  case isTrue => exact sublist_append_left _ _
  case isFalse => exact (evictFront_suffix _).sublist.append_right _

theorem push_sublist :
    (spool.push capacity bytes spans).buffer.Sublist (spool.buffer ++ spans) := by
  induction spans generalizing spool with
  | nil => exact (append_nil _).symm ▸ List.Sublist.refl _
  | cons first rest ih =>
    rw [append_cons]
    exact ih.trans (pushOne_sublist.append_right rest)

theorem mem_push (h : span ∈ (spool.push capacity bytes spans).buffer) :
    span ∈ spool.buffer ∨ span ∈ spans :=
  mem_append.mp (push_sublist.mem h)

theorem requeueOne_sublist :
    (spool.requeueOne capacity bytes span).buffer.Sublist (span :: spool.buffer) := by
  rw [requeueOne]
  split
  case isTrue => exact sublist_cons_self _ _
  case isFalse => exact (evictBack_sublist _).cons_cons _

theorem requeue_sublist :
    (spool.requeue capacity bytes spans).buffer.Sublist (spans ++ spool.buffer) := by
  induction spans with
  | nil => exact List.Sublist.refl _
  | cons first rest ih => exact requeueOne_sublist.trans (ih.cons_cons _)

end Spool

end Temps.Cloud
