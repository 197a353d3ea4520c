import Mathlib.Logic.Equiv.Nat
import Temps.Lib.Octets

namespace Temps.Lib.Wire

open Octets List

/-- A self-delimiting code: what was put is read back in front of any other symbols. -/
structure Code (α : Type) (σ : Type := UInt8) where
  put : α → List σ
  get : List σ → Option (α × List σ)
  get_put : ∀ a rest, get (put a ++ rest) = some (a, rest)

namespace Code

variable {α β σ : Type}

def decode (w : Code α) (bytes : Bytes) : Except String α :=
  match w.get bytes with
  | some (a, _) => .ok a
  | none => .error "unexpected end of input"

theorem decode_put (w : Code α) (a : α) : w.decode (w.put a) = .ok a := by
  have h := w.get_put a []
  rw [append_nil] at h
  rw [decode, h]

def map (w : Code α σ) (f : β → α) (g : α → β) (h : ∀ b, g (f b) = b) : Code β σ where
  put b := w.put (f b)
  get bytes := (w.get bytes).map fun r ↦ (g r.1, r.2)
  get_put b rest := by simp [w.get_put, h]

def pair (w : Code α σ) (v : Code β σ) : Code (α × β) σ where
  put p := w.put p.1 ++ v.put p.2
  get bytes := do
    let (a, bytes) ← w.get bytes
    let (b, bytes) ← v.get bytes
    return ((a, b), bytes)
  get_put p rest := by simp [w.get_put, v.get_put]

def framed [DecidableEq σ] (front : List σ) (w : Code α σ) (back : List σ) : Code α σ where
  put a := front ++ w.put a ++ back
  get symbols := do
    guard (front <+: symbols)
    let (a, rest) ← w.get (symbols.drop front.length)
    guard (back <+: rest)
    return (a, rest.drop back.length)
  get_put a rest := by
    simp [append_assoc, w.get_put]

def getUnary : Bytes → Option (ℕ × Bytes)
  | [] => none
  | b :: rest => if b = 0 then some (0, rest) else (getUnary rest).map fun r ↦ (r.1 + 1, r.2)

theorem getUnary_replicate (n : ℕ) (rest : Bytes) :
    getUnary (List.replicate n 1 ++ (0 :: rest)) = some (n, rest) := by
  induction n with
  | zero => rfl
  | succ n ih => simp [replicate_succ, getUnary, ih]

def nat : Code ℕ where
  put n := List.replicate n 1 ++ [0]
  get := getUnary
  get_put n rest := by
    rw [List.append_assoc, List.singleton_append]
    exact getUnary_replicate n rest

def getMany (w : Code α) : ℕ → Bytes → Option (List α × Bytes)
  | 0, bytes => some ([], bytes)
  | n + 1, bytes => do
    let (a, bytes) ← w.get bytes
    let (as, bytes) ← getMany w n bytes
    return (a :: as, bytes)

theorem getMany_flatMap (w : Code α) (as : List α) (rest : Bytes) :
    getMany w as.length (as.flatMap w.put ++ rest) = some (as, rest) := by
  induction as with
  | nil => rfl
  | cons a as ih => simp [getMany, w.get_put, ih]

def list (w : Code α) : Code (List α) where
  put as := nat.put as.length ++ as.flatMap w.put
  get bytes := do
    let (n, bytes) ← nat.get bytes
    getMany w n bytes
  get_put as rest := by simp [nat.get_put, getMany_flatMap]

def option (w : Code α) : Code (Option α) :=
  w.list.map Option.toList List.head? fun a ↦ by cases a <;> rfl

def int : Code ℤ := nat.map Equiv.intEquivNat Equiv.intEquivNat.symm Equiv.intEquivNat.left_inv

def char : Code Char := nat.map Char.toNat Char.ofNat Char.ofNat_toNat

def text : Code (List Char) := char.list

def string : Code String := text.map String.toList String.ofList fun _ ↦ String.ofList_toList

def vector (n : ℕ) (w : Code α) (default : α) : Code (Fin n → α) :=
  w.list.map List.ofFn (fun as i ↦ as.getD i default) fun f ↦ by
    funext i
    simp

end Code

end Temps.Lib.Wire
