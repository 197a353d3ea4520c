import Mathlib.Data.List.Basic
import Temps.Lib.Utf8

namespace Temps.Lib.Base64

open Octets List

/-- The URL-safe alphabet. -/
def alphabet : List Char :=
  "ABCDEFGHIJKLMNOPQRSTUVWXYZabcdefghijklmnopqrstuvwxyz0123456789-_".toList

def symbol (n : ℕ) : Char := alphabet.getD n 'A'

def value (c : Char) : Option ℕ := if c ∈ alphabet then some (alphabet.idxOf c) else none

def symbols (a b c : UInt8) : List Char :=
  [symbol (a.toNat / 4), symbol (a.toNat % 4 * 16 + b.toNat / 16),
    symbol (b.toNat % 16 * 4 + c.toNat / 64), symbol (c.toNat % 64)]

/-- Without padding: a last group of one or two bytes has two or three symbols. -/
def encode : Bytes → List Char
  | a :: b :: c :: rest => symbols a b c ++ encode rest
  | [a, b] => (symbols a b 0).take 3
  | [a] => (symbols a 0 0).take 2
  | [] => []

def group (w x y z : Char) : Option Bytes := do
  let (w, x, y, z) := (← value w, ← value x, ← value y, ← value z)
  return [UInt8.ofNat (w * 4 + x / 16), UInt8.ofNat (x % 16 * 16 + y / 4),
    UInt8.ofNat (y % 4 * 64 + z)]

/-- The bits of the last symbol that belong to no byte have to be zero. -/
def decode : List Char → Option Bytes
  | w :: x :: y :: z :: rest => do return (← group w x y z) ++ (← decode rest)
  | [w, x, y] => do
    let bytes ← group w x y 'A'
    if bytes.drop 2 = [0] then some (bytes.take 2) else none
  | [w, x] => do
    let bytes ← group w x 'A' 'A'
    if bytes.drop 1 = [0, 0] then some (bytes.take 1) else none
  | [_] => none
  | [] => some []

theorem value_symbol {n : ℕ} (h : n < 64) : value (symbol n) = some n := by
  have hall : ∀ n : Fin 64, value (symbol n) = some n.val := by decide +kernel
  exact hall ⟨n, h⟩

theorem symbol_ascii (n : ℕ) : (symbol n).toNat < 0x80 := by
  have hall : alphabet.all (·.toNat < 0x80) := by decide +kernel
  rw [symbol, getD_eq_getElem?_getD]
  cases hn : alphabet[n]? with
  | none => decide
  | some c => simpa using all_eq_true.mp hall c (mem_of_getElem? hn)

theorem group_symbols (a b c : UInt8) :
    group (symbol (a.toNat / 4)) (symbol (a.toNat % 4 * 16 + b.toNat / 16))
      (symbol (b.toNat % 16 * 4 + c.toNat / 64)) (symbol (c.toNat % 64)) = some [a, b, c] := by
  have ha := a.toNat_lt
  have hb := b.toNat_lt
  have hc := c.toNat_lt
  have hbyte {n : ℕ} {b : UInt8} (h : n = b.toNat) : UInt8.ofNat n = b := by
    rw [h, UInt8.ofNat_toNat]
  rw [group, value_symbol (by omega), value_symbol (by omega), value_symbol (by omega),
    value_symbol (by omega)]
  simp only [Option.bind_eq_bind, Option.bind_some, Option.pure_def]
  rw [hbyte (b := a) (by omega), hbyte (b := b) (by omega), hbyte (b := c) (by omega)]

theorem decode_encode (bytes : Bytes) : decode (encode bytes) = some bytes := by
  fun_induction encode bytes with
  | case1 a b c rest ih => simp [symbols, decode, group_symbols, ih]
  | case2 a b => exact congrArg (Option.bind · _) (group_symbols a b 0)
  | case3 a => exact congrArg (Option.bind · _) (group_symbols a 0 0)
  | case4 => rfl

theorem length_encode (bytes : Bytes) : (encode bytes).length = (4 * bytes.length + 2) / 3 := by
  fun_induction encode bytes with
  | case1 a b c rest ih =>
    simp only [symbols, cons_append, nil_append, length_cons, ih]
    omega
  | case2 | case3 | case4 => simp [symbols]

theorem ascii_encode (bytes : Bytes) : ∀ c ∈ encode bytes, c.toNat < 0x80 := by
  fun_induction encode bytes with
  | case1 a b c rest ih => simpa [symbols, symbol_ascii] using ih
  | case2 | case3 | case4 => simp [symbols, symbol_ascii]

end Temps.Lib.Base64
