import Temps.Lib.Octets

namespace Temps.Lib.Utf8

open Octets List

def encodeChar (c : Char) : Bytes :=
  let n := c.toNat
  if n < 0x80 then [UInt8.ofNat n]
  else if n < 0x800 then [UInt8.ofNat (0xC0 + n / 64), UInt8.ofNat (0x80 + n % 64)]
  else if n < 0x10000 then
    [UInt8.ofNat (0xE0 + n / 4096), UInt8.ofNat (0x80 + n / 64 % 64), UInt8.ofNat (0x80 + n % 64)]
  else
    [UInt8.ofNat (0xF0 + n / 262144), UInt8.ofNat (0x80 + n / 4096 % 64),
      UInt8.ofNat (0x80 + n / 64 % 64), UInt8.ofNat (0x80 + n % 64)]

def encode (text : List Char) : Bytes := text.flatMap encodeChar

def safeGet (bytes : Bytes) (i : ℕ) : ℕ := (bytes.getD i 0).toNat

def isContinuation (b : ℕ) : Bool := 0x80 ≤ b && b ≤ 0xBF

def second3 (b c : ℕ) : Bool :=
  (b = 0xE0 && 0xA0 ≤ c && c ≤ 0xBF) || (0xE1 ≤ b && b ≤ 0xEC && isContinuation c) ||
  (b = 0xED && 0x80 ≤ c && c ≤ 0x9F) || (0xEE ≤ b && b ≤ 0xEF && isContinuation c)

def second4 (b c : ℕ) : Bool :=
  (b = 0xF0 && 0x90 ≤ c && c ≤ 0xBF) || (0xF1 ≤ b && b ≤ 0xF3 && isContinuation c) ||
  (b = 0xF4 && 0x80 ≤ c && c ≤ 0x8F)

/-- Scan one sequence that starts with `b`: its character, if it is valid, and how many of the
bytes after `b` belong to it or to the longest valid beginning of it. -/
def scan (b : ℕ) (rest : Bytes) : Option Char × ℕ :=
  let c := safeGet rest 0
  let d := safeGet rest 1
  let e := safeGet rest 2
  if b < 0x80 then (some (Char.ofNat b), 0)
  else if 0xC2 ≤ b ∧ b ≤ 0xDF then
    if isContinuation c then (some (Char.ofNat (b % 32 * 64 + c % 64)), 1) else (none, 0)
  else if 0xE0 ≤ b ∧ b ≤ 0xEF then
    if !second3 b c then (none, 0)
    else if !isContinuation d then (none, 1)
    else (some (Char.ofNat (b % 16 * 4096 + c % 64 * 64 + d % 64)), 2)
  else if 0xF0 ≤ b ∧ b ≤ 0xF4 then
    if !second4 b c then (none, 0)
    else if !isContinuation d then (none, 1)
    else if !isContinuation e then (none, 2)
    else (some (Char.ofNat (b % 8 * 262144 + c % 64 * 4096 + d % 64 * 64 + e % 64)), 3)
  else (none, 0)

def decodeLossyFrom : ℕ → Bytes → List Char
  | 0, _ => []
  | _, [] => []
  | fuel + 1, b :: rest =>
    let (c, used) := scan b.toNat rest
    c.getD '�' :: decodeLossyFrom fuel (rest.drop used)

def decodeLossy (bytes : Bytes) : List Char := decodeLossyFrom bytes.length bytes

variable {n : ℕ}

theorem toNat_ofNat_lt (h : n < 256) : (UInt8.ofNat n).toNat = n := by
  simp [Nat.mod_eq_of_lt h]

theorem toNat_low (n : ℕ) : (UInt8.ofNat (0x80 + n % 64)).toNat = 0x80 + n % 64 :=
  toNat_ofNat_lt (by omega)

theorem char_bounds (c : Char) : c.toNat < 0xD800 ∨ 0xDFFF < c.toNat ∧ c.toNat < 0x110000 :=
  c.valid

variable {c : Char}

theorem ofNat_eq (h : n = c.toNat) : Char.ofNat n = c := by
  rw [h, Char.ofNat_toNat]

theorem encodeChar_bounds (c : Char) :
    ∀ b ∈ encodeChar c, b.toNat < 0xF8 ∧ (¬ c.toNat < 0x80 → 0x80 ≤ b.toNat) := by
  have hc := char_bounds c
  rw [encodeChar]
  split_ifs
  all_goals
    simp only [forall_mem_cons, not_mem_nil, false_imp_iff, implies_true, and_true,
      UInt8.toNat_ofNat']
    omega

theorem encodeChar_ascii (h : c.toNat < 0x80) : encodeChar c = [UInt8.ofNat c.toNat] := by
  simp only [encodeChar, if_pos h]

theorem encodeChar_nonascii (h : ¬ c.toNat < 0x80) :
    ∀ b ∈ encodeChar c, 0x80 ≤ b.toNat := fun b hb ↦ (encodeChar_bounds c b hb).2 h

theorem isContinuation_low (n : ℕ) : isContinuation (0x80 + n % 64) := by
  simp only [isContinuation, Bool.and_eq_true, decide_eq_true_eq]
  omega

theorem second3_of (hlow : 0x800 ≤ n) (hhigh : n < 0x10000)
    (hsur : n < 0xD800 ∨ 0xDFFF < n) : second3 (0xE0 + n / 4096) (0x80 + n / 64 % 64) := by
  simp only [second3, isContinuation, Bool.and_eq_true, Bool.or_eq_true, decide_eq_true_eq]
  omega

theorem second4_of (hlow : 0x10000 ≤ n) (hhigh : n < 0x110000) :
    second4 (0xF0 + n / 262144) (0x80 + n / 4096 % 64) := by
  simp only [second4, isContinuation, Bool.and_eq_true, Bool.or_eq_true, decide_eq_true_eq]
  omega

theorem scan_encodeChar (c : Char) (rest : Bytes) :
    ∃ b tail, encodeChar c = b :: tail ∧ scan b.toNat (tail ++ rest) = (some c, tail.length) := by
  have hc := char_bounds c
  by_cases h1 : c.toNat < 0x80
  · refine ⟨_, _, encodeChar_ascii h1, ?_⟩
    rw [toNat_ofNat_lt (by omega), scan, if_pos h1, ofNat_eq rfl]
    rfl
  by_cases h2 : c.toNat < 0x800
  · refine ⟨_, _, (if_neg h1).trans (if_pos h2), ?_⟩
    have hb := toNat_ofNat_lt (show 0xC0 + c.toNat / 64 < 256 by omega)
    simp only [scan, safeGet, cons_append, getD_cons_zero, hb, toNat_low, isContinuation_low]
    rw [if_neg (by omega), if_pos (by omega), ofNat_eq (c := c) (by omega)]
    rfl
  by_cases h3 : c.toNat < 0x10000
  · refine ⟨_, _, (if_neg h1).trans ((if_neg h2).trans (if_pos h3)), ?_⟩
    have hb := toNat_ofNat_lt (show 0xE0 + c.toNat / 4096 < 256 by omega)
    have hs := second3_of (by omega) h3 (by omega)
    simp only [scan, safeGet, cons_append, getD_cons_zero, getD_cons_succ, hb, hs, toNat_low,
      isContinuation_low]
    rw [if_neg (by omega), if_neg (by omega), if_pos (by omega), ofNat_eq (c := c) (by omega)]
    rfl
  · refine ⟨_, _, (if_neg h1).trans ((if_neg h2).trans (if_neg h3)), ?_⟩
    have hb := toNat_ofNat_lt (show 0xF0 + c.toNat / 262144 < 256 by omega)
    have hs := second4_of (n := c.toNat) (by omega) (by omega)
    simp only [scan, safeGet, cons_append, getD_cons_zero, getD_cons_succ, hb, hs, toNat_low,
      isContinuation_low]
    rw [if_neg (by omega), if_neg (by omega), if_neg (by omega), if_pos (by omega),
      ofNat_eq (c := c) (by omega)]
    rfl

theorem decodeLossyFrom_encode (text : List Char) (fuel : ℕ) (h : (encode text).length ≤ fuel) :
    decodeLossyFrom fuel (encode text) = text := by
  induction text generalizing fuel with
  | nil => cases fuel <;> rfl
  | cons c text ih =>
    obtain ⟨b, tail, hb, hscan⟩ := scan_encodeChar c (encode text)
    have henc : encode (c :: text) = b :: (tail ++ encode text) := by
      rw [encode, flatMap_cons, hb]
      rfl
    rw [henc, length_cons, length_append] at h
    cases fuel with
    | zero => omega
    | succ fuel =>
      rw [henc, decodeLossyFrom, hscan]
      simp only [Option.getD_some, drop_left]
      rw [ih fuel (by omega)]

theorem decodeLossy_encode (text : List Char) : decodeLossy (encode text) = text :=
  decodeLossyFrom_encode text _ (le_refl _)

theorem encode_injective {s t : List Char} (h : encode s = encode t) : s = t := by
  rw [← decodeLossy_encode s, ← decodeLossy_encode t, h]

theorem length_encode_ascii {text : List Char} (h : ∀ c ∈ text, c.toNat < 0x80) :
    (encode text).length = text.length := by
  induction text with
  | nil => rfl
  | cons c text ih =>
    rw [forall_mem_cons] at h
    rw [encode, flatMap_cons, encodeChar_ascii h.1, singleton_append, length_cons, length_cons]
    exact congrArg (· + 1) (ih h.2)

theorem encode_lt (text : List Char) : ∀ b ∈ encode text, b.toNat < 0xF8 := by
  intro b hb
  obtain ⟨c, -, hbc⟩ := mem_flatMap.mp hb
  exact (encodeChar_bounds c b hbc).1

end Temps.Lib.Utf8
