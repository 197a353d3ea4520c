import Mathlib.Data.Nat.Bitwise
import Temps.Lib.Utf8

namespace Temps.Lib.Varint

open Octets Utf8 List BitVec

def putFrom : ℕ → ℕ → Bytes
  | 0, v => [UInt8.ofNat v]
  | more + 1, v =>
    if v < 0x80 then [UInt8.ofNat v] else UInt8.ofNat (v % 128 + 128) :: putFrom more (v / 128)

def put (v : ℕ) : Bytes := putFrom 9 v

inductive Fault
  | truncated (cursor : ℕ)
  | tooLong (cursor : ℕ)
  deriving DecidableEq

def loop (buf : Bytes) : ℕ → ℕ → ℕ → ℕ → Except Fault (ℕ × ℕ)
  | 0, cursor, _, _ => .error (.tooLong cursor)
  | more + 1, cursor, v, shift =>
    match buf[cursor]? with
    | none => .error (.truncated cursor)
    | some b =>
      let v' := v ||| (b.toNat % 128) <<< shift % 2 ^ 64
      if b.toNat < 0x80 then .ok (v', cursor + 1)
      else loop buf more (cursor + 1) v' (shift + 7)

def get (buf : Bytes) (cursor : ℕ) : Except Fault (ℕ × ℕ) := loop buf 10 cursor 0 0

variable {cursor v shift w : ℕ} {buf rest : Bytes}

theorem getElem?_of_drop {b : UInt8} (h : buf.drop cursor = b :: rest) :
    buf[cursor]? = some b ∧ buf.drop (cursor + 1) = rest := by
  constructor
  · have := congrArg List.head? h
    simpa using this
  · rw [← drop_drop, h]
    rfl

theorem or_shift {a : ℕ} (hv : v < 2 ^ shift) (ha : v + a * 2 ^ shift < 2 ^ 64) :
    v ||| a <<< shift % 2 ^ 64 = v + a * 2 ^ shift := by
  rw [Nat.mod_eq_of_lt (by omega), Nat.or_comm, ← Nat.shiftLeft_add_eq_or_of_lt hv]
  omega

theorem loop_last (more : ℕ) (hw : w < 0x80) (hdrop : buf.drop cursor = UInt8.ofNat w :: rest)
    (hv : v < 2 ^ shift) (hfit : v + w * 2 ^ shift < 2 ^ 64) :
    loop buf (more + 1) cursor v shift = .ok (v + w * 2 ^ shift, cursor + 1) := by
  have hb : (UInt8.ofNat w).toNat = w := toNat_ofNat_lt (by omega)
  simp only [loop, (getElem?_of_drop hdrop).1, hb, if_pos hw, Nat.mod_eq_of_lt hw, or_shift hv hfit]

theorem loop_putFrom (buf rest : Bytes) (more : ℕ)
    (hdrop : buf.drop cursor = putFrom more w ++ rest) (hw : w < 128 ^ (more + 1))
    (hv : v < 2 ^ shift) (hfit : v + w * 2 ^ shift < 2 ^ 64) :
    loop buf (more + 1) cursor v shift =
      .ok (v + w * 2 ^ shift, cursor + (putFrom more w).length) := by
  induction more generalizing cursor v shift w with
  | zero => exact loop_last 0 (by omega) hdrop hv hfit
  | succ more ih =>
    rw [putFrom] at hdrop ⊢
    by_cases hlt : w < 0x80
    · rw [if_pos hlt] at hdrop ⊢
      exact loop_last _ hlt hdrop hv hfit
    · rw [if_neg hlt] at hdrop ⊢
      obtain ⟨hget, hnext⟩ := getElem?_of_drop hdrop
      have hb : (UInt8.ofNat (w % 128 + 128)).toNat = w % 128 + 128 := toNat_ofNat_lt (by omega)
      have hpow : 2 ^ (shift + 7) = 128 * 2 ^ shift := by
        rw [Nat.pow_add]
        omega
      have hdecomp : w * 2 ^ shift = w % 128 * 2 ^ shift + w / 128 * 2 ^ (shift + 7) := by
        rw [hpow, ← Nat.mul_assoc, ← Nat.add_mul]
        congr 1
        omega
      have hle : (w % 128 + 1) * 2 ^ shift ≤ 128 * 2 ^ shift := Nat.mul_le_mul_right _ (by omega)
      rw [Nat.add_mul] at hle
      have hor : v ||| (w % 128) <<< shift % 2 ^ 64 = v + w % 128 * 2 ^ shift :=
        or_shift hv (by omega)
      have hw' : w / 128 < 128 ^ (more + 1) := by
        omega
      have hv' : v + w % 128 * 2 ^ shift < 2 ^ (shift + 7) := by omega
      have hfit' : v + w % 128 * 2 ^ shift + w / 128 * 2 ^ (shift + 7) < 2 ^ 64 := by omega
      have hcont : ¬ w % 128 + 128 < 0x80 := by omega
      simp only [loop, hget, hb, Nat.add_mod_right, Nat.mod_mod, hor, if_neg hcont, length_cons]
      rw [← loop, ih hnext hw' hv' hfit']
      congr 2 <;> omega

theorem get_put (hdrop : buf.drop cursor = put w ++ rest) (hw : w < 2 ^ 64) :
    get buf cursor = .ok (w, cursor + (put w).length) ∧
      buf.drop (cursor + (put w).length) = rest := by
  constructor
  · have h : loop buf (9 + 1) cursor 0 0 = .ok (0 + w * 2 ^ 0, cursor + (put w).length) :=
      loop_putFrom buf rest 9 hdrop (by omega) (by omega) (by omega)
    simpa [get] using h
  · rw [← drop_drop, hdrop, drop_left]

theorem length_putFrom (more w : ℕ) :
    0 < (putFrom more w).length ∧ (putFrom more w).length ≤ more + 1 := by
  induction more generalizing w with
  | zero => simp [putFrom]
  | succ more ih =>
    rw [putFrom]
    split
    · simp
    · have := ih (w / 128)
      simp only [length_cons]
      omega

theorem length_put (w : ℕ) : 0 < (put w).length ∧ (put w).length ≤ 10 := length_putFrom 9 w

def zigzag (v : BitVec 64) : BitVec 64 := v <<< 1 ^^^ v.sshiftRight 63

def unzigzag (v : BitVec 64) : BitVec 64 := v >>> 1 ^^^ -(v &&& 1)

theorem neg_low (z : BitVec 64) {i : ℕ} (hi : i < 64) : (-(z &&& 1)).getLsbD i = z.getLsbD 0 := by
  have h : z &&& 1 = if z.getLsbD 0 then 1 else 0 := by
    apply eq_of_getLsbD_eq
    intro j hj
    rw [getLsbD_and]
    by_cases hj0 : j = 0
    · subst hj0
      cases hz : z.getLsbD 0 <;> simp
    · split <;> simp [hj0]
  rw [h]
  cases z.getLsbD 0
  · simp
  · have hones : -(1 : BitVec 64) = BitVec.allOnes 64 := by decide
    rw [if_pos rfl, hones, getLsbD_allOnes]
    exact decide_eq_true hi

theorem unzigzag_zigzag (v : BitVec 64) : unzigzag (zigzag v) = v := by
  apply eq_of_getLsbD_eq
  intro i hi
  rw [unzigzag, getLsbD_xor, neg_low _ hi, getLsbD_ushiftRight, zigzag]
  simp only [getLsbD_xor, getLsbD_shiftLeft, getLsbD_sshiftRight]
  by_cases h : i = 63
  · subst h
    simp
  · have h1 : 1 + i < 64 := by omega
    have h2 : ¬ 63 + (1 + i) < 64 := by omega
    have h3 : ¬ 64 ≤ 1 + i := by omega
    simp [h1, h2, h3, msb_eq_getLsbD_last]

end Temps.Lib.Varint
