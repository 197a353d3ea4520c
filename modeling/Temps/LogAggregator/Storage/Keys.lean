import Temps.LogAggregator.Chunk.Encoder

namespace Temps.LogAggregator.Storage.Keys

open Lib.Fields Lib.Octets Lib.Utf8 LogAggregator.Types Chunk List

/-- The hex digest of SHA-256, taken to be free of collisions. -/
structure Sha256 where
  hexDigest : Bytes → Text
  injective : Function.Injective hexDigest
  hex : ∀ bytes, ∀ c ∈ hexDigest bytes, c ≠ '-'

structure Calendar where
  date : ℤ → Text
  hour : ℤ → Text

def v2Extension : Text := "zst".toList

def digits (n : ℕ) : Text := Nat.toDigits 10 n

def scope (projectId : ℤ) (externalServiceId : Option ℤ) : Text :=
  match externalServiceId with
  | some id => "external-services/".toList ++ (toString id).toList
  | none => (toString projectId).toList

/-- The directories, the container and the first time of a chunk's key. Container ids are ASCII, so
their first twelve bytes are characters. -/
def keyStem (calendar : Calendar) (projectId : ℤ) (externalServiceId : Option ℤ)
    (env service : String) (firstTs : ℤ) (containerId : String) : Text :=
  "logs/".toList ++ scope projectId externalServiceId ++ '/' :: env.toList ++
    '/' :: service.toList ++ '/' :: calendar.date firstTs ++ '/' :: calendar.hour firstTs ++
    '/' :: containerId.toList.take 12 ++ '-' :: (toString (tsNanos firstTs).toInt).toList

def buildStorageKeyV2 (calendar : Calendar) (projectId : ℤ) (externalServiceId : Option ℤ)
    (env service : String) (firstTs : ℤ) (containerId : String) (suffix : Option Text) : Text :=
  let suffixPart := match suffix with
    | some s => '-' :: s
    | none => []
  keyStem calendar projectId externalServiceId env service firstTs containerId ++ suffixPart ++
    '.' :: v2Extension

/-- The hash of the encoded bytes, bound to the byte range of a recovered batch when there is one. -/
def contentHash (sha : Sha256) (recoveryIdentity : Option Text) (bytes : Bytes) : Text :=
  match recoveryIdentity with
  | some identity =>
    sha.hexDigest (encode "wal-recovery-v1\x00".toList ++ encode identity ++ [0] ++ bytes)
  | none => sha.hexDigest bytes

def chunkKey (calendar : Calendar) (labels : ChunkLabels) (suffix : Text) : Text :=
  buildStorageKeyV2 calendar labels.projectId labels.externalServiceId labels.env labels.service
    labels.startedAt labels.containerId (some suffix)

theorem suffix_of_chunkKey {calendar : Calendar} {labels labels' : ChunkLabels} {s t : Text}
    (hs : '-' ∉ s) (ht : '-' ∉ t)
    (h : chunkKey calendar labels s = chunkKey calendar labels' t) : s = t := by
  have hcut := append_inj_left' h rfl
  exact last_sep_inj hs ht hcut

theorem contentHash_no_dash (sha : Sha256) (identity : Option Text) (bytes : Bytes) :
    '-' ∉ contentHash sha identity bytes := by
  cases identity with
  | none | some identity => exact fun h ↦ sha.hex _ _ h rfl

variable {n : ℕ}

theorem digits_isDigit {c : Char} (h : c ∈ digits n) : c.isDigit :=
  Nat.isDigit_of_mem_toDigits (by decide) (by decide) h

theorem digits_injective {m : ℕ} (h : digits m = digits n) : m = n := by
  have hm := Nat.ofDigitChars_toDigits (b := 10) (n := m) (by decide) (by decide)
  have hn := Nat.ofDigitChars_toDigits (b := 10) (n := n) (by decide) (by decide)
  rw [digits, digits] at h
  rw [← hm, ← hn, h]

theorem encode_digits {b : UInt8} (h : b ∈ encode (digits n)) : 48 ≤ b.toNat ∧ b.toNat ≤ 57 := by
  obtain ⟨c, hc, hb⟩ := mem_flatMap.mp h
  have hdigit := digits_isDigit hc
  simp only [Char.isDigit, Bool.and_eq_true, decide_eq_true_eq] at hdigit
  have hlow : 48 ≤ c.toNat := hdigit.1
  have hhigh : c.toNat ≤ 57 := hdigit.2
  rw [encodeChar_ascii (by omega), mem_singleton] at hb
  rw [hb, toNat_ofNat_lt (by omega)]
  exact ⟨hlow, hhigh⟩

theorem encode_identity (name : Text) (start stop : ℕ) :
    encode (name ++ ':' :: digits start ++ ':' :: digits stop) =
      encode name ++ 58 :: (encode (digits start) ++ 58 :: encode (digits stop)) := by
  simp only [encode, flatMap_append, append_assoc]
  rfl

def recoveryIdentity (name : Text) (start stop : ℕ) : Text :=
  name ++ ':' :: digits start ++ ':' :: digits stop

variable {bytes' bytes : Bytes} {start' stop' start : ℕ} {name : Text}

theorem contentHash_recovered {sha : Sha256} {stop : ℕ}
    (h : contentHash sha (some (recoveryIdentity name start stop)) bytes =
      contentHash sha (some (recoveryIdentity name start' stop')) bytes') :
    start = start' ∧ stop = stop' ∧ bytes = bytes' := by
  have hinput := sha.injective h
  rw [recoveryIdentity, recoveryIdentity, encode_identity, encode_identity] at hinput
  simp only [append_assoc, cons_append, append_cancel_left_eq, cons.injEq,
    true_and] at hinput
  have hsep : ∀ n, (58 : UInt8) ∉ encode (digits n) := by
    intro n hmem
    have hle := (encode_digits hmem).2
    revert hle
    decide
  have hzero : ∀ n, (0 : UInt8) ∉ encode (digits n) := by
    intro n hmem
    have hle := (encode_digits hmem).1
    revert hle
    decide
  obtain ⟨hstart, hrest⟩ := append_sep_inj (hsep _) (hsep _) hinput
  obtain ⟨hstop, hbytes⟩ := append_sep_inj (hzero _) (hzero _) hrest
  exact ⟨digits_injective (encode_injective hstart), digits_injective (encode_injective hstop),
    hbytes⟩

def hashed (recoveryIdentity : Option Text) (bytes : Bytes) : Bytes :=
  match recoveryIdentity with
  | some identity => encode "wal-recovery-v1\x00".toList ++ encode identity ++ [0] ++ bytes
  | none => bytes

theorem contentHash_eq (sha : Sha256) (identity : Option Text) (bytes : Bytes) :
    contentHash sha identity bytes = sha.hexDigest (hashed identity bytes) := by
  cases identity <;> rfl

theorem name_of_hashed {name' : Text} {stop : ℕ} (hname : 58 ∉ encode name)
    (hname' : 58 ∉ encode name')
    (h : hashed (some (recoveryIdentity name start stop)) bytes =
      hashed (some (recoveryIdentity name' start' stop')) bytes') : name = name' := by
  simp only [hashed, recoveryIdentity, encode_identity] at h
  simp only [append_assoc, append_cancel_left_eq] at h
  exact encode_injective (append_sep_inj hname hname' h).1

end Temps.LogAggregator.Storage.Keys
