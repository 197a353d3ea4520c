import Mathlib.Data.List.Infix
import Temps.Lib.Utf8

namespace Temps.Lib.Unicode

open Octets Utf8 List

/-- The character tables of the standard library, with what the Unicode data says about ASCII and
about characters that are lower case already. -/
structure Tables where
  toLower : Char → List Char
  isAlphanumeric : Char → Bool
  isWhitespace : Char → Bool
  isCased : Char → Bool
  isCaseIgnorable : Char → Bool
  toLower_ascii : ∀ c, c.toNat < 0x80 → toLower c = [c.toLower]
  toLower_settled : ∀ c, ∀ d ∈ toLower c, toLower d = [d] ∧ d ≠ 'Σ'
  toLower_sigma : toLower 'σ' = ['σ'] ∧ toLower 'ς' = ['ς']

theorem ne_sigma {c : Char} (h : c.toNat < 0x80) : c ≠ 'Σ' := by
  rintro rfl
  revert h
  decide

namespace Tables

variable (u : Tables) {mid : List Char}

def caseIgnorableThenCased (text : List Char) : Bool :=
  match text.dropWhile u.isCaseIgnorable with
  | [] => false
  | c :: _ => u.isCased c

def lowerSigma (before after : List Char) : Char :=
  if u.caseIgnorableThenCased before.reverse && !u.caseIgnorableThenCased after then 'ς' else 'σ'

def lowerFrom : List Char → List Char → List Char
  | _, [] => []
  | before, c :: rest =>
    (if c = 'Σ' then [u.lowerSigma before rest] else u.toLower c) ++
      lowerFrom (before ++ [c]) rest

def toLowercase (text : List Char) : List Char := u.lowerFrom [] text

def trim (text : List Char) : List Char :=
  ((text.dropWhile u.isWhitespace).reverse.dropWhile u.isWhitespace).reverse

def Settled (text : List Char) : Prop := ∀ d ∈ text, u.toLower d = [d] ∧ d ≠ 'Σ'

theorem lowerFrom_settled (before text : List Char) : u.Settled (u.lowerFrom before text) := by
  induction text generalizing before with
  | nil => simp [lowerFrom, Settled]
  | cons c rest ih =>
    intro d hd
    rcases mem_append.mp hd with hd | hd
    · split at hd
      · rw [mem_singleton] at hd
        rw [hd, lowerSigma]
        split
        · exact ⟨u.toLower_sigma.2, by decide⟩
        · exact ⟨u.toLower_sigma.1, by decide⟩
      · exact u.toLower_settled c d hd
    · exact ih _ d hd

theorem lowerFrom_of_settled (before : List Char) {text : List Char} (h : u.Settled text) :
    u.lowerFrom before text = text := by
  induction text generalizing before with
  | nil => rfl
  | cons c rest ih =>
    obtain ⟨hc, hsigma⟩ := h c (by simp)
    rw [lowerFrom, if_neg hsigma, hc, ih _ fun d hd ↦ h d (by simp [hd])]
    rfl

theorem toLowercase_idem (text : List Char) :
    u.toLowercase (u.toLowercase text) = u.toLowercase text :=
  u.lowerFrom_of_settled [] (u.lowerFrom_settled [] text)

theorem lowerFrom_ascii (before : List Char) (post : List Char) (h : ∀ c ∈ mid, c.toNat < 0x80) :
    ∃ q, u.lowerFrom before (mid ++ post) = mid.map Char.toLower ++ q := by
  induction mid generalizing before with
  | nil => exact ⟨_, rfl⟩
  | cons c mid ih =>
    have hc := h c (by simp)
    obtain ⟨q, hq⟩ := ih (before ++ [c]) fun d hd ↦ h d (by simp [hd])
    refine ⟨q, ?_⟩
    rw [cons_append, lowerFrom, if_neg (ne_sigma hc), u.toLower_ascii c hc, hq]
    rfl

theorem toLowercase_ascii (pre : List Char) (post : List Char) (h : ∀ c ∈ mid, c.toNat < 0x80) :
    mid.map Char.toLower <:+: u.toLowercase (pre ++ mid ++ post) := by
  have hgo : ∀ before, mid.map Char.toLower <:+: u.lowerFrom before (pre ++ (mid ++ post)) := by
    induction pre with
    | nil =>
      intro before
      obtain ⟨q, hq⟩ := u.lowerFrom_ascii before post h
      rw [nil_append, hq]
      exact ⟨[], q, by simp⟩
    | cons c pre ih =>
      intro before
      exact (ih _).trans (suffix_append _ _).isInfix
  rw [append_assoc]
  exact hgo []

end Tables

def toAsciiLowercase (b : UInt8) : UInt8 :=
  if 0x41 ≤ b.toNat ∧ b.toNat ≤ 0x5A then UInt8.ofNat (b.toNat + 32) else b

theorem toLower_bytes : ∀ n : Fin 128,
    toAsciiLowercase (UInt8.ofNat n) = UInt8.ofNat (Char.ofNat n).toLower.toNat ∧
      (Char.ofNat n).toLower.toNat < 0x80 := by
  decide

variable {c d : Char} {needle text : List Char}

theorem toLower_ascii (h : c.toNat < 0x80) :
    toAsciiLowercase (UInt8.ofNat c.toNat) = UInt8.ofNat c.toLower.toNat ∧
      c.toLower.toNat < 0x80 := by
  have hc := toLower_bytes ⟨c.toNat, h⟩
  simpa only [Char.ofNat_toNat] using hc

theorem ascii_eq (hc : c.toNat < 0x80) (hd : d.toNat < 0x80)
    (h : UInt8.ofNat c.toNat = UInt8.ofNat d.toNat) : c = d := by
  have h' := congrArg UInt8.toNat h
  rw [toNat_ofNat_lt (by omega), toNat_ofNat_lt (by omega)] at h'
  rw [← Char.ofNat_toNat c, h', Char.ofNat_toNat]

theorem toAsciiLowercase_high {b : UInt8} (h : 0x80 ≤ b.toNat) : toAsciiLowercase b = b := by
  rw [toAsciiLowercase, if_neg (by omega)]

def folded (text : List Char) : Bytes := (encode text).map toAsciiLowercase

theorem folded_cons (d : Char) (text : List Char) :
    folded (d :: text) = (encodeChar d).map toAsciiLowercase ++ folded text := by
  simp [folded, encode]

theorem folded_ascii (hd : d.toNat < 0x80) (text : List Char) :
    folded (d :: text) = UInt8.ofNat d.toLower.toNat :: folded text := by
  rw [folded_cons, encodeChar_ascii hd, map_singleton, (toLower_ascii hd).1]
  rfl

theorem encode_ascii (hc : c.toNat < 0x80) (text : List Char) :
    encode (c :: text) = UInt8.ofNat c.toNat :: encode text := by
  rw [encode, flatMap_cons, encodeChar_ascii hc]
  rfl

theorem infix_skip (hc : c.toNat < 0x80) (hd : ¬ d.toNat < 0x80)
    (h : encode (c :: needle) <:+: folded (d :: text)) : encode (c :: needle) <:+: folded text := by
  have hhigh : ∀ b ∈ (encodeChar d).map toAsciiLowercase, 0x80 ≤ b.toNat := by
    intro b hb
    obtain ⟨b', hb', rfl⟩ := mem_map.mp hb
    have hb' := encodeChar_nonascii hd b' hb'
    rw [toAsciiLowercase_high hb']
    exact hb'
  rw [folded_cons] at h
  generalize (encodeChar d).map toAsciiLowercase = high at h hhigh
  induction high with
  | nil => exact h
  | cons b high ih =>
    rw [cons_append, infix_cons_iff] at h
    rcases h with h | h
    · rw [encode_ascii hc, cons_prefix_cons] at h
      have hb := hhigh b (by simp)
      rw [← h.1, toNat_ofNat_lt (by omega)] at hb
      omega
    · exact ih h fun b' hb' ↦ hhigh b' (by simp [hb'])

theorem prefix_folded (hn : ∀ c ∈ needle, c.toNat < 0x80) (h : encode needle <+: folded text) :
    ∃ mid post, text = mid ++ post ∧ (∀ c ∈ mid, c.toNat < 0x80) ∧
      mid.map Char.toLower = needle := by
  induction needle generalizing text with
  | nil => exact ⟨[], text, rfl, by simp, rfl⟩
  | cons c needle ih =>
    have hc := hn c (by simp)
    rw [encode_ascii hc] at h
    cases text with
    | nil => simp [folded, encode] at h
    | cons d text =>
      by_cases hd : d.toNat < 0x80
      · rw [folded_ascii hd, cons_prefix_cons] at h
        obtain ⟨mid, post, rfl, hmid, rfl⟩ := ih (fun c' hc' ↦ hn c' (by simp [hc'])) h.2
        refine ⟨d :: mid, post, rfl, forall_mem_cons.mpr ⟨hd, hmid⟩, ?_⟩
        rw [map_cons, ascii_eq (toLower_ascii hd).2 hc h.1.symm]
      · obtain ⟨b, tail, hb, -⟩ := scan_encodeChar d []
        have hhigh := encodeChar_nonascii hd b (by simp [hb])
        rw [folded_cons, hb, map_cons, toAsciiLowercase_high hhigh, cons_append,
          cons_prefix_cons] at h
        rw [← h.1, toNat_ofNat_lt (by omega)] at hhigh
        omega

theorem infix_folded (hn : ∀ c ∈ needle, c.toNat < 0x80) (h : encode needle <:+: folded text) :
    ∃ pre mid post, text = pre ++ mid ++ post ∧ (∀ c ∈ mid, c.toNat < 0x80) ∧
      mid.map Char.toLower = needle := by
  cases needle with
  | nil => exact ⟨[], [], text, rfl, by simp, rfl⟩
  | cons c needle =>
    have hc := hn c (by simp)
    induction text with
    | nil =>
      rw [encode_ascii hc] at h
      simp [folded, encode] at h
    | cons d text ih =>
      have hrest : encode (c :: needle) <:+: folded text →
          ∃ pre mid post, d :: text = pre ++ mid ++ post ∧ (∀ c ∈ mid, c.toNat < 0x80) ∧
            mid.map Char.toLower = c :: needle := by
        intro h'
        obtain ⟨pre, mid, post, rfl, hmid, heq⟩ := ih h'
        exact ⟨d :: pre, mid, post, rfl, hmid, heq⟩
      by_cases hd : d.toNat < 0x80
      · rw [folded_ascii hd, infix_cons_iff, ← folded_ascii hd] at h
        rcases h with h | h
        · obtain ⟨mid, post, heq, hmid, hlow⟩ := prefix_folded hn h
          exact ⟨[], mid, post, heq, hmid, hlow⟩
        · exact hrest h
      · exact hrest (infix_skip hc hd h)

theorem Tables.infix_toLowercase (u : Tables) (hn : ∀ c ∈ needle, c.toNat < 0x80)
    (h : encode needle <:+: folded text) : needle <:+: u.toLowercase text := by
  obtain ⟨pre, mid, post, rfl, hmid, rfl⟩ := infix_folded hn h
  exact u.toLowercase_ascii pre post hmid

theorem toLower_idem : ∀ n : Fin 128,
    (Char.ofNat n).toLower.toLower = (Char.ofNat n).toLower := by
  decide

def asciiTables : Tables where
  toLower c := if c = 'Σ' then ['σ'] else if c.toNat < 0x80 then [c.toLower] else [c]
  isAlphanumeric c := c.isAlphanum
  isWhitespace c := c.isWhitespace
  isCased c := c.isAlpha
  isCaseIgnorable _ := false
  toLower_ascii c h := by rw [if_neg (ne_sigma h), if_pos h]
  toLower_settled c d hd := by
    by_cases hsigma : c = 'Σ'
    · rw [if_pos hsigma, List.mem_singleton] at hd
      rw [hd]
      decide
    rw [if_neg hsigma] at hd
    by_cases hc : c.toNat < 0x80
    · rw [if_pos hc, List.mem_singleton] at hd
      have hidem := toLower_idem ⟨c.toNat, hc⟩
      rw [Char.ofNat_toNat] at hidem
      have hlow := (toLower_ascii hc).2
      rw [hd]
      exact ⟨by rw [if_neg (ne_sigma hlow), if_pos hlow, hidem], ne_sigma hlow⟩
    · rw [if_neg hc, List.mem_singleton] at hd
      rw [hd]
      exact ⟨by rw [if_neg hsigma, if_neg hc], hsigma⟩
  toLower_sigma := by decide

end Temps.Lib.Unicode
