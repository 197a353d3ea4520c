import Temps.Lib.Fields
import Temps.Lib.Runs
import Temps.Lib.Unicode

namespace Temps.Core.PublicHostname

open Lib.Fields Lib.Runs Lib.Unicode List

abbrev Text := List Char

def defaultBaseDomain : Text := "localho.st".toList

def dnsLabelMaxLen : ℕ := 63

def isHexDigit (c : Char) : Bool := c.isDigit || ('a' ≤ c && c ≤ 'f')

/-- The first eight hex digits of the SHA-256 digest of a name. -/
structure ShortHash where
  shortHash : Text → Text
  length_eq : ∀ seed, (shortHash seed).length = 8
  hex : ∀ seed, ∀ c ∈ shortHash seed, isHexDigit c = true

inductive PublicHostnameStrategy where
  | standard
  | flat
  deriving DecidableEq

def PublicHostnameStrategy.forceSingleLabel : PublicHostnameStrategy → Bool
  | .standard => false
  | .flat => true

/-- `trim_start_matches("*.")`. -/
def trimWildcards : Text → Text
  | '*' :: '.' :: rest => trimWildcards rest
  | text => text

def toAsciiLowercase (text : Text) : Text := text.map Char.toLower

def normalizeBaseDomain (u : Tables) (previewDomain : Text) : Text :=
  let trimmed := toAsciiLowercase (trimEnd '.' (trimWildcards (u.trim previewDomain)))
  if trimmed.isEmpty then defaultBaseDomain else trimmed

/-- The loop over the characters of a label; the flag is `previous_hyphen`. -/
def sanitizeFrom : Bool → Text → Text
  | _, [] => []
  | previousHyphen, ch :: rest =>
    if ch.toLower.isAlphanum then ch.toLower :: sanitizeFrom false rest
    else if !previousHyphen then '-' :: sanitizeFrom true rest
    else sanitizeFrom previousHyphen rest

def sanitizeLabel (label : Text) : Text :=
  let trimmed := trimEnd '-' ((sanitizeFrom false label).dropWhile (· = '-'))
  if trimmed.isEmpty then ['x'] else trimmed

def dnsLabel (h : ShortHash) (label hashSeed : Text) : Text :=
  let sanitized := sanitizeLabel label
  if sanitized.length ≤ dnsLabelMaxLen then sanitized
  else
    let suffix := '-' :: h.shortHash hashSeed
    let front := cut '-' (dnsLabelMaxLen - suffix.length) sanitized
    if front.isEmpty then h.shortHash hashSeed else front ++ suffix

def joinedName (first second : Text) : Text :=
  sanitizeLabel first ++ '-' :: '-' :: sanitizeLabel second

def namespacedServiceLabel (h : ShortHash) (first second : Text) : Text :=
  let combined := joinedName first second
  if combined.length ≤ dnsLabelMaxLen then combined
  else
    let suffix := '-' :: '-' :: h.shortHash combined
    let front := cut '-' (dnsLabelMaxLen - suffix.length) combined
    if front.isEmpty then h.shortHash combined else front ++ suffix

def relativeName (host baseDomain : Text) : Text :=
  let suffix := '.' :: baseDomain
  if host = baseDomain then []
  else if suffix.isSuffixOf host then host.take (host.length - suffix.length)
  else host

def rawLabels (relative : Text) : List Text :=
  (relative.splitOn '.').filter fun label ↦ !label.isEmpty

def hostnameLabels (h : ShortHash) (relative : Text) (forceSingleLabel : Bool) : List Text :=
  if forceSingleLabel then [dnsLabel h (['-'].intercalate (rawLabels relative)) relative]
  else (rawLabels relative).map fun label ↦ dnsLabel h label label

def normalizeHostname (u : Tables) (h : ShortHash) (raw baseDomain : Text)
    (forceSingleLabel : Bool) : Text :=
  let host := toAsciiLowercase (trimEnd '.' (trimWildcards (u.trim raw)))
  let baseDomain := normalizeBaseDomain u baseDomain
  let relative := relativeName host baseDomain
  if (rawLabels relative).isEmpty then baseDomain
  else ['.'].intercalate (hostnameLabels h relative forceSingleLabel) ++ '.' :: baseDomain

namespace PublicHostnameStrategy

variable (u : Tables) (h : ShortHash) (strategy : PublicHostnameStrategy) (previewDomain : Text)

def environmentHostname (environment : Text) : Text :=
  let base := normalizeBaseDomain u previewDomain
  normalizeHostname u h (environment ++ '.' :: base) base strategy.forceSingleLabel

def serviceHostname (environment service : Text) : Text :=
  let base := normalizeBaseDomain u previewDomain
  let label := match strategy with
    | .standard => namespacedServiceLabel h service environment
    | .flat => namespacedServiceLabel h environment service
  label ++ '.' :: base

def deploymentHostname (deployment : Text) : Text :=
  let base := normalizeBaseDomain u previewDomain
  normalizeHostname u h (deployment ++ '.' :: base) base strategy.forceSingleLabel

def projectDeploymentHostname (project environment deployment : Text) : Text :=
  let base := normalizeBaseDomain u previewDomain
  normalizeHostname u h
    (project ++ '-' :: environment ++ '-' :: deployment ++ '.' :: base) base
    strategy.forceSingleLabel

end PublicHostnameStrategy

def isLabelChar (c : Char) : Bool := c.isLower || c.isDigit || c == '-'

structure ValidLabel (label : Text) : Prop where
  nonempty : 1 ≤ label.length
  short : label.length ≤ dnsLabelMaxLen
  chars : ∀ c ∈ label, isLabelChar c = true
  head : ∀ c ∈ label.head?, c ≠ '-'
  last : ∀ c ∈ label.getLast?, c ≠ '-'

/-- Valid labels, each with a dot behind it, in front of a base domain. -/
def Generated (baseDomain hostname : Text) : Prop :=
  ∃ labels : List Text, (∀ label ∈ labels, ValidLabel label) ∧
    hostname = labels.flatMap (· ++ ['.']) ++ baseDomain

variable {c : Char}

theorem isLabelChar_toLower (h : c.toLower.isAlphanum) :
    isLabelChar c.toLower ∧ c.toLower ≠ '-' := by
  have hupper : c.toLower.isUpper = false := by
    unfold Char.isUpper Char.toLower
    split <;> grind
  constructor
  · unfold Char.isAlphanum Char.isAlpha at h
    simp only [hupper, Bool.false_or] at h
    simp only [isLabelChar, h, Bool.true_or]
  · rintro heq
    rw [heq] at h
    revert h
    decide

theorem isLabelChar_hex (h : isHexDigit c) : isLabelChar c ∧ c ≠ '-' := by
  constructor
  · rcases Bool.or_eq_true_iff.mp h with hdigit | hletter
    · simp [isLabelChar, hdigit]
    · have hlower : c.isLower := by
        simp only [Bool.and_eq_true, decide_eq_true_eq] at hletter
        unfold Char.isLower
        simp only [Bool.and_eq_true, decide_eq_true_eq]
        have hz : 'f'.val ≤ 'z'.val := by decide
        exact ⟨hletter.1, UInt32.le_trans hletter.2 hz⟩
      simp [isLabelChar, hlower]
  · rintro rfl
    revert h
    decide

theorem isLabelChar_ne_dot (h : isLabelChar c) : c ≠ '.' := by
  rintro rfl
  revert h
  decide

theorem sanitizeFrom_head (label : Text) : ∀ c ∈ (sanitizeFrom true label).head?, c ≠ '-' := by
  induction label with
  | nil => simp [sanitizeFrom]
  | cons ch rest ih =>
    rw [sanitizeFrom]
    split
    case isTrue halnum =>
      intro c hc
      obtain rfl : ch.toLower = c := by simpa using hc
      exact (isLabelChar_toLower halnum).2
    case isFalse => simpa using ih

theorem sanitizeFrom_spaced (previousHyphen : Bool) (label : Text) :
    Spaced '-' (sanitizeFrom previousHyphen label) := by
  fun_induction sanitizeFrom previousHyphen label with
  | case1 => exact spaced_nil
  | case2 _ ch rest halnum ih =>
    exact spaced_cons ih fun heq ↦ absurd heq (isLabelChar_toLower halnum).2
  | case3 _ ch rest _ _ ih => exact spaced_cons ih fun _ ↦ sanitizeFrom_head rest
  | case4 _ ch rest _ _ ih => exact ih

theorem sanitizeFrom_chars (previousHyphen : Bool) (label : Text) :
    ∀ c ∈ sanitizeFrom previousHyphen label, isLabelChar c := by
  fun_induction sanitizeFrom previousHyphen label with
  | case1 => exact forall_mem_nil _
  | case2 _ ch rest halnum ih => exact forall_mem_cons.mpr ⟨(isLabelChar_toLower halnum).1, ih⟩
  | case3 _ ch rest _ _ ih => exact forall_mem_cons.mpr ⟨rfl, ih⟩
  | case4 _ ch rest _ _ ih => exact ih

theorem trimmed_isInfix (text : Text) : trimEnd '-' (text.dropWhile (· = '-')) <:+: text :=
  (trimEnd_isPrefix _).isInfix.trans (dropWhile_suffix _).isInfix

theorem sanitizeLabel_word (label : Text) : Word '-' (sanitizeLabel label) := by
  rw [sanitizeLabel]
  split
  case isTrue => exact word_of_not_mem (by simp) (by decide)
  case isFalse hne =>
    have hnil : trimEnd '-' ((sanitizeFrom false label).dropWhile (· = '-')) ≠ [] := by
      simpa using hne
    refine ⟨hnil, (sanitizeFrom_spaced false label).of_isInfix (trimmed_isInfix _), ?_,
      trimEnd_last _⟩
    intro c hc
    have hmem : c ∈ ((sanitizeFrom false label).dropWhile (· = '-')).head? := by
      obtain ⟨t, ht⟩ := trimEnd_isPrefix ((sanitizeFrom false label).dropWhile (· = '-'))
      rw [← ht, List.head?_append, hc]
      rfl
    have := List.head?_dropWhile_not (fun c : Char ↦ decide (c = '-')) (sanitizeFrom false label)
    rw [hmem] at this
    simpa using this

theorem sanitizeLabel_chars (label : Text) : ∀ c ∈ sanitizeLabel label, isLabelChar c := by
  rw [sanitizeLabel]
  split
  case isTrue => simp [isLabelChar]
  case isFalse => exact fun c hc ↦ sanitizeFrom_chars false label c ((trimmed_isInfix _).subset hc)

variable (h : ShortHash)

theorem shortHash_word (seed : Text) : Word '-' (h.shortHash seed) := by
  have hfree : '-' ∉ h.shortHash seed := fun hmem ↦ (isLabelChar_hex (h.hex seed _ hmem)).2 rfl
  exact word_of_not_mem (ne_nil_of_length_pos (by rw [h.length_eq]; omega)) hfree

theorem shortHash_chars (seed : Text) : ∀ c ∈ h.shortHash seed, isLabelChar c :=
  fun c hc ↦ (isLabelChar_hex (h.hex seed c hc)).1

theorem validLabel_append {front back : Text} (sep : Text) (hc : c ≠ '-')
    (hfront : front.head? = some c) (hback : Word '-' back)
    (hchars : ∀ c ∈ front ++ (sep ++ back), isLabelChar c)
    (hlen : (front ++ (sep ++ back)).length ≤ dnsLabelMaxLen) :
    ValidLabel (front ++ (sep ++ back)) where
  nonempty := by
    have := length_pos_of_ne_nil hback.ne_nil
    simp only [length_append]
    omega
  short := hlen
  chars := hchars
  head := by
    rw [List.head?_append, hfront]
    rintro d ⟨⟩
    exact hc
  last := by
    rw [← append_assoc, List.getLast?_append_of_ne_nil _ hback.ne_nil]
    exact hback.last

theorem ValidLabel.of_word {label : Text} (hw : Word '-' label)
    (hchars : ∀ c ∈ label, isLabelChar c) (hlen : label.length ≤ dnsLabelMaxLen) :
    ValidLabel label :=
  ⟨length_pos_of_ne_nil hw.ne_nil, hlen, hchars, hw.head, hw.last⟩

theorem cut_chars {n : ℕ} {text : Text} (hchars : ∀ c ∈ text, isLabelChar c) :
    ∀ c ∈ cut '-' n text, isLabelChar c :=
  fun c hc ↦ hchars c (mem_of_mem_take ((trimEnd_isPrefix _).subset hc))

theorem dnsLabel_word (label hashSeed : Text) :
    Word '-' (dnsLabel h label hashSeed) ∧ ValidLabel (dnsLabel h label hashSeed) := by
  have hword := sanitizeLabel_word label
  have hchars := sanitizeLabel_chars label
  rw [dnsLabel]
  split
  case isTrue hle => exact ⟨hword, .of_word hword hchars hle⟩
  case isFalse =>
    have hsuffix : ('-' :: h.shortHash hashSeed).length = 9 := by simp [h.length_eq]
    have hcut : Word '-' (cut '-' (dnsLabelMaxLen - 9) (sanitizeLabel label)) :=
      hword.cut (by decide)
    have hhash := shortHash_word h hashSeed
    obtain ⟨c, rest, hfront⟩ := exists_cons_of_ne_nil hcut.ne_nil
    have hvalid : ValidLabel (cut '-' (dnsLabelMaxLen - 9) (sanitizeLabel label) ++
        (['-'] ++ h.shortHash hashSeed)) := by
      refine validLabel_append ['-'] (hcut.head c (by simp [hfront])) (by simp [hfront]) hhash ?_ ?_
      · simp only [forall_mem_append]
        exact ⟨cut_chars hchars, by simp [isLabelChar], shortHash_chars h hashSeed⟩
      · have hle := Word.cut_length (s := '-') (n := dnsLabelMaxLen - 9) (sanitizeLabel label)
        simp only [length_append, length_singleton, h.length_eq, dnsLabelMaxLen] at hle ⊢
        omega
    dsimp only
    rw [hsuffix, if_neg (by simpa using hcut.ne_nil)]
    refine ⟨⟨by simp, ?_, hvalid.head, hvalid.last⟩, hvalid⟩
    refine spaced_append hcut.spaced ?_ (.inl hcut.last)
    exact spaced_cons hhash.spaced fun _ ↦ hhash.head

end Temps.Core.PublicHostname
