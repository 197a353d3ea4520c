import Temps.Core.PublicHostname

namespace Temps.Core.PublicHostname

open Lib.Fields Lib.Runs Lib.Unicode List

variable (h : ShortHash) {first second first' second' : Text}

theorem joinedName_inj (heq : joinedName first second = joinedName first' second') :
    sanitizeLabel first = sanitizeLabel first' ∧ sanitizeLabel second = sanitizeLabel second' :=
  double_sep_inj (sanitizeLabel_word first) (sanitizeLabel_word first') heq

theorem namespacedServiceLabel_short (hlen : (joinedName first second).length ≤ 63) :
    namespacedServiceLabel h first second = joinedName first second := by
  rw [namespacedServiceLabel, if_pos (by simpa [dnsLabelMaxLen] using hlen)]

theorem cut_joinedName_head (first second : Text) :
    (cut '-' 53 (joinedName first second)).head? = (sanitizeLabel first).head? := by
  obtain ⟨c, rest, hc⟩ := exists_cons_of_ne_nil (sanitizeLabel_word first).ne_nil
  have hne : c ≠ '-' := (sanitizeLabel_word first).head c (by simp [hc])
  rw [joinedName, hc, cut, cons_append, take_succ_cons, trimEnd_cons hne]
  rfl

section

variable (hlen : 63 < (joinedName first second).length)
include hlen

theorem namespacedServiceLabel_long :
    namespacedServiceLabel h first second =
      cut '-' 53 (joinedName first second) ++ '-' :: '-' :: h.shortHash (joinedName first second) := by
  have hsuffix : ('-' :: '-' :: h.shortHash (joinedName first second)).length = 10 := by
    simp [h.length_eq]
  have hne : cut '-' 53 (joinedName first second) ≠ [] := by
    intro hnil
    have hhead := cut_joinedName_head first second
    rw [hnil] at hhead
    exact (sanitizeLabel_word first).ne_nil (List.head?_eq_none_iff.mp hhead.symm)
  rw [namespacedServiceLabel, if_neg (by simpa [dnsLabelMaxLen] using hlen)]
  dsimp only
  rw [hsuffix, if_neg (by simpa [dnsLabelMaxLen] using hne)]
  rfl

theorem namespacedServiceLabel_late (hfirst : (sanitizeLabel first).length < 51) :
    ∃ front, namespacedServiceLabel h first second = sanitizeLabel first ++ '-' :: '-' ::
      (front ++ '-' :: '-' :: h.shortHash (joinedName first second)) := by
  rw [namespacedServiceLabel_long h hlen]
  nth_rw 1 [joinedName]
  rw [cut_join_late (sanitizeLabel_word second) (by omega)]
  simp

theorem namespacedServiceLabel_early (hfirst : 51 ≤ (sanitizeLabel first).length) :
    namespacedServiceLabel h first second = cut '-' 53 (sanitizeLabel first) ++ '-' :: '-' ::
      h.shortHash (joinedName first second) := by
  rw [namespacedServiceLabel_long h hlen]
  nth_rw 1 [joinedName]
  rw [cut_join_early (sanitizeLabel_word first) _ (by omega)]

end

/-- The second pair is short and spells out the label of the first: its first part is the first
pair's, cut, and its second part is the hash. -/
structure Forges (first second first' second' : Text) : Prop where
  long : 63 < (joinedName first second).length
  early : 51 ≤ (sanitizeLabel first).length
  front : sanitizeLabel first' = cut '-' 53 (sanitizeLabel first)
  back : sanitizeLabel second' = h.shortHash (joinedName first second)

variable {h}

section

variable (hf : Forges h first second first' second')
include hf

theorem Forges.short : (joinedName first' second').length ≤ 63 := by
  have hcut := Word.cut_length (s := '-') (n := 53) (sanitizeLabel first)
  simp only [joinedName, hf.front, hf.back, length_append, length_cons, h.length_eq]
  omega

theorem Forges.label_eq :
    namespacedServiceLabel h first second = namespacedServiceLabel h first' second' := by
  rw [namespacedServiceLabel_early h hf.long hf.early, namespacedServiceLabel_short h hf.short,
    ← hf.front, ← hf.back]
  rfl

theorem Forges.ne :
    ¬ (sanitizeLabel first = sanitizeLabel first' ∧ sanitizeLabel second = sanitizeLabel second') := by
  rintro ⟨hfirst, hsecond⟩
  have hlong := hf.long
  rw [joinedName, hfirst, hsecond] at hlong
  exact absurd hf.short (by simpa [joinedName] using hlong)

end

theorem forges_of_label_eq (hlong : 63 < (joinedName first second).length)
    (hshort : (joinedName first' second').length ≤ 63)
    (heq : namespacedServiceLabel h first second = namespacedServiceLabel h first' second') :
    Forges h first second first' second' := by
  have hword := sanitizeLabel_word first
  have hword' := sanitizeLabel_word first'
  rw [namespacedServiceLabel_short h hshort] at heq
  rcases Nat.lt_or_ge (sanitizeLabel first).length 51 with hlt | hge
  · obtain ⟨front, hlate⟩ := namespacedServiceLabel_late h hlong hlt
    rw [hlate] at heq
    have hsecond := (double_sep_inj hword hword' heq).2
    exact absurd (hsecond ▸ (sanitizeLabel_word second').spaced) (not_spaced_join _ _)
  · rw [namespacedServiceLabel_early h hlong hge] at heq
    obtain ⟨hfront, hback⟩ := double_sep_inj (hword.cut (by decide)) hword' heq
    exact ⟨hlong, hge, hfront.symm, hback.symm⟩

theorem label_eq_cases
    (hfree : 63 < (joinedName first second).length → 63 < (joinedName first' second').length →
      h.shortHash (joinedName first second) = h.shortHash (joinedName first' second') →
      joinedName first second = joinedName first' second')
    (heq : namespacedServiceLabel h first second = namespacedServiceLabel h first' second') :
    (sanitizeLabel first = sanitizeLabel first' ∧ sanitizeLabel second = sanitizeLabel second') ∨
      Forges h first second first' second' ∨ Forges h first' second' first second := by
  rcases Nat.lt_or_ge 63 (joinedName first second).length with hlong | hshort <;>
    rcases Nat.lt_or_ge 63 (joinedName first' second').length with hlong' | hshort'
  · rw [namespacedServiceLabel_long h hlong, namespacedServiceLabel_long h hlong'] at heq
    have hhash := append_inj_right' heq (by simp [h.length_eq])
    exact .inl (joinedName_inj (hfree hlong hlong' (by simpa using hhash)))
  · exact .inr (.inl (forges_of_label_eq hlong hshort' heq))
  · exact .inr (.inr (forges_of_label_eq hlong' hshort heq.symm))
  · rw [namespacedServiceLabel_short h hshort, namespacedServiceLabel_short h hshort'] at heq
    exact .inl (joinedName_inj heq)

variable (h)

theorem joinedName_chars (first second : Text) : ∀ c ∈ joinedName first second, isLabelChar c := by
  intro c hc
  simp only [joinedName, mem_append, mem_cons] at hc
  rcases hc with hc | rfl | rfl | hc
  · exact sanitizeLabel_chars first c hc
  · rfl
  · rfl
  · exact sanitizeLabel_chars second c hc

theorem namespacedServiceLabel_valid (first second : Text) :
    ValidLabel (namespacedServiceLabel h first second) := by
  have hfirst := sanitizeLabel_word first
  obtain ⟨c, rest, hc⟩ := exists_cons_of_ne_nil hfirst.ne_nil
  have hne : c ≠ '-' := hfirst.head c (by simp [hc])
  have hchars := joinedName_chars first second
  rcases Nat.lt_or_ge 63 (joinedName first second).length with hlong | hshort
  · rw [namespacedServiceLabel_long h hlong]
    refine validLabel_append ['-', '-'] hne ?_ (shortHash_word h _) ?_ ?_
    · rw [cut_joinedName_head, hc]
      rfl
    · simp only [forall_mem_append]
      exact ⟨cut_chars hchars, by simp [isLabelChar], shortHash_chars h _⟩
    · have hle := Word.cut_length (s := '-') (n := 53) (joinedName first second)
      simp only [length_append, length_cons, length_nil, h.length_eq, dnsLabelMaxLen]
      omega
  · rw [namespacedServiceLabel_short h hshort]
    exact validLabel_append ['-', '-'] hne (by simp [hc]) (sanitizeLabel_word second)
      hchars hshort

theorem namespacedServiceLabel_not_spaced (first second : Text) :
    ¬ Spaced '-' (namespacedServiceLabel h first second) := by
  rcases Nat.lt_or_ge 63 (joinedName first second).length with hlong | hshort
  · rw [namespacedServiceLabel_long h hlong]
    exact not_spaced_join _ _
  · rw [namespacedServiceLabel_short h hshort]
    exact not_spaced_join _ _

theorem intercalate_dots {labels : List Text} (hne : labels ≠ []) (base : Text) :
    ['.'].intercalate labels ++ '.' :: base = labels.flatMap (· ++ ['.']) ++ base := by
  induction labels with
  | nil => exact absurd rfl hne
  | cons label labels ih =>
    cases labels with
    | nil => simp
    | cons next labels =>
      have hrest := ih (by simp)
      simp only [flatMap_cons, append_assoc] at hrest ⊢
      rw [intercalate_cons_cons, append_assoc, append_assoc, hrest]

variable (u : Tables)

theorem hostnameLabels_words (relative : Text) (forceSingleLabel : Bool) :
    ∀ label ∈ hostnameLabels h relative forceSingleLabel, Word '-' label ∧ ValidLabel label := by
  intro label hlabel
  rw [hostnameLabels] at hlabel
  split at hlabel
  · obtain rfl := mem_singleton.mp hlabel
    exact dnsLabel_word h _ _
  · obtain ⟨raw, -, rfl⟩ := mem_map.mp hlabel
    exact dnsLabel_word h _ _

theorem normalizeHostname_labels (raw baseDomain : Text) (forceSingleLabel : Bool) :
    ∃ labels : List Text, (∀ label ∈ labels, Word '-' label ∧ ValidLabel label) ∧
      normalizeHostname u h raw baseDomain forceSingleLabel =
        labels.flatMap (· ++ ['.']) ++ normalizeBaseDomain u baseDomain := by
  rw [normalizeHostname]
  split
  case isTrue => exact ⟨[], by simp, rfl⟩
  case isFalse hne =>
    refine ⟨_, hostnameLabels_words h _ _, intercalate_dots ?_ _⟩
    rw [hostnameLabels]
    split
    · simp
    · simpa using hne

theorem trimWildcards_length (text : Text) : (trimWildcards text).length ≤ text.length := by
  fun_induction trimWildcards text with
  | case1 rest ih =>
    simp only [length_cons]
    omega
  | case2 => exact le_rfl

theorem normalizeBaseDomain_length (previewDomain : Text)
    (hne : normalizeBaseDomain u previewDomain ≠ defaultBaseDomain) :
    (normalizeBaseDomain u previewDomain).length ≤ previewDomain.length := by
  rw [normalizeBaseDomain] at hne ⊢
  split at hne
  case isTrue => exact absurd rfl hne
  case isFalse hfull =>
    rw [if_neg hfull, toAsciiLowercase, length_map]
    calc (trimEnd '.' (trimWildcards (u.trim previewDomain))).length
        ≤ (trimWildcards (u.trim previewDomain)).length := (trimEnd_isPrefix _).length_le
      _ ≤ (u.trim previewDomain).length := trimWildcards_length _
      _ ≤ previewDomain.length := by
        simp only [Tables.trim, length_reverse]
        refine (dropWhile_suffix _).length_le.trans ?_
        rw [length_reverse]
        exact (dropWhile_suffix _).length_le

theorem ValidLabel.no_dot {label : Text} (hvalid : ValidLabel label) : '.' ∉ label :=
  fun hmem ↦ isLabelChar_ne_dot (hvalid.chars '.' hmem) rfl

theorem normalizeHostname_ne (first second raw base : Text) (forceSingleLabel : Bool) :
    namespacedServiceLabel h first second ++ '.' :: base ≠
      normalizeHostname u h raw base forceSingleLabel := by
  intro heq
  have hdot := (namespacedServiceLabel_valid h first second).no_dot
  have hdouble := namespacedServiceLabel_not_spaced h first second
  obtain ⟨labels, hlabels, hhost⟩ := normalizeHostname_labels h u raw base forceSingleLabel
  rw [hhost] at heq
  cases labels with
  | cons label labels =>
    obtain ⟨hword, hvalid⟩ := hlabels label (by simp)
    rw [flatMap_cons, append_assoc, append_assoc] at heq
    have hfront := (append_sep_inj hdot hvalid.no_dot heq).1
    exact hdouble (hfront ▸ hword.spaced)
  | nil =>
    rw [flatMap_nil, nil_append] at heq
    by_cases hdefault : normalizeBaseDomain u base = defaultBaseDomain
    · rw [hdefault, show defaultBaseDomain = "localho".toList ++ '.' :: "st".toList from rfl] at heq
      have hfront := (append_sep_inj hdot (by decide) heq).1
      rw [hfront] at hdouble
      exact hdouble (word_of_not_mem (by decide) (by decide)).spaced
    · have hle := normalizeBaseDomain_length u base hdefault
      rw [← heq] at hle
      simp only [length_append, length_cons] at hle
      omega

structure ServiceName where
  environment : Text
  service : Text

namespace PublicHostnameStrategy

variable (strategy : PublicHostnameStrategy) (previewDomain : Text)

def halves (n : ServiceName) : Text × Text :=
  match strategy with
  | .standard => (n.service, n.environment)
  | .flat => (n.environment, n.service)

def joined (n : ServiceName) : Text := joinedName (strategy.halves n).1 (strategy.halves n).2

/-- The squatter's pair spells out the cut label of the victim's pair. -/
def Squats (victim squatter : ServiceName) : Prop :=
  Forges h (strategy.halves victim).1 (strategy.halves victim).2 (strategy.halves squatter).1
    (strategy.halves squatter).2

def NoCollision (n m : ServiceName) : Prop :=
  dnsLabelMaxLen < (strategy.joined n).length → dnsLabelMaxLen < (strategy.joined m).length →
    h.shortHash (strategy.joined n) = h.shortHash (strategy.joined m) →
      strategy.joined n = strategy.joined m

/-- What keeps the hostnames of two services, and of every environment and deployment under the
same domain, apart and well formed. -/
structure Unsquattable (n m : ServiceName) : Prop where
  injective : strategy.serviceHostname u h previewDomain n.environment n.service =
      strategy.serviceHostname u h previewDomain m.environment m.service →
    sanitizeLabel n.environment = sanitizeLabel m.environment ∧
      sanitizeLabel n.service = sanitizeLabel m.service
  separate : ∀ (other : PublicHostnameStrategy) (name : Text), '.' ∉ name →
    strategy.serviceHostname u h previewDomain n.environment n.service ≠
        other.environmentHostname u h previewDomain name ∧
      strategy.serviceHostname u h previewDomain n.environment n.service ≠
        other.deploymentHostname u h previewDomain name
  serviceLabel : ∃ label, ValidLabel label ∧
    strategy.serviceHostname u h previewDomain n.environment n.service =
      label ++ '.' :: normalizeBaseDomain u previewDomain
  otherLabels : ∀ project environment deployment : Text,
    let base := normalizeBaseDomain u (normalizeBaseDomain u previewDomain)
    Generated base (strategy.environmentHostname u h previewDomain environment) ∧
      Generated base (strategy.deploymentHostname u h previewDomain deployment) ∧
      Generated base
        (strategy.projectDeploymentHostname u h previewDomain project environment deployment)

variable {h}

theorem serviceHostname_eq (n : ServiceName) :
    strategy.serviceHostname u h previewDomain n.environment n.service =
      namespacedServiceLabel h (strategy.halves n).1 (strategy.halves n).2 ++
        '.' :: normalizeBaseDomain u previewDomain := by
  cases strategy <;> rfl

theorem halves_sanitized {n m : ServiceName} :
    (sanitizeLabel (strategy.halves n).1 = sanitizeLabel (strategy.halves m).1 ∧
        sanitizeLabel (strategy.halves n).2 = sanitizeLabel (strategy.halves m).2) ↔
      sanitizeLabel n.environment = sanitizeLabel m.environment ∧
        sanitizeLabel n.service = sanitizeLabel m.service := by
  cases strategy with
  | standard => exact and_comm
  | flat => exact Iff.rfl

theorem normalizeHostname_generated (raw base : Text) (forceSingleLabel : Bool) :
    Generated (normalizeBaseDomain u base) (normalizeHostname u h raw base forceSingleLabel) := by
  obtain ⟨labels, hlabels, hhost⟩ := normalizeHostname_labels h u raw base forceSingleLabel
  exact ⟨labels, fun label hmem ↦ (hlabels label hmem).2, hhost⟩

theorem serviceHostname_cases {n m : ServiceName} (hfree : strategy.NoCollision h n m)
    (heq : strategy.serviceHostname u h previewDomain n.environment n.service =
      strategy.serviceHostname u h previewDomain m.environment m.service) :
    (sanitizeLabel n.environment = sanitizeLabel m.environment ∧
        sanitizeLabel n.service = sanitizeLabel m.service) ∨
      strategy.Squats h n m ∨ strategy.Squats h m n := by
  rw [serviceHostname_eq, serviceHostname_eq] at heq
  have hlabel := append_cancel_right heq
  exact (label_eq_cases hfree hlabel).imp_left strategy.halves_sanitized.mp

theorem Squats.hostname_eq {strategy : PublicHostnameStrategy} {n m : ServiceName}
    (hs : strategy.Squats h n m) :
    strategy.serviceHostname u h previewDomain n.environment n.service =
      strategy.serviceHostname u h previewDomain m.environment m.service := by
  rw [serviceHostname_eq, serviceHostname_eq, Forges.label_eq hs]

theorem Squats.sanitized_ne {strategy : PublicHostnameStrategy} {n m : ServiceName}
    (hs : strategy.Squats h n m) :
    ¬ (sanitizeLabel n.environment = sanitizeLabel m.environment ∧
      sanitizeLabel n.service = sanitizeLabel m.service) :=
  fun heq ↦ Forges.ne hs (strategy.halves_sanitized.mpr heq)

/-- Generated hostnames cannot be squatted, unless a long first half is cut back to a name of 53
characters and the hash behind it is taken for the second half of a short pair. -/
theorem unsquattable_iff (n m : ServiceName) (hfree : strategy.NoCollision h n m) :
    strategy.Unsquattable h u previewDomain n m ↔
      ¬ strategy.Squats h n m ∧ ¬ strategy.Squats h m n := by
  constructor
  · intro hsafe
    refine ⟨fun hs ↦ ?_, fun hs ↦ ?_⟩
    · exact hs.sanitized_ne (hsafe.injective (hs.hostname_eq u previewDomain))
    · obtain ⟨henv, hservice⟩ := hsafe.injective (hs.hostname_eq u previewDomain).symm
      exact hs.sanitized_ne ⟨henv.symm, hservice.symm⟩
  · rintro ⟨hnm, hmn⟩
    refine ⟨fun heq ↦ ?_, fun other name _ ↦ ?_, ?_, fun project environment deployment ↦ ?_⟩
    · rcases strategy.serviceHostname_cases u previewDomain hfree heq with hsame | hs | hs
      · exact hsame
      · exact absurd hs hnm
      · exact absurd hs hmn
    · have hne := normalizeHostname_ne h u (strategy.halves n).1 (strategy.halves n).2
        (name ++ '.' :: normalizeBaseDomain u previewDomain) (normalizeBaseDomain u previewDomain)
        other.forceSingleLabel
      rw [← serviceHostname_eq] at hne
      exact ⟨hne, hne⟩
    · exact ⟨_, namespacedServiceLabel_valid h _ _, strategy.serviceHostname_eq u previewDomain n⟩
    · have hgen (raw : Text) := normalizeHostname_generated (h := h) u raw
        (normalizeBaseDomain u previewDomain) strategy.forceSingleLabel
      exact ⟨hgen _, hgen _, hgen _⟩

end PublicHostnameStrategy

/-- The digits that SHA-256 gives for sixty times `a`, the separator and `prod`. -/
def sampleHash : ShortHash where
  shortHash _ := "0773f2c9".toList
  length_eq _ := rfl
  hex _ := List.all_eq_true.mp rfl

def sampleDomain : Text := "example.com".toList

def filesService : ServiceName := ⟨"staging".toList, "files".toList⟩

def longService : ServiceName := ⟨"prod".toList, List.replicate 60 'a'⟩

def forgedService : ServiceName := ⟨"0773f2c9".toList, List.replicate 53 'a'⟩

theorem unsquattable_files :
    PublicHostnameStrategy.standard.Unsquattable sampleHash asciiTables sampleDomain filesService
      longService := by
  refine (PublicHostnameStrategy.unsquattable_iff asciiTables .standard sampleDomain filesService
    longService ?_).mpr ⟨?_, ?_⟩
  · exact fun hlong ↦ absurd hlong (by decide)
  · exact fun hs ↦ absurd hs.long (by decide)
  · exact fun hs ↦ absurd hs.back (by decide +kernel)

/-- The service `a…a` (60 letters) of `prod` and the service `a…a` (53 letters) of an environment
named like the hash share a hostname. -/
theorem cut_label_is_forged :
    PublicHostnameStrategy.standard.serviceHostname asciiTables sampleHash sampleDomain
        longService.environment longService.service =
      PublicHostnameStrategy.standard.serviceHostname asciiTables sampleHash sampleDomain
        forgedService.environment forgedService.service ∧
    ¬ (sanitizeLabel longService.environment = sanitizeLabel forgedService.environment ∧
      sanitizeLabel longService.service = sanitizeLabel forgedService.service) := by
  decide

end Temps.Core.PublicHostname
