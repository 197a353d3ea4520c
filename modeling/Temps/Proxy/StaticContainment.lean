import Mathlib.Data.List.Find
import Temps.Proxy.StaticFileServing

namespace Temps.Proxy.StaticFileServing

open Core.StaticFiles Lib.Fields Lib.Utf8 List

variable {disk : Disk} {published : Published} {root dir raw path : Text} {c : StaticCandidate}

/-- A reference that keeps the origin: a path that does not start like an authority. A backslash is
read as a slash there. -/
def sameOrigin : Text → Bool
  | '/' :: c :: _ => c ≠ '/' && c ≠ '\\'
  | ['/'] => true
  | _ => false

/-- The path is the directory followed by clean components, at most the limit of them. -/
def Within (dir path : Text) : Prop :=
  ∃ below, path.splitOn '/' = dir.splitOn '/' ++ below ∧ below ≠ [] ∧
    (∀ name ∈ below, Clean name) ∧ below.length ≤ maxStaticPathComponents

structure Contained (disk : Disk) (root dir raw : Text) : Prop where
  directory : ∀ d, validateStaticDir dir = .ok d → ∀ name ∈ d.splitOn '/', Clean name
  candidates : ∀ d path, validateStaticDir dir = .ok d → normalizeStaticRequestPath raw = .ok path →
    ∀ c ∈ staticRequestCandidates path (isDirectoryRequest raw),
      Within d (staticObjectKey d c.path) ∧
        Within (pathJoin root d) (pathJoin (pathJoin root d) c.path)
  views : ∀ path, normalizeStaticRequestPath raw = .ok path → ∃ once twice,
    fromUtf8 (percentDecodeOnce (encode raw)) = some once ∧
    fromUtf8 (percentDecodeOnce (percentDecodeOnce (encode raw))) = some twice ∧
    path = relativeView once ∧ isSensitiveStaticPath (relativeView once) = false ∧
    isSensitiveStaticPath (relativeView twice) = false
  agreement : (openStaticFile disk root dir raw).toOption =
    serveStaticFileFromStore disk.toPublished dir raw
  redirects : ∀ query location,
    redirect (openStaticFile disk root dir raw).toOption raw query = some location ∨
      redirect (serveStaticFileFromStore disk.toPublished dir raw) raw query = some location →
    sameOrigin location = true

/-- The filesystem looks up every candidate before the first published one, which the publication
policy lets through. -/
def Reachable (disk : Disk) (cs : List StaticCandidate) : Prop :=
  ∀ before k after, cs = before ++ k :: after →
    (∀ c ∈ before, names c.path ∉ disk.files) → names k.path ∈ disk.files →
      (∀ c ∈ before, disk.walk [] (names c.path) ≠ .refused) ∧
        validateStaticArtifactPath k.path = .ok ()

/-- The path also leaves room for an index page below it. -/
def Resolvable (disk : Disk) (dir raw : Text) : Prop :=
  ∀ d path, validateStaticDir dir = .ok d → normalizeStaticRequestPath raw = .ok path →
    (components path).length < maxStaticPathComponents ∧
      Reachable disk (staticRequestCandidates path (isDirectoryRequest raw))

theorem sameOrigin_location {query : Option Text} {location : Text}
    (h : canonicalRedirectLocation raw query = some location) : sameOrigin location := by
  obtain ⟨-, h⟩ := Option.ite_none_right_eq_some.mp h
  obtain ⟨hpath, h⟩ := Option.ite_none_left_eq_some.mp h
  generalize raw.dropLast = path at hpath h
  simp only [not_or, not_not] at hpath
  obtain ⟨hhead, hslashes, hback⟩ := hpath
  obtain ⟨rest, rfl⟩ : ∃ rest, path = '/' :: rest := by
    cases path with
    | nil => cases hhead
    | cons c rest => exact ⟨rest, by simpa using hhead⟩
  have hnext : ∀ tail, (∀ c rest, tail = c :: rest → c ≠ '/' ∧ c ≠ '\\') →
      sameOrigin ('/' :: tail) := by
    intro tail htail
    cases tail with
    | nil => rfl
    | cons c rest => simpa [sameOrigin] using htail c rest rfl
  have hfirst : ∀ c tail, rest = c :: tail → c ≠ '/' ∧ c ≠ '\\' := by
    rintro c tail rfl
    exact ⟨fun hc ↦ hslashes (by simp [hc]), fun hc ↦ hback (by simp [hc])⟩
  cases hquery : query.filter (· ≠ []) with
  | none =>
    rw [hquery] at h
    cases h
    exact hnext rest hfirst
  | some text =>
    rw [hquery] at h
    cases h
    refine hnext _ fun c tail hc ↦ ?_
    cases rest with
    | nil =>
      cases hc
      decide
    | cons d rest =>
      cases hc
      exact hfirst _ _ rfl

theorem clean_page {page : Text} (h : page = indexPage ∨ page = staticNotFoundPage) :
    page.splitOn '/' = [page] ∧ Clean page := by
  rcases h with rfl | rfl
  all_goals exact ⟨by decide, by decide, by decide, by decide, by decide, by decide, by decide⟩

variable {directory : Bool} {cs : List StaticCandidate} {base : Text}

theorem mem_staticRequestCandidates (h : c ∈ staticRequestCandidates path directory) :
    (c.path = indexPage ∨ c.path = staticNotFoundPage) ∨ path ≠ [] ∧
      (c.path = path ∨ c.path = pathJoin path indexPage ∨ c.path = path ++ ".html".toList) := by
  have hhtml : (htmlCandidate path directory).path = path ++ ".html".toList := by
    rw [htmlCandidate]
    split <;> rfl
  rw [staticRequestCandidates, mem_append, mem_append] at h
  rcases h with (h | h) | h
  · by_cases hroot : path = []
    · rw [if_pos hroot, mem_singleton] at h
      exact .inl (.inl (congrArg StaticCandidate.path h))
    · rw [if_neg hroot, mem_cons, mem_cons] at h
      refine .inr ⟨hroot, ?_⟩
      rcases h with rfl | rfl | h
      · exact .inl rfl
      · exact .inr (.inl rfl)
      · obtain ⟨-, h⟩ := mem_ite_nil_right.mp h
        rw [mem_singleton.mp h]
        exact .inr (.inr hhtml)
  · obtain ⟨-, h⟩ := mem_ite_nil_left.mp h
    rw [mem_singleton.mp h]
    exact .inl (.inr rfl)
  · obtain ⟨-, h⟩ := mem_ite_nil_right.mp h
    rw [mem_singleton.mp h]
    exact .inl (.inl rfl)

theorem clean_html {name : Text} (h : Clean name) : Clean (name ++ ".html".toList) := by
  have hlength : 5 ≤ (name ++ ".html".toList).length := by simp
  have hshort : ∀ short : Text, short.length < 5 → name ++ ".html".toList ≠ short :=
    fun short hshort heq ↦ absurd (heq ▸ hlength) (Nat.not_le.mpr hshort)
  exact ⟨hshort _ (by decide), hshort _ (by decide), hshort _ (by decide),
    not_mem_append h.noNul (by decide), not_mem_append h.noBackslash (by decide),
    not_mem_append h.noSlash (by decide)⟩

theorem ends_of_fields (h : ∀ name ∈ path.splitOn '/', name ≠ []) :
    path ≠ [] ∧ path.getLast? ≠ some '/' := by
  refine ⟨?_, fun hlast ↦ ?_⟩
  · rintro rfl
    exact h [] (by simp) rfl
  · obtain ⟨front, rfl⟩ := List.getLast?_eq_some_iff.mp hlast
    exact h [] (by rw [splitOn_append_cons_self]; simp) rfl

theorem pathJoin_eq (hbase : base ≠ []) (hlast : base.getLast? ≠ some '/')
    (hpath : path.head? ≠ some '/') : pathJoin base path = base ++ '/' :: path := by
  rw [pathJoin, if_neg (not_or.mpr ⟨hpath, hbase⟩), if_neg hlast]

theorem candidate_fields (hpath : path ≠ [] → Accepted path)
    (h : c ∈ staticRequestCandidates path directory) :
    (∀ name ∈ c.path.splitOn '/', Clean name) ∧
      (c.path.splitOn '/').length ≤ (components path).length + 1 := by
  rcases mem_staticRequestCandidates h with hpage | ⟨hne, hc⟩
  · obtain ⟨hsplit, hclean⟩ := clean_page hpage
    rw [hsplit]
    exact ⟨forall_mem_singleton.mpr hclean, by simp⟩
  · obtain ⟨hclean, -, -⟩ := hpath hne
    rw [components_of_clean hclean, length_map]
    have hfields : ∀ name ∈ path.splitOn '/', name ≠ [] :=
      fun name hname ↦ (hclean name hname).nonempty
    obtain ⟨-, hlast⟩ := ends_of_fields hfields
    rcases hc with hc | hc | hc
    · rw [hc]
      exact ⟨hclean, Nat.le_succ _⟩
    · obtain ⟨hsplit, hindex⟩ := clean_page (.inl rfl)
      rw [hc, pathJoin_eq hne hlast (by decide), splitOn_append_cons_self, length_append]
      exact ⟨forall_mem_append.mpr ⟨hclean, forall_mem_singleton.mpr hindex⟩, Nat.le_refl _⟩
    · obtain ⟨init, last, hsplit⟩ :=
        (eq_nil_or_concat' (path.splitOn '/')).resolve_left (splitOn_ne_nil '/' path)
      rw [hsplit] at hclean
      obtain ⟨hinit, hname⟩ := forall_mem_append.mp hclean
      rw [hc, splitOn_append_free hsplit (by decide), hsplit]
      refine ⟨forall_mem_append.mpr ⟨hinit, ?_⟩, by simp⟩
      exact forall_mem_singleton.mpr (clean_html (hname last (by simp)))

theorem index_mem_candidates (hne : path ≠ []) :
    requestedCandidate (pathJoin path indexPage) ∈ staticRequestCandidates path directory := by
  rw [staticRequestCandidates, if_neg hne]
  simp

theorem names_of_clean (h : ∀ name ∈ path.splitOn '/', Clean name) :
    names path = path.splitOn '/' := by
  rw [names, components_of_clean h, filterMap_map]
  exact filterMap_some

theorem within_join (hclean : ∀ name ∈ path.splitOn '/', Clean name)
    (hdepth : (path.splitOn '/').length ≤ maxStaticPathComponents) :
    Within base (base ++ '/' :: path) :=
  ⟨path.splitOn '/', splitOn_append_cons_self base path, splitOn_ne_nil '/' path, hclean, hdepth⟩

theorem Within.depth (h : Within base (base ++ '/' :: path)) :
    (path.splitOn '/').length ≤ maxStaticPathComponents := by
  obtain ⟨below, hsplit, -, -, hdepth⟩ := h
  rw [splitOn_append_cons_self] at hsplit
  rwa [append_cancel_left hsplit]

theorem pathJoin_ends (hdir : ∀ name ∈ dir.splitOn '/', Clean name) :
    pathJoin root dir ≠ [] ∧ (pathJoin root dir).getLast? ≠ some '/' := by
  obtain ⟨hne, hlast⟩ := ends_of_fields fun name hname ↦ (hdir name hname).nonempty
  rw [pathJoin]
  split
  · exact ⟨hne, hlast⟩
  · split
    · exact ⟨by simp [hne], by rwa [List.getLast?_append_of_ne_nil _ hne]⟩
    · exact ⟨by simp, by rwa [List.getLast?_append_of_ne_nil _ (by simp),
      List.getLast?_cons_of_ne_nil hne]⟩

theorem Disk.walk_file {above below : List Text} (hne : below ≠ []) :
    disk.walk above below = .file ↔ above ++ below ∈ disk.files := by
  have hpath (dir rest : List Text) (name : Text) : dir ++ name :: rest = (dir ++ [name]) ++ rest :=
    by simp
  have hbelow (dir rest : List Text) (name : Text) : (dir ++ [name]) <+: dir ++ name :: rest :=
    hpath dir rest name ▸ prefix_append _ rest
  fun_induction Disk.walk disk above below with
  | case1 => exact absurd rfl hne
  | case2 dir name rest path hrefused =>
    refine iff_of_false nofun fun h ↦ ?_
    rw [disk.stored _ h _ (hbelow ..)] at hrefused
    cases hrefused
  | case3 dir name path _ hfile => exact iff_of_true rfl hfile
  | case4 dir name rest path _ hfile hrest =>
    -- below a file there is nothing
    refine iff_of_false nofun fun h ↦ hrest ?_
    have hsame := disk.tree _ hfile _ h (hbelow ..)
    rwa [hpath, self_eq_append_right] at hsame
  | case5 dir name rest path _ hfile hdir ih =>
    by_cases hrest : rest = []
    · subst hrest
      exact iff_of_false nofun hfile
    · rw [hpath]
      exact ih hrest
  | case6 dir name rest path _ hfile hdir =>
    refine iff_of_false nofun fun h ↦ hdir ?_
    exact any_eq_true.mpr ⟨_, h, isPrefixOf_iff_prefix.mpr (hbelow ..)⟩

theorem mem_keys (h : ∀ name ∈ path.splitOn '/', Clean name) :
    staticObjectKey dir path ∈ published.keys dir ↔ names path ∈ published.files := by
  rw [names_of_clean h, Published.keys, mem_map]
  constructor
  · rintro ⟨file, hfile, hkey⟩
    obtain ⟨hne, hnames⟩ := published.named file hfile
    have hpath : ['/'].intercalate file = path := by
      simpa [staticObjectKey] using hkey
    rwa [← hpath, splitOn_intercalate '/' (fun name hname ↦ (hnames name hname).2) hne]
  · exact fun hfile ↦ ⟨_, hfile, by rw [intercalate_splitOn]⟩

theorem reachable_published (hc : names c.path ∈ disk.files) :
    Reachable disk (c :: cs) ↔ validateStaticArtifactPath c.path = .ok () := by
  refine ⟨fun h ↦ (h [] c cs rfl (by simp) hc).2, fun h before k after hcs hbefore hk ↦ ?_⟩
  cases before with
  | nil =>
    cases hcs
    exact ⟨by simp, h⟩
  | cons b before =>
    cases hcs
    exact absurd hc (hbefore c mem_cons_self)

theorem reachable_passed (hc : names c.path ∉ disk.files)
    (hentry : disk.walk [] (names c.path) ≠ .refused) :
    Reachable disk (c :: cs) ↔ Reachable disk cs := by
  constructor
  · rintro h before k after rfl hbefore hk
    obtain ⟨hlooked, hvalid⟩ := h (c :: before) k after rfl
      (forall_mem_cons.mpr ⟨hc, hbefore⟩) hk
    exact ⟨(forall_mem_cons.mp hlooked).2, hvalid⟩
  · intro h before k after hcs hbefore hk
    cases before with
    | nil =>
      cases hcs
      exact absurd hk hc
    | cons b before =>
      cases hcs
      obtain ⟨hlooked, hvalid⟩ := h before k after rfl (forall_mem_cons.mp hbefore).2 hk
      exact ⟨forall_mem_cons.mpr ⟨hentry, hlooked⟩, hvalid⟩

theorem reachable_refused (hc : names c.path ∉ disk.files)
    (hentry : disk.walk [] (names c.path) = .refused) :
    Reachable disk (c :: cs) ↔ cs.find? (fun c ↦ decide (names c.path ∈ disk.files)) = none := by
  constructor
  · intro h
    by_contra hfound
    obtain ⟨k, hk⟩ := Option.ne_none_iff_exists'.mp hfound
    obtain ⟨hpublished, before, after, rfl, hbefore⟩ := List.find?_eq_some_iff_append.mp hk
    obtain ⟨hlooked, -⟩ := h (c :: before) k after rfl
      (forall_mem_cons.mpr ⟨hc, by simpa using hbefore⟩)
      (of_decide_eq_true hpublished)
    exact hlooked c mem_cons_self hentry
  · intro hnone before k after hcs _ hk
    cases before with
    | nil =>
      cases hcs
      exact absurd hk hc
    | cons b before =>
      cases hcs
      have := List.find?_eq_none.mp hnone k (by simp)
      exact absurd (decide_eq_true hk) this

theorem resolveCandidates_agrees {requested : Text} (hnames : ∀ c ∈ cs, names c.path ≠ []) :
    (resolveCandidates disk root requested cs).toOption =
        cs.find? (fun c ↦ decide (names c.path ∈ disk.files)) ↔ Reachable disk cs := by
  induction cs with
  | nil => simp [resolveCandidates, Except.toOption, Reachable]
  | cons c cs ih =>
    obtain ⟨hc, hcs⟩ := forall_mem_cons.mp hnames
    have hwalk : disk.walk [] (names c.path) = .file ↔ names c.path ∈ disk.files :=
      Disk.walk_file hc
    by_cases hpublished : names c.path ∈ disk.files
    · have hentry := hwalk.mpr hpublished
      rw [List.find?_cons_of_pos (by simpa using hpublished), reachable_published hpublished,
        resolveCandidates, hentry]
      cases hvalid : validateStaticArtifactPath c.path with
      | error reason | ok _ => simp [Except.toOption]
    · rw [List.find?_cons_of_neg (by simpa using hpublished), resolveCandidates]
      cases hentry : disk.walk [] (names c.path) with
      | file => exact absurd (hwalk.mp hentry) hpublished
      | refused =>
        rw [reachable_refused hpublished hentry]
        exact eq_comm
      | directory | missing =>
        rw [reachable_passed hpublished (by simp [hentry])]
        exact ih hcs

theorem accepted_of_normalized (h : normalizeStaticRequestPath raw = .ok path) :
    path ≠ [] → Accepted path := by
  obtain ⟨-, -, -, haccepted⟩ := validateDecodedRequestPath_ok (normalizeStaticRequestPath_ok h).1
  exact haccepted

theorem agreement_iff (hdir : validateStaticDir dir = .ok dir)
    (hpath : normalizeStaticRequestPath raw = .ok path) :
    (openStaticFile disk root dir raw).toOption =
        serveStaticFileFromStore disk.toPublished dir raw ↔
      Reachable disk (staticRequestCandidates path (isDirectoryRequest raw)) := by
  have hclean : ∀ c ∈ staticRequestCandidates path (isDirectoryRequest raw),
      ∀ name ∈ c.path.splitOn '/', Clean name :=
    fun c hc ↦ (candidate_fields (accepted_of_normalized hpath) hc).1
  have hstore : serveStaticFileFromStore disk.toPublished dir raw =
      (staticRequestCandidates path (isDirectoryRequest raw)).find?
        fun c ↦ decide (names c.path ∈ disk.files) := by
    rw [serveStaticFileFromStore, resolveStaticObjectRequest, hdir, hpath]
    refine find?_congr fun c hc ↦ ?_
    rw [Bool.eq_iff_iff, contains_iff_mem, mem_keys (hclean c hc), decide_eq_true_iff]
  have hdisk : openStaticFile disk root dir raw = resolveCandidates disk (pathJoin root dir)
      (pathJoin (pathJoin root dir) path)
      (staticRequestCandidates path (isDirectoryRequest raw)) := by
    rw [openStaticFile, hdir, hpath]
  rw [hstore, hdisk]
  refine resolveCandidates_agrees fun c hc ↦ ?_
  rw [names_of_clean (hclean c hc)]
  exact splitOn_ne_nil '/' c.path

theorem notSensitive_of_ok {bytes : Temps.Lib.Octets.Bytes}
    (h : validateDecodedRequestPath bytes = .ok path) : isSensitiveStaticPath path = false := by
  obtain ⟨-, -, -, haccepted⟩ := validateDecodedRequestPath_ok h
  by_cases hroot : path = []
  · rw [hroot]
    decide
  · exact (haccepted hroot).notSensitive

theorem candidates_within_iff (hdir : ∀ name ∈ dir.splitOn '/', Clean name)
    (hpath : normalizeStaticRequestPath raw = .ok path) :
    (∀ c ∈ staticRequestCandidates path directory, Within dir (staticObjectKey dir c.path) ∧
        Within (pathJoin root dir) (pathJoin (pathJoin root dir) c.path)) ↔
      (components path).length < maxStaticPathComponents := by
  have haccepted := accepted_of_normalized hpath
  constructor
  · intro h
    by_cases hroot : path = []
    · rw [hroot]
      decide
    · obtain ⟨hclean, -, -⟩ := haccepted hroot
      obtain ⟨-, hlast⟩ := ends_of_fields fun name hname ↦ (hclean name hname).nonempty
      have hindex := (h _ (index_mem_candidates hroot)).1.depth
      rw [requestedCandidate, pathJoin_eq hroot hlast (by decide), splitOn_append_cons_self,
        length_append] at hindex
      rw [components_of_clean hclean, length_map]
      exact hindex
  · intro h c hc
    obtain ⟨hclean, hdepth⟩ := candidate_fields haccepted hc
    have hdepth : (c.path.splitOn '/').length ≤ maxStaticPathComponents := Nat.le_trans hdepth h
    have hrelative := relative_of_fields fun name hname ↦ (hclean name hname).nonempty
    obtain ⟨hne, hlast⟩ : pathJoin root dir ≠ [] ∧ (pathJoin root dir).getLast? ≠ some '/' :=
      pathJoin_ends hdir
    refine ⟨within_join hclean hdepth, ?_⟩
    rw [pathJoin_eq hne hlast hrelative]
    exact within_join hclean hdepth

def sampleDisk : Disk where
  files := [[indexPage]]
  named := by decide
  tree := by decide
  refuses path := path.any fun name ↦ 255 < (encode name).length
  stored := by
    intro file hfile path hpath
    rw [List.mem_singleton.mp hfile, List.prefix_cons_iff] at hpath
    rcases hpath with rfl | ⟨rest, rfl, hrest⟩
    · rfl
    · rw [List.prefix_nil.mp hrest]
      decide

def longRequest : Text := '/' :: List.replicate 256 'a'

end Temps.Proxy.StaticFileServing
