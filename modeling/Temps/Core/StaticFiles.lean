import Temps.Lib.Fallible
import Temps.Lib.Fields
import Temps.Lib.Utf8

namespace Temps.Core.StaticFiles

open Lib.Fallible Lib.Fields Lib.Octets Lib.Utf8 List

abbrev Text := List Char

def maxStaticAssetUrlPathBytes : ℕ := 4 * 1024

def maxStaticPathComponents : ℕ := 64

inductive StaticPathPolicyError where
  | empty
  | absolute
  | notClean
  | tooLong
  | tooDeep
  | nonUtf8
  | sensitive
  deriving DecidableEq

inductive Component where
  | rootDir
  | curDir
  | parentDir
  | normal (name : Text)
  deriving DecidableEq

def component : Text → List Component
  | [] => []
  | ['.'] => []
  | ['.', '.'] => [.parentDir]
  | name => [.normal name]

/-- `Path::components`: only a dot at the very beginning is kept. -/
def components (path : Text) : List Component :=
  (if path.head? = some '/' then [.rootDir] else []) ++
    match path.splitOn '/' with
    | [] => []
    | first :: rest =>
      (if first = ['.'] then [.curDir] else component first) ++ rest.flatMap component

def checkComponents : ℕ → List Component → Except StaticPathPolicyError Unit
  | _, [] => .ok ()
  | count, .normal _ :: rest =>
    if maxStaticPathComponents < count + 1 then .error .tooDeep else checkComponents (count + 1) rest
  | _, .rootDir :: _ => .error .absolute
  | _, .curDir :: _ | _, .parentDir :: _ => .error .notClean

def validateCleanRelativePath (path : Text) (allowEmpty : Bool) :
    Except StaticPathPolicyError Unit :=
  if path = [] then
    if allowEmpty then .ok () else .error .empty
  else if path.head? = some '/' then .error .absolute
  else checkComponents 0 (components path)

def sensitiveNames : List String :=
  ["id_rsa", "id_dsa", "id_ecdsa", "id_ed25519", "credentials", "credentials.json", "secrets.json",
    "kubeconfig", "client_secret.json", "client_secrets.json", "service-account.json",
    "service-account-key.json", "service_account.json", "service_account_key.json",
    "serviceaccountkey.json"]

def sensitiveEndings : List String :=
  [".env", ".pem", ".key", ".ppk", ".p12", ".pfx", ".jks", ".keystore", ".tfvars", ".map", ".sql",
    ".sqlite", ".sqlite3", ".bak", ".backup", ".orig", ".swp"]

def isSensitiveComponent (index : ℕ) : Component → Bool
  | .normal name =>
    let lower := name.map Char.toLower
    (lower.head? = some '.' && !(index = 0 && lower = ".well-known".toList)) ||
      sensitiveNames.any (lower = ·.toList) ||
      sensitiveEndings.any (·.toList.isSuffixOf lower) ||
      ".tfstate".toList.isSuffixOf lower || decide (".tfstate.".toList <:+: lower) ||
      decide (".env.".toList <:+: lower)
  | _ => true

def isSensitiveStaticPath (path : Text) : Bool :=
  (components path).zipIdx.any fun (component, index) ↦ isSensitiveComponent index component

def validateStaticArtifactPath (path : Text) : Except StaticPathPolicyError Unit := do
  validateCleanRelativePath path false
  if isSensitiveStaticPath path then .error .sensitive else .ok ()

def validateStaticDir (path : Text) : Except StaticPathPolicyError Text := do
  if path = [] then .error .empty
  else if '\x00' ∈ path ∨ '\\' ∈ path then .error .notClean
  else if maxStaticAssetUrlPathBytes < (encode path).length then .error .tooLong
  else if (encode path)[1]? = some 58 then .error .absolute
  else if (path.splitOn '/').any fun component ↦ component = [] || component = ['.'] then
    .error .notClean
  else
    validateCleanRelativePath path false
    .ok path

def hexValue (value : UInt8) : Option UInt8 :=
  if 48 ≤ value ∧ value ≤ 57 then some (value - 48)
  else if 97 ≤ value ∧ value ≤ 102 then some (value - 97 + 10)
  else if 65 ≤ value ∧ value ≤ 70 then some (value - 65 + 10)
  else none

def percentByte (sign high low : UInt8) : Option UInt8 :=
  if sign = 37 then
    match hexValue high, hexValue low with
    | some high, some low => some (high <<< 4 ||| low)
    | _, _ => none
  else none

def percentDecodeOnce : Bytes → Bytes
  | sign :: high :: low :: rest =>
    match percentByte sign high low with
    | some byte => byte :: percentDecodeOnce rest
    | none => sign :: percentDecodeOnce (high :: low :: rest)
  | byte :: rest => byte :: percentDecodeOnce rest
  | [] => []

def fromUtf8 (bytes : Bytes) : Option Text :=
  if encode (decodeLossy bytes) = bytes then some (decodeLossy bytes) else none

def stripLeadingSlash (text : Text) : Text := if text.head? = some '/' then text.tail else text

def stripTrailingSlash (text : Text) : Text :=
  if text.getLast? = some '/' then text.dropLast else text

def validateDecodedRequestPath (decoded : Bytes) : Except StaticPathPolicyError Text :=
  if 0 ∈ decoded then .error .notClean
  else
    match fromUtf8 decoded with
    | none => .error .nonUtf8
    | some decoded =>
      let relative := stripLeadingSlash decoded
      if relative.head? = some '/' ∨ '\\' ∈ relative then .error .notClean
      else
        let relative := stripTrailingSlash relative
        if relative = [] then .ok []
        else if (relative.splitOn '/').any fun component ↦ component = [] || component = ['.'] then
          .error .notClean
        else do
          validateStaticArtifactPath relative
          .ok relative

def normalizeStaticRequestPath (rawPath : Text) : Except StaticPathPolicyError Text :=
  if maxStaticAssetUrlPathBytes < (encode rawPath).length then .error .tooLong
  else if '\x00' ∈ rawPath then .error .notClean
  else do
    let decoded := percentDecodeOnce (encode rawPath)
    let secondView := percentDecodeOnce decoded
    let _ ← validateDecodedRequestPath secondView
    validateDecodedRequestPath decoded

variable {path raw : Text} {bytes : Bytes}

/-- A component that names an entry of the directory it stands in. -/
structure Clean (name : Text) : Prop where
  nonempty : name ≠ []
  notDot : name ≠ ['.']
  notParent : name ≠ ['.', '.']
  noNul : '\x00' ∉ name
  noBackslash : '\\' ∉ name
  noSlash : '/' ∉ name

theorem component_eq {name : Text} (hempty : name ≠ []) (hdot : name ≠ ['.'])
    (hparent : name ≠ ['.', '.']) : component name = [.normal name] := by
  unfold component
  split
  · exact absurd rfl hempty
  · exact absurd rfl hdot
  · exact absurd rfl hparent
  · rfl

theorem relative_of_fields (h : ∀ name ∈ path.splitOn '/', name ≠ []) : path.head? ≠ some '/' := by
  cases path with
  | nil => simp
  | cons c rest =>
    rintro hc
    obtain rfl : c = '/' := by simpa using hc
    have hfirst : ([] ++ '/' :: rest).splitOn '/' = [[]] ++ rest.splitOn '/' :=
      splitOn_append_cons_self [] rest
    exact h [] (by rw [← nil_append ('/' :: rest), hfirst]; simp) rfl

section

variable (hempty : ∀ name ∈ path.splitOn '/', name ≠ [])
  (hdot : ∀ name ∈ path.splitOn '/', name ≠ ['.'])
include hempty hdot

theorem components_of_fields : components path = (path.splitOn '/').flatMap component := by
  rw [components, if_neg (relative_of_fields hempty), nil_append]
  obtain ⟨first, rest, hsplit⟩ := exists_cons_of_ne_nil (splitOn_ne_nil '/' path)
  rw [hsplit] at hdot ⊢
  simp only [if_neg (hdot first mem_cons_self), flatMap_cons]

theorem components_of_proper (hparent : ∀ name ∈ path.splitOn '/', name ≠ ['.', '.']) :
    components path = (path.splitOn '/').map .normal := by
  rw [components_of_fields hempty hdot, map_eq_flatMap]
  exact flatMap_congr fun name hname ↦
    component_eq (hempty name hname) (hdot name hname) (hparent name hname)

end

theorem components_of_clean (h : ∀ name ∈ path.splitOn '/', Clean name) :
    components path = (path.splitOn '/').map .normal :=
  components_of_proper (fun name hname ↦ (h name hname).nonempty)
    (fun name hname ↦ (h name hname).notDot) fun name hname ↦ (h name hname).notParent

theorem checkComponents_ok {count : ℕ} {cs : List Component}
    (hcount : count ≤ maxStaticPathComponents) : checkComponents count cs = .ok () ↔
      (∀ c ∈ cs, ∃ name, c = .normal name) ∧ count + cs.length ≤ maxStaticPathComponents := by
  induction cs generalizing count with
  | nil => simp [checkComponents, hcount]
  | cons c cs ih =>
    cases c with
    | normal name =>
      rw [checkComponents, guard_eq_ok, Nat.not_lt, forall_mem_cons, length_cons]
      constructor
      · rintro ⟨hlt, h⟩
        obtain ⟨hall, hle⟩ := (ih hlt).mp h
        exact ⟨⟨⟨name, rfl⟩, hall⟩, by omega⟩
      · rintro ⟨⟨-, hall⟩, hle⟩
        exact ⟨by omega, (ih (by omega)).mpr ⟨hall, by omega⟩⟩
    | rootDir | curDir | parentDir => simp [checkComponents]

theorem validateCleanRelativePath_ok (hempty : ∀ name ∈ path.splitOn '/', name ≠ [])
    (hdot : ∀ name ∈ path.splitOn '/', name ≠ ['.'])
    (h : validateCleanRelativePath path false = .ok ()) :
    (∀ name ∈ path.splitOn '/', name ≠ ['.', '.']) ∧
      (path.splitOn '/').length ≤ maxStaticPathComponents := by
  have hne : path ≠ [] := by
    rintro rfl
    exact hempty [] (by simp) rfl
  rw [validateCleanRelativePath, if_neg hne, if_neg (relative_of_fields hempty)] at h
  obtain ⟨hall, hdepth⟩ := (checkComponents_ok (Nat.zero_le _)).mp h
  have hparent : ∀ name ∈ path.splitOn '/', name ≠ ['.', '.'] := by
    rintro name hname rfl
    rw [components_of_fields hempty hdot] at hall
    obtain ⟨name, hname⟩ := hall .parentDir (mem_flatMap.mpr ⟨_, hname, by simp [component]⟩)
    cases hname
  refine ⟨hparent, ?_⟩
  rwa [components_of_proper hempty hdot hparent, Nat.zero_add, length_map] at hdepth

structure Accepted (path : Text) : Prop where
  clean : ∀ name ∈ path.splitOn '/', Clean name
  depth : (path.splitOn '/').length ≤ maxStaticPathComponents
  notSensitive : isSensitiveStaticPath path = false

def relativeView (decoded : Text) : Text := stripTrailingSlash (stripLeadingSlash decoded)

theorem clean_of_parts (hnul : '\x00' ∉ path) (hback : '\\' ∉ path)
    (hempty : ∀ name ∈ path.splitOn '/', name ≠ []) (hdot : ∀ name ∈ path.splitOn '/', name ≠ ['.'])
    (hparent : ∀ name ∈ path.splitOn '/', name ≠ ['.', '.']) :
    ∀ name ∈ path.splitOn '/', Clean name := fun name hname ↦
  ⟨hempty name hname, hdot name hname, hparent name hname,
    fun h ↦ hnul (subset_of_mem_splitOn hname h), fun h ↦ hback (subset_of_mem_splitOn hname h),
    not_mem_of_mem_splitOn hname⟩

theorem stripTrailingSlash_subset (text : Text) : stripTrailingSlash text ⊆ text := by
  rw [stripTrailingSlash]
  split
  · exact (dropLast_sublist text).subset
  · exact List.Subset.refl text

theorem stripLeadingSlash_subset (text : Text) : stripLeadingSlash text ⊆ text := by
  rw [stripLeadingSlash]
  split
  · exact (tail_sublist text).subset
  · exact List.Subset.refl text

theorem fields_of_check
    (h : ¬ (path.splitOn '/').any (fun component ↦ component = [] || component = ['.'])) :
    (∀ name ∈ path.splitOn '/', name ≠ []) ∧ ∀ name ∈ path.splitOn '/', name ≠ ['.'] := by
  simp only [any_eq_true, Bool.or_eq_true, decide_eq_true_eq, not_exists, not_and, not_or] at h
  exact ⟨fun name hname ↦ (h name hname).1, fun name hname ↦ (h name hname).2⟩

theorem zero_mem_of_nul {decoded : Text} (h : fromUtf8 bytes = some decoded)
    (hnul : '\x00' ∈ decoded) : 0 ∈ bytes := by
  obtain ⟨hbytes, htext⟩ := Option.ite_none_right_eq_some.mp h
  cases htext
  rw [← hbytes]
  exact mem_flatMap.mpr ⟨_, hnul, by decide⟩

theorem validateDecodedRequestPath_ok (h : validateDecodedRequestPath bytes = .ok path) :
    ∃ decoded, fromUtf8 bytes = some decoded ∧ path = relativeView decoded ∧
      (path ≠ [] → Accepted path) := by
  obtain ⟨hnul, h⟩ := guard_eq_ok.mp h
  cases htext : fromUtf8 bytes with
  | none =>
    rw [htext] at h
    cases h
  | some decoded =>
    rw [htext] at h
    obtain ⟨hslash, h⟩ := guard_eq_ok.mp h
    refine ⟨decoded, rfl, ?_⟩
    change (if relativeView decoded = [] then _ else _) = _ at h
    by_cases hroot : relativeView decoded = []
    · rw [if_pos hroot] at h
      cases h
      exact ⟨hroot.symm, absurd rfl⟩
    · rw [if_neg hroot] at h
      obtain ⟨hfields, h⟩ := guard_eq_ok.mp h
      obtain ⟨⟨⟩, hpolicy, h⟩ := bind_eq_ok.mp h
      cases h
      refine ⟨rfl, fun _ ↦ ?_⟩
      obtain ⟨hempty, hdot⟩ := fields_of_check hfields
      obtain ⟨⟨⟩, hclean, hpublic⟩ := bind_eq_ok.mp hpolicy
      obtain ⟨hparent, hdepth⟩ := validateCleanRelativePath_ok hempty hdot hclean
      have hsubset : relativeView decoded ⊆ stripLeadingSlash decoded := stripTrailingSlash_subset _
      refine ⟨clean_of_parts (fun hmem ↦ ?_) (fun hmem ↦ (not_or.mp hslash).2 (hsubset hmem))
        hempty hdot hparent, hdepth, Bool.eq_false_iff.mpr (guard_eq_ok.mp hpublic).1⟩
      exact hnul (zero_mem_of_nul htext (stripLeadingSlash_subset _ (hsubset hmem)))

theorem normalizeStaticRequestPath_ok (h : normalizeStaticRequestPath raw = .ok path) :
    validateDecodedRequestPath (percentDecodeOnce (encode raw)) = .ok path ∧
      ∃ second, validateDecodedRequestPath
        (percentDecodeOnce (percentDecodeOnce (encode raw))) = .ok second := by
  obtain ⟨-, h⟩ := guard_eq_ok.mp h
  obtain ⟨-, h⟩ := guard_eq_ok.mp h
  obtain ⟨second, hsecond, h⟩ := bind_eq_ok.mp h
  exact ⟨h, second, hsecond⟩

theorem validateStaticDir_ok {dir : Text} (h : validateStaticDir raw = .ok dir) :
    dir = raw ∧ ∀ name ∈ dir.splitOn '/', Clean name := by
  obtain ⟨-, h⟩ := guard_eq_ok.mp h
  obtain ⟨hchars, h⟩ := guard_eq_ok.mp h
  obtain ⟨-, h⟩ := guard_eq_ok.mp h
  obtain ⟨-, h⟩ := guard_eq_ok.mp h
  obtain ⟨hfields, h⟩ := guard_eq_ok.mp h
  obtain ⟨⟨⟩, hclean, h⟩ := bind_eq_ok.mp h
  cases h
  obtain ⟨hnul, hback⟩ := not_or.mp hchars
  obtain ⟨hempty, hdot⟩ := fields_of_check hfields
  have hparent := (validateCleanRelativePath_ok hempty hdot hclean).1
  exact ⟨rfl, clean_of_parts hnul hback hempty hdot hparent⟩

end Temps.Core.StaticFiles
