import Temps.Core.StaticFiles

namespace Temps.Proxy.StaticFileServing

open Core.StaticFiles Lib.Utf8

inductive StaticFileMatch where
  | requested
  | spaShell
  | notFoundPage
  | canonicalRedirect
  deriving DecidableEq

structure StaticCandidate where
  path : Text
  matched : StaticFileMatch
  deriving DecidableEq

/-- `None` unless the location is a plain path of the same origin. -/
def canonicalRedirectLocation (rawRequestPath : Text) (queryString : Option Text) : Option Text :=
  if rawRequestPath.getLast? = some '/' then
    let path := rawRequestPath.dropLast
    if path.head? ≠ some '/' ∨ ['/', '/'] <+: path ∨ '\\' ∈ path then none
    else
      match queryString.filter (· ≠ []) with
      | some query => some (path ++ '?' :: query)
      | none => some path
  else none

def boundedPrefixOf : ℕ → Text → Text
  | _, [] => []
  | bytes, c :: rest =>
    if (encodeChar c).length ≤ bytes then
      c :: boundedPrefixOf (bytes - (encodeChar c).length) rest
    else []

def boundedLogValue (value : Text) : Text := boundedPrefixOf 256 value

inductive StaticFileUnavailable where
  | requestPath (path : Text) (reason : StaticPathPolicyError)
  | staticDirectory (path : Text) (reason : StaticPathPolicyError)
  | resolvedPath (path : Text) (reason : StaticPathPolicyError)
  | notFound (path : Text) (operation : String)
  | unusable (path : Text) (operation : String)
  deriving DecidableEq

def staticNotFoundPage : Text := "404.html".toList

def indexPage : Text := "index.html".toList

def fileName (path : Text) : Option Text :=
  match (components path).getLast? with
  | some (.normal name) => some name
  | _ => none

/-- `Path::extension`: what follows the last dot, unless nothing stands before it. -/
def extension (path : Text) : Option Text :=
  (fileName path).bind fun name ↦
    match (name.splitOn '.').reverse with
    | after :: before :: rest => if rest = [] ∧ before = [] then none else some after
    | _ => none

def isSpaRoute (relativeRequestPath : Text) : Bool :=
  relativeRequestPath = [] || (extension relativeRequestPath).isNone

def pathJoin (base path : Text) : Text :=
  if path.head? = some '/' ∨ base = [] then path
  else if base.getLast? = some '/' then base ++ path
  else base ++ '/' :: path

def isNotFoundPage (path : Text) : Bool := components path = components staticNotFoundPage

def requestedCandidate (path : Text) : StaticCandidate :=
  ⟨path, if isNotFoundPage path then .notFoundPage else .requested⟩

def htmlCandidate (relativeRequestPath : Text) (directoryRequest : Bool) : StaticCandidate :=
  let htmlPage := requestedCandidate (relativeRequestPath ++ ".html".toList)
  if directoryRequest && htmlPage.matched = .requested then
    { htmlPage with matched := .canonicalRedirect }
  else htmlPage

def staticRequestCandidates (relativeRequestPath : Text) (directoryRequest : Bool) :
    List StaticCandidate :=
  let named :=
    if relativeRequestPath = [] then [requestedCandidate indexPage]
    else
      requestedCandidate relativeRequestPath ::
        requestedCandidate (pathJoin relativeRequestPath indexPage) ::
          if isSpaRoute relativeRequestPath then
            [htmlCandidate relativeRequestPath directoryRequest]
          else []
  named ++
    (if named.any fun candidate ↦ isNotFoundPage candidate.path then []
    else [⟨staticNotFoundPage, .notFoundPage⟩]) ++
    if relativeRequestPath ≠ [] ∧ isSpaRoute relativeRequestPath then [⟨indexPage, .spaShell⟩]
    else []

def isDirectoryRequest (rawRequestPath : Text) : Bool :=
  1 < (encode rawRequestPath).length && rawRequestPath.getLast? = some '/'

def staticObjectKey (relativeStaticDir candidate : Text) : Text :=
  relativeStaticDir ++ '/' :: candidate

structure StaticObjectRequest where
  relativeStaticDir : Text
  candidates : List StaticCandidate

def resolveStaticObjectRequest (storedStaticDir rawRequestPath : Text) :
    Except StaticFileUnavailable StaticObjectRequest :=
  match validateStaticDir storedStaticDir with
  | .error reason => .error (.staticDirectory (boundedLogValue storedStaticDir) reason)
  | .ok relativeStaticDir =>
    match normalizeStaticRequestPath rawRequestPath with
    | .error reason => .error (.requestPath (boundedLogValue rawRequestPath) reason)
    | .ok relativeRequestPath =>
      .ok ⟨relativeStaticDir,
        staticRequestCandidates relativeRequestPath (isDirectoryRequest rawRequestPath)⟩

/-- The files of a deployment, each as the names on the way from its root. No file is a directory on
the way to another one. -/
structure Published where
  files : List (List Text)
  named : ∀ file ∈ files, file ≠ [] ∧ ∀ name ∈ file, name ≠ [] ∧ '/' ∉ name
  tree : ∀ file ∈ files, ∀ other ∈ files, file <+: other → file = other

/-- The files on a filesystem, which may refuse to look up what cannot be stored there, such as a
name that is too long. -/
structure Disk extends Published where
  refuses : List Text → Bool
  stored : ∀ file ∈ files, ∀ path, path <+: file → refuses path = false

inductive Entry where
  | file
  | directory
  | missing
  | refused
  deriving DecidableEq

/-- Resolve names from an existing directory. A file where a directory is needed counts as missing. -/
def Disk.walk (disk : Disk) : List Text → List Text → Entry
  | _, [] => .directory
  | dir, name :: rest =>
    let path := dir ++ [name]
    if disk.refuses path then .refused
    else if path ∈ disk.files then if rest = [] then .file else .missing
    else if disk.files.any path.isPrefixOf then disk.walk path rest
    else .missing

def Component.name? : Component → Option Text
  | .normal name => some name
  | _ => none

def names (path : Text) : List Text := (components path).filterMap Component.name?

/-- Try the candidates in turn below the root of the deployment. Only a missing one moves on to the
next. -/
def resolveCandidates (disk : Disk) (root requested : Text) :
    List StaticCandidate → Except StaticFileUnavailable StaticCandidate
  | [] => .error (.notFound requested "resolve requested file")
  | candidate :: rest =>
    match disk.walk [] (names candidate.path) with
    | .refused => .error (.unusable (pathJoin root candidate.path) "resolve requested file")
    | .directory | .missing => resolveCandidates disk root requested rest
    | .file =>
      match validateStaticArtifactPath candidate.path with
      | .error reason => .error (.resolvedPath candidate.path reason)
      | .ok () => .ok candidate

def openStaticFile (disk : Disk) (configuredStaticRoot storedStaticDir rawRequestPath : Text) :
    Except StaticFileUnavailable StaticCandidate :=
  match validateStaticDir storedStaticDir with
  | .error reason => .error (.staticDirectory (boundedLogValue storedStaticDir) reason)
  | .ok relativeStaticDir =>
    match normalizeStaticRequestPath rawRequestPath with
    | .error reason => .error (.requestPath (boundedLogValue rawRequestPath) reason)
    | .ok relativeRequestPath =>
      let root := pathJoin configuredStaticRoot relativeStaticDir
      resolveCandidates disk root (pathJoin root relativeRequestPath)
        (staticRequestCandidates relativeRequestPath (isDirectoryRequest rawRequestPath))

def Published.keys (published : Published) (relativeStaticDir : Text) : List Text :=
  published.files.map fun file ↦ staticObjectKey relativeStaticDir (['/'].intercalate file)

def serveStaticFileFromStore (published : Published) (storedStaticDir rawRequestPath : Text) :
    Option StaticCandidate :=
  match resolveStaticObjectRequest storedStaticDir rawRequestPath with
  | .error _ => none
  | .ok request =>
    request.candidates.find? fun candidate ↦
      (published.keys request.relativeStaticDir).contains
        (staticObjectKey request.relativeStaticDir candidate.path)

def redirect (chosen : Option StaticCandidate) (rawRequestPath : Text) (queryString : Option Text) :
    Option Text :=
  if chosen.any (·.matched = .canonicalRedirect) then
    canonicalRedirectLocation rawRequestPath queryString
  else none

end Temps.Proxy.StaticFileServing
