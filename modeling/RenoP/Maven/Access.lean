import Mathlib.Data.Char
import Mathlib.Data.List.Lex
import Mathlib.Data.List.Sort
import RenoP.Lib.Nested
import RenoP.Maven.Domains

/-!
# Access to Maven namespaces

Artifact paths, the domain that authorises a change of one, and the domain under which the catalog
takes its artifact (`service/maven/access.go`, `validation.go`, `catalog.go` and
`publication_review.go`).
-/

namespace RenoP.Maven

open RenoP.Database (Text)
open RenoP.Team (effectiveBoundPermission)
open Fallible (refuse)

inductive AccessError where
  | permissionDenied
  | domainClosed
  | domainUnverified
  | domainNotFound
  | resourceLocked
  | reviewInvalidRequest
  deriving DecidableEq

def maxMavenPathParts : ℕ := 32

def maxCoordinateLength : ℕ := 255

/-- `strings.Split(strings.Trim(strings.ReplaceAll(path, "\", "/"), "/"), "/")` -/
def pathParts (path : Text) : List Text :=
  let slashed := path.map fun c => if c = '\\' then '/' else c
  let started := slashed.dropWhile fun c => decide (c = '/')
  let trimmed := (started.reverse.dropWhile fun c => decide (c = '/')).reverse
  trimmed.splitOn '/'

def validMavenCoordinatePart (value : Text) : Bool :=
  match value with
  | [] => false
  | first :: rest => first.isAlphanum && decide (value.length ≤ maxCoordinateLength) &&
      rest.all fun c => c.isAlphanum || decide (c = '.') || decide (c = '_') || decide (c = '-')

def joinDots (parts : List Text) : Text := ['.'].intercalate parts

/-- `strings.ToLower`; the parts of a path that is accepted are ASCII. -/
def lower (text : Text) : Text := text.map Char.toLower

def metadataName : Text :=
  ['m', 'a', 'v', 'e', 'n', '-', 'm', 'e', 't', 'a', 'd', 'a', 't', 'a', '.', 'x', 'm', 'l']

structure MavenCoordinate where
  groupID : Text
  artifactID : Text
  version : Text
  deriving DecidableEq

def parseArtifactPath (path : Text) : Option MavenCoordinate :=
  let parts := pathParts path
  if parts.length < 4 ∨ parts.length > maxMavenPathParts then none
  else match parts.reverse with
  | filename :: version :: artifactID :: group =>
    let groupParts := group.reverse
    if filename = [] ∨ filename = metadataName ∨
        (metadataName ++ ['.']).isPrefixOf filename = true then none
    else if groupParts.length < 2 ∨ validMavenCoordinatePart artifactID = false ∨
        validMavenCoordinatePart version = false then none
    else if groupParts.all validMavenCoordinatePart = false then none
    else if (artifactID ++ ['-']).isPrefixOf filename = false then none
    else some ⟨joinDots groupParts, artifactID, version⟩
  | _ => none

/-- The names that `isMavenPublicationPath` allows beside artifacts. -/
def metadataNames : List Text :=
  [metadataName, metadataName ++ ['.', 'a', 's', 'c'], metadataName ++ ['.', 'm', 'd', '5'],
    metadataName ++ ['.', 's', 'h', 'a', '1'], metadataName ++ ['.', 's', 'h', 'a', '2', '5', '6'],
    metadataName ++ ['.', 's', 'h', 'a', '5', '1', '2']]

def isMavenPublicationPath (path : Text) : Bool :=
  (parseArtifactPath path).isSome ||
    let parts := pathParts path
    decide (3 ≤ parts.length ∧ parts.length ≤ maxMavenPathParts) &&
      parts.getLast?.any (fun filename => decide (filename ∈ metadataNames)) &&
      parts.dropLast.all validMavenCoordinatePart

def pathNamespaceCandidate (path : Text) : Text :=
  let parts := pathParts path
  if parts.length < 2 ∨ parts.length > maxMavenPathParts then []
  else if parts.dropLast.all validMavenCoordinatePart = false then []
  else lower (joinDots parts.dropLast)

def domainContainsGroup (domain groupID : Text) : Bool := Nested.contains '.' domain groupID

variable (env : Outside) (t : Tables)

/-- A row of `ListMavenDomains`, with the permission of the user. -/
structure ListedDomain where
  domain : Text
  row : MavenDomain
  level : ℤ
  member : Bool

def guest : Text := ['g', 'u', 'e', 's', 't']

/-- The account that `ListMavenDomains` joins the members of. -/
def listsFor (user : Text) : Bool :=
  decide (user ≠ []) && decide (user ≠ guest) && env.profile user

def scanMavenDomain (user domain : Text) (r : MavenDomain) : ListedDomain :=
  let explicit := if listsFor env user then t.members.load (domain, user) else none
  let role := if listsFor env user then env.superRole r.superTeam user else none
  let (level, member) :=
    effectiveBoundPermission (explicit.getD 0) explicit.isSome (role.getD 0) role.isSome
  ⟨domain, r, level, member⟩

def listMavenDomains (user : Text) (includeAll : Bool) : List ListedDomain :=
  let rows := t.domains.entries.insertionSort fun e e' => e.1 ≤ e'.1
  (rows.map fun e => scanMavenDomain env t user e.1 e.2).filter fun d =>
    includeAll || d.row.verified || d.member

def matchingDomain (domains : List ListedDomain) (candidate : Text) : Option ListedDomain :=
  Nested.longest '.' ListedDomain.domain byteLength candidate domains

/-- `AuthorizeMutation` in a Maven repository; `pathLocked` is what `EnsurePathMutable` finds. -/
def authorizeMutation (pathLocked : Text → Bool) (user path : Text) (requiredLevel : ℤ) :
    Except AccessError ListedDomain := do
  refuse (user = [] ∨ user = guest) .permissionDenied
  refuse (isMavenPublicationPath path = false) .permissionDenied
  let candidate := pathNamespaceCandidate path
  refuse (candidate = []) .permissionDenied
  match matchingDomain (listMavenDomains env t user false) candidate with
  | none => .error .permissionDenied
  | some d =>
    refuse (d.row.closedAt ≠ 0) .domainClosed
    refuse (d.row.verified = false) .domainUnverified
    refuse (d.level < requiredLevel) .permissionDenied
    refuse (pathLocked path = true) .resourceLocked
    return d

structure Publication where
  domain : Text
  groupID : Text
  artifactID : Text
  version : Text
  publisher : Text
  deriving DecidableEq

def publishedDomain (domains : List ListedDomain) (groupID : Text) :
    Except AccessError ListedDomain :=
  match matchingDomain domains (lower groupID) with
  | none => .error .domainUnverified
  | some d => if d.row.verified then .ok d else .error .domainUnverified

/-- The checks of `RecordMavenPublication` that the domain is there and verified. -/
def recordMavenPublication (p : Publication) : Except AccessError Publication :=
  match t.domains.load p.domain with
  | none => .error .domainNotFound
  | some r => if r.verified then .ok p else .error .domainUnverified

/-- `RecordPublishedPath`; a path that is no artifact is not recorded. -/
def recordPublishedPath (path username : Text) : Except AccessError (Option Publication) :=
  match parseArtifactPath path with
  | none => .ok none
  | some c => do
    let d ← publishedDomain (listMavenDomains env t username true) c.groupID
    let p ← recordMavenPublication t ⟨d.domain, c.groupID, c.artifactID, c.version, username⟩
    return some p

def cutLastColon : Text → Option (Text × Text)
  | [] => none
  | c :: rest =>
    match cutLastColon rest with
    | some (before, after) => some (c :: before, after)
    | none => if c = ':' then some ([], rest) else none

structure PublicationTask where
  resourceKey : Text
  resourceVersion : Text
  requestedBy : Text

def approvePublicationReview (task : PublicationTask) : Except AccessError Publication := do
  refuse (task.resourceVersion = []) .reviewInvalidRequest
  match cutLastColon task.resourceKey with
  | none => .error .reviewInvalidRequest
  | some (groupID, artifactID) =>
    refuse (groupID = [] ∨ artifactID = []) .reviewInvalidRequest
    let d ← publishedDomain (listMavenDomains env t [] true) groupID
    recordMavenPublication t
      ⟨d.domain, groupID, artifactID, task.resourceVersion, task.requestedBy⟩

end RenoP.Maven
