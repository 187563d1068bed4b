import RenoP.Lib.Nested
import RenoP.Lib.SlashPath

/-!
# Upstream addresses of git mirrors

`gitRepoEngine` and `resolveGitUpstreamURL` of `internal/service/storage/engine_git.go`.
-/

namespace RenoP.Git

abbrev Text := List Char

inductive Provider where
  | github
  | gitlab
  deriving DecidableEq

def releases : Text := "releases".toList
def actions : Text := "actions".toList
def download : Text := "download".toList
def archive : Text := "archive".toList
def latest : Text := "latest".toList
def downloads : Text := "downloads".toList
def zip : Text := ".zip".toList
def tarGz : Text := ".tar.gz".toList

def trimSuffix (s ending : Text) : Text :=
  if ending <:+ s then s.take (s.length - ending.length) else s

def stripArchive (s : Text) : Text := trimSuffix (trimSuffix s zip) tarGz

def joinParts (parts : List Text) : Text := ['/'].intercalate parts

def trimRight (s : Text) : Text := (s.reverse.dropWhile (· == '/')).reverse

def trimSlashes (s : Text) : Text := trimRight (s.dropWhile (· == '/'))

/-- The part of the repository's configuration and of the state that a request depends on. -/
structure Engine where
  provider : Provider
  mirrors : List Text
  toLower : Char → Char
  pathEscape : Text → Text
  /-- whether `EnsureResourceMutable` admits a name and a version -/
  resourceMutable : Text → Text → Bool
  /-- the registration, the mirror rules and the daily limit -/
  admitted : Text → Text → Bool
  concrete : Bool

def archiveTag (remainder : List Text) : Text :=
  match remainder with
  | first :: second :: rest =>
    stripArchive (if first = archive then (second :: rest).getLast (List.cons_ne_nil _ _) else first)
  | [first] => stripArchive first
  | [] => []

def archiveExt (remPath : Text) : Text := if tarGz <:+ remPath then tarGz else zip

def Engine.baseMirrorURL (e : Engine) : Text := trimRight (e.mirrors.headD [])

def Engine.gitBase (e : Engine) (default : Text) : Text :=
  if e.baseMirrorURL ≠ [] then e.baseMirrorURL else default

def Engine.base (e : Engine) : Text :=
  match e.provider with
  | .github => e.gitBase "https://github.com".toList
  | .gitlab => e.gitBase "https://gitlab.com".toList

def Engine.actionURL (e : Engine) (owner upstreamRepo actionID : Text) : Text :=
  match e.provider with
  | .github =>
    joinParts [e.gitBase "https://api.github.com".toList, "repos".toList, owner, upstreamRepo,
      "actions/artifacts".toList, actionID, "zip".toList]
  | .gitlab =>
    joinParts [e.base, "api/v4/projects".toList, e.pathEscape (owner ++ '/' :: upstreamRepo),
      "jobs".toList, actionID, "artifacts".toList]

def Engine.resolveGitUpstreamURL (e : Engine) (owner upstreamRepo actionType : Text)
    (remainder : List Text) : Option Text :=
  match remainder with
  | [] => none
  | first :: rest =>
    if actionType = actions then some (e.actionURL owner upstreamRepo first)
    else
      let remPath := joinParts (first :: rest)
      if zip <:+ remPath ∨ tarGz <:+ remPath then
        let tag := archiveTag (first :: rest)
        let ext := archiveExt remPath
        match e.provider with
        | .github =>
          some (joinParts [e.base, owner, upstreamRepo, archive, "refs".toList, "tags".toList,
            tag ++ ext])
        | .gitlab =>
          some (joinParts [e.base, owner, upstreamRepo, ['-'], archive, tag,
            upstreamRepo ++ '-' :: tag ++ ext])
      else
        match e.provider, rest with
        | .github, tag :: second :: file =>
          if first = download then
            some (joinParts [e.base, owner, upstreamRepo, releases, download, tag,
              joinParts (second :: file)])
          else
            some (joinParts [e.base, owner, upstreamRepo, releases, download, first,
              joinParts (tag :: second :: file)])
        | .github, [file] =>
          some (joinParts [e.base, owner, upstreamRepo, releases, download, first, file])
        | .github, [] =>
          some (joinParts [e.base, owner, upstreamRepo, releases, latest, download, first])
        | .gitlab, second :: file =>
          some (joinParts [e.base, owner, upstreamRepo, ['-'], releases, first,
            downloads, joinParts (second :: file)])
        | .gitlab, [] => some (joinParts [e.base, owner, upstreamRepo, ['-'], releases, first])

def lockVersion (actionType : Text) (remainder : List Text) : Text :=
  match remainder with
  | [] => []
  | first :: rest =>
    if actionType = releases then
      match rest with
      | [] => stripArchive first
      | second :: rest =>
        if first = download then stripArchive second
        else if first = archive then
          stripArchive ((second :: rest).getLast (List.cons_ne_nil _ _))
        else stripArchive first
    else if actionType = actions then first
    else []

/-- The parts of `path.Clean(strings.Trim(relative, "/"))`. -/
def requestParts (relative : Text) : List Text :=
  SlashPath.comps (SlashPath.clean (trimSlashes relative))

def lockTargets (name version : Text) : List (Text × Text) :=
  if version = [] then [(name, [])] else [(name, []), (name, version)]

inductive Outcome where
  | badRequest
  | notFound
  | locked
  | refused
  | stored
  | fetch (url : Text)

def Engine.checks (e : Engine) (relative : Text) : List (Text × Text) :=
  match requestParts relative with
  | owner :: upstreamRepo :: action :: remainder =>
    lockTargets (owner ++ '/' :: upstreamRepo) (lockVersion (action.map e.toLower) remainder)
  | _ => []

def Engine.handle (e : Engine) (relative : Text) : Outcome :=
  match requestParts relative with
  | owner :: upstreamRepo :: action :: remainder =>
    let actionType := action.map e.toLower
    if actionType ≠ releases ∧ actionType ≠ actions then .notFound
    else
      if (e.checks relative).all (fun (name, version) => e.resourceMutable name version) = false then
        .locked
      else if e.admitted (owner ++ '/' :: upstreamRepo) relative = false then .refused
      else if e.concrete then .stored
      else
        match e.resolveGitUpstreamURL owner upstreamRepo actionType remainder with
        | none => .badRequest
        | some url => .fetch url
  | _ => .badRequest

end RenoP.Git
