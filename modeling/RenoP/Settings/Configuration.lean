import RenoP.Database.PublicationQuota

/-!
# The configuration

`Config` and `Repository` of `internal/config`, as far as the settings handlers of
`internal/service/settings` and `UpdateGitRepoRedirect` read and write them.
-/

namespace RenoP.Settings

open RenoP.Database (Text)

variable {D : Type}

inductive Format where
  | maven
  | mavenClassic
  | files
  | cargo
  | docker
  | npm
  | conan
  | conda
  | condaNative
  | apk
  | apt
  | rpm
  | yum
  | github
  | gitlab
  deriving DecidableEq

def Format.normalized : Format → Format
  | .mavenClassic => .maven
  | format => format

structure RepositoryEngine where
  publicationReview : Bool
  redeployment : Bool
  gpg : Bool

def nativeFileEngine : RepositoryEngine := ⟨true, true, false⟩

def Format.engine : Format → RepositoryEngine
  | .maven | .mavenClassic => ⟨true, true, true⟩
  | .files => ⟨false, true, false⟩
  | .cargo => ⟨true, false, false⟩
  | .docker => ⟨true, true, false⟩
  | .npm => ⟨true, false, false⟩
  | .conan | .conda | .condaNative | .apk | .apt | .rpm | .yum => nativeFileEngine
  | .github | .gitlab => ⟨false, false, false⟩

def Format.isGit : Format → Bool
  | .github | .gitlab => true
  | _ => false

theorem engine_of_normalized {f g : Format} (h : f.normalized = g.normalized) :
    f.engine = g.engine := by
  cases f <;> cases g <;> first | rfl | cases h

theorem isGit_of_normalized {f g : Format} (h : f.normalized = g.normalized) :
    f.isGit = g.isGit := by
  cases f <;> cases g <;> first | rfl | cases h

inductive Review where
  | off
  | newPackages
  | everyVersion
  deriving DecidableEq

/-- What depends on Unicode tables, and the terms of `DefaultGitRepoPolicy`. -/
structure Library (D : Type) where
  lower : Text → Text
  equalFold : Text → Text → Bool
  gitRepoTerms : D

structure MavenRestoreSettings where
  format : Format
  allowRedeployment : Bool
  requireGPGSignature : Bool
  publicationReview : Review
  deriving DecidableEq

/-- `terms` are the limits, the mode and the owner. -/
structure GitRepoPolicy (D : Type) where
  terms : D
  registeredRepos : List Text
  repoQuotas : GoMap Text D

/-- `details` are the visibility, the mirrors, the S3 settings and the proxy. -/
structure Repository (D : Type) where
  capacityLimitBytes : ℤ
  format : Format
  details : D
  allowRedeployment : Bool
  requireGPGSignature : Bool
  publicationReview : Review
  downloadStatistics : Option Bool
  mavenRestore : Option MavenRestoreSettings
  gitHubToken : Text
  gitLabToken : Text
  gitRepo : Option (GitRepoPolicy D)

structure Config (D : Type) where
  repositories : GoMap Text (Repository D)
  trafficLimit : D

def Repository.publicationReviewPolicy (r : Repository D) : Review :=
  if r.format.engine.publicationReview then r.publicationReview else .off

def Repository.downloadStatisticsEnabled (r : Repository D) : Bool :=
  r.downloadStatistics.getD (r.format.normalized ≠ .files)

variable (lib : Library D)

def Library.slug (text : Text) : Text :=
  lib.lower ((text.dropWhile (· == '/')).reverse.dropWhile (· == '/')).reverse

def renameRegistered (oldLower newSlug : Text) : List Text → Option (List Text)
  | [] => none
  | registered :: rest =>
    if lib.slug registered = oldLower then some (newSlug :: rest)
    else (renameRegistered oldLower newSlug rest).map (registered :: ·)

/-- `RenameRepo`: `none` where nothing is renamed. -/
def GitRepoPolicy.renameRepo (p : GitRepoPolicy D) (oldSlug newSlug : Text) :
    Option (GitRepoPolicy D) :=
  if oldSlug = [] ∨ newSlug = [] ∨ lib.slug oldSlug = lib.slug newSlug then none
  else
    (renameRegistered lib (lib.slug oldSlug) newSlug p.registeredRepos).map fun registered =>
      { p with
        registeredRepos := registered
        repoQuotas :=
          match p.repoQuotas.load (lib.slug oldSlug) with
          | some quota => (p.repoQuotas.delete (lib.slug oldSlug)).store (lib.slug newSlug) quota
          | none => p.repoQuotas }

def Repository.renameRepo (r : Repository D) (oldSlug newSlug : Text) : Option (Repository D) :=
  (r.gitRepo.bind fun p => p.renameRepo lib oldSlug newSlug).map fun p =>
    { r with gitRepo := some p }

structure RepositoryMessage (D : Type) where
  capacityLimitBytes : Option ℤ
  format : Option Format
  details : D
  allowRedeployment : Bool
  requireGPGSignature : Bool
  gitHubToken : Text
  gitLabToken : Text
  gitRepo : Option (GitRepoPolicy D)

def keptToken (requested : Text) (existing : Option Text) : Text :=
  if requested = [] then existing.getD [] else requested

/-- The policy of a Git repository: registered repositories are kept where the request has none. -/
def keptGitRepo (requested existing : Option (GitRepoPolicy D)) : Option (GitRepoPolicy D) :=
  match requested, existing with
  | none, existing => existing
  | some requested, none => some requested
  | some requested, some existing =>
    some { requested with
      registeredRepos :=
        if requested.registeredRepos = [] then existing.registeredRepos
        else requested.registeredRepos }

def defaultGitRepoPolicy : GitRepoPolicy D := ⟨lib.gitRepoTerms, [], ∅⟩

def sameProtocol (existing : Option (Repository D)) (format : Format) : Bool :=
  existing.all fun e => decide (e.format.normalized = format.normalized)

def requestedCapacity (msg : RepositoryMessage D) (existing : Option (Repository D)) : ℤ :=
  msg.capacityLimitBytes.getD ((existing.map (·.capacityLimitBytes)).getD 0)

def requestedRepository (msg : RepositoryMessage D) (existing : Option (Repository D))
    (format : Format) : Repository D :=
  let review := (existing.map (·.publicationReviewPolicy)).getD .off
  { capacityLimitBytes := requestedCapacity msg existing
    format := format
    details := msg.details
    allowRedeployment :=
      if format.engine.publicationReview ∧ review ≠ .off then false
      else if format = .files then true
      else format.engine.redeployment && msg.allowRedeployment
    requireGPGSignature := format.engine.gpg && msg.requireGPGSignature
    publicationReview := review
    downloadStatistics := existing.bind (·.downloadStatistics)
    mavenRestore := if format = .files then existing.bind (·.mavenRestore) else none
    gitHubToken :=
      if format.isGit then keptToken msg.gitHubToken (existing.map (·.gitHubToken)) else []
    gitLabToken :=
      if format.isGit then keptToken msg.gitLabToken (existing.map (·.gitLabToken)) else []
    gitRepo :=
      if format.isGit then
        some ((keptGitRepo msg.gitRepo (existing.bind (·.gitRepo))).getD (defaultGitRepoPolicy lib))
      else none }

/-- The repository that a request asks for; `none` where it is refused. -/
def putRepository (msg : RepositoryMessage D) (existing : Option (Repository D)) :
    Option (Repository D) :=
  match msg.format <|> existing.map (·.format) with
  | none => none
  | some format =>
    if requestedCapacity msg existing < 0 ∨ sameProtocol existing format = false then none
    else some (requestedRepository lib msg existing format)

def repositoryWithMigratedEngine (repo : Repository D) (target : Format) : Repository D :=
  let migrated := { repo with downloadStatistics := some repo.downloadStatisticsEnabled }
  if target = .files then
    { migrated with
      mavenRestore := some ⟨repo.format, repo.allowRedeployment, repo.requireGPGSignature,
        repo.publicationReviewPolicy⟩
      format := .files
      allowRedeployment := true
      requireGPGSignature := false
      publicationReview := .off }
  else
    match repo.mavenRestore with
    | none =>
      { migrated with
        format := .maven
        allowRedeployment := false
        requireGPGSignature := false
        publicationReview := .off
        mavenRestore := none }
    | some restore =>
      { migrated with
        format :=
          if restore.format = .maven ∨ restore.format = .mavenClassic then restore.format
          else .maven
        allowRedeployment := restore.allowRedeployment
        requireGPGSignature := restore.requireGPGSignature
        publicationReview := restore.publicationReview
        mavenRestore := none }

def Repository.withReview (r : Repository D) (policy : Review) : Repository D :=
  { r with
    publicationReview := policy
    allowRedeployment := if policy = .off then r.allowRedeployment else false }

def Repository.withStatistics (r : Repository D) (enabled : Bool) : Repository D :=
  { r with downloadStatistics := some enabled }

def Config.withRepository (c : Config D) (name : Text) (r : Repository D) : Config D :=
  { c with repositories := c.repositories.store name r }

end RenoP.Settings
