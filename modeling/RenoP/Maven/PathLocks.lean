import RenoP.Docker.Tables
import RenoP.Lib.Like
import RenoP.Maven.Access

/-!
# Locks on Maven paths

`GetMavenPathLocks`, `mavenPathDomainLocks`, `normalizeResourceLockTarget` and
`resourceLocksQuery` of `internal/database`, and `EnsurePathMutable` of `service/maven/locks.go`.
The operators of SQL compare text exactly, except `LIKE`. The only failure is
`ErrResourceLockInvalid`.
-/

namespace RenoP.Maven

open RenoP.Database (Text trimSpace isSpace)
open RenoP.Docker (LockMode LockSource validLockVersion)

structure Host where
  windows : Bool
  toLower : Char → Char
  /-- `LOWER` of the database -/
  sqlLower : Char → Char
  /-- the letter that `LIKE` takes a letter for -/
  likeFold : Char → Char
  toLower_toLower : ∀ c, toLower (toLower c) = toLower c
  toLower_space : ∀ c, isSpace (toLower c) = isSpace c
  toLower_dot : ∀ c, toLower c = '.' ↔ c = '.'
  toLower_colon : ∀ c, toLower c = ':' ↔ c = ':'
  toLower_slash : ∀ c, toLower c = '/' ↔ c = '/'
  sqlLower_ascii : ∀ c, c.val < 128 → sqlLower c = toLower c
  likeFold_toLower : ∀ c, likeFold (toLower c) = toLower c
  likeFold_colon : ∀ c, likeFold c = ':' ↔ c = ':'

variable (host : Host)

def Host.lower (s : Text) : Text := s.map host.toLower

def Host.key (s : Text) : Text := if host.windows then host.lower s else s

def Host.column (s : Text) : Text := if host.windows then s.map host.sqlLower else s

structure MavenTarget where
  repository : Text
  name : Text
  version : Text
  deriving DecidableEq

def cutColon (name : Text) : Option (Text × Text) :=
  match name.dropWhile (· ≠ ':') with
  | [] => none
  | _ :: artifact => some (name.takeWhile (· ≠ ':'), artifact)

def maxPackageDeprecationKeyBytes : ℕ := 8192

def normalizeResourceLockTarget (target : MavenTarget) : Option MavenTarget :=
  let repository := host.lower (trimSpace target.repository)
  let name := trimSpace target.name
  if repository = [] ∨ byteLength repository > 255 ∨ name = [] ∨
      byteLength name > maxPackageDeprecationKeyBytes then none
  else
    match cutColon name with
    | none => none
    | some (group, artifact) =>
      if group = [] ∨ artifact = [] ∨ ':' ∈ artifact then none
      else if validLockVersion target.version = false then none
      else some ⟨repository, host.key (host.lower group ++ ':' :: artifact), target.version⟩

inductive LockFormat where
  | maven
  | mavenDomain
  | superteam
  | other (format : Text)
  deriving DecidableEq

structure ResourceLock where
  source : LockSource
  format : LockFormat
  repository : Text
  name : Text
  version : Text
  mode : LockMode
  reason : Text
  reasonText : Text
  lockedAt : ℤ
  deriving DecidableEq

structure LockRow extends ResourceLock where
  inherited : Bool
  deriving DecidableEq

structure LockTables where
  tables : Tables
  locks : List ResourceLock

def HealthStatus.text : HealthStatus → Text
  | .empty => []
  | .active => "active".toList
  | .unavailable => "unavailable".toList
  | .hold => "hold".toList
  | .expired => "expired".toList
  | .prohibited => "prohibited".toList

variable (db : LockTables)

/-- The rows of `resource_locks` themselves. -/
def LockTables.stored : List LockRow := db.locks.map fun l => ⟨l, false⟩

def ResourceLock.over (l : ResourceLock) (format : LockFormat) (repository name : Text) : LockRow :=
  ⟨{ l with format := format, repository := repository, name := name, version := [] }, true⟩

def systemLock (format : LockFormat) (repository name reason : Text) (lockedAt : ℤ)
    (inherited : Bool) : LockRow :=
  ⟨⟨.system, format, repository, name, [], .write, reason, [], lockedAt⟩, inherited⟩

def LockTables.global (format : LockFormat) (name : Text) : List ResourceLock :=
  db.locks.filter fun l =>
    decide (l.format = format) && decide (l.repository = []) && decide (l.name = name)

def LockTables.domainRows : List LockRow :=
  db.stored ++
    (db.tables.domains.entries.flatMap fun d =>
      (db.global .superteam d.2.superTeam).map fun l => l.over .mavenDomain [] d.1) ++
    db.tables.domains.entries.filterMap fun d =>
      if 0 < d.2.health.lockedAt then
        some (systemLock .mavenDomain [] d.1 d.2.health.lockReason.text d.2.health.lockedAt false)
      else none

/-- `CONCAT(group_id, ':', artifact_id)` as it is compared. -/
def Host.resourceName (key : ArtifactKey) : Text := host.column (key.2.1 ++ ':' :: key.2.2)

def LockTables.mavenRows : List LockRow :=
  db.stored ++
    (db.tables.artifacts.entries.flatMap fun p =>
      match db.tables.domains.load p.2.domain with
      | none => []
      | some d => (db.global .superteam d.superTeam).map fun l =>
          l.over .maven p.1.1 (host.resourceName p.1)) ++
    (db.tables.artifacts.entries.flatMap fun p =>
      (db.global .mavenDomain p.2.domain).map fun l =>
        l.over .maven p.1.1 (host.resourceName p.1)) ++
    (db.tables.artifacts.entries.filterMap fun p =>
      match db.tables.domains.load p.2.domain with
      | none => none
      | some d =>
        if 0 < d.health.lockedAt then
          some (systemLock .maven p.1.1 (host.resourceName p.1) d.health.lockReason.text
            d.health.lockedAt true)
        else none) ++
    db.tables.artifacts.entries.filterMap fun p =>
      if 0 < p.2.reclaimHoldAt then
        some (systemLock .maven p.1.1 (host.resourceName p.1) "prohibited".toList p.2.reclaimHoldAt
          false)
      else none

def lockLimit : ℕ := 8192

def LockTables.verifiedChild (name locked : Text) : Bool :=
  db.tables.domains.entries.any fun d =>
    d.2.verified && decide (locked.length < d.1.length) && Nested.contains '.' d.1 name

def LockTables.mavenPathDomainLocks (path : Text) (descendants : Bool) : Option (List LockRow) :=
  let name := host.lower (joinDots (pathParts path))
  let rows := (db.domainRows.filter fun l => decide (l.format = .mavenDomain) &&
    (Nested.contains '.' l.name name ||
      (descendants && (decide (name = []) || (name ++ ['.']).isPrefixOf l.name))) &&
    !db.verifiedChild name l.name).take (lockLimit + 1)
  if rows.length > lockLimit then none
  else some (rows.map fun l => { l with format := .mavenDomain, repository := [], version := [] })

inductive Condition where
  /-- `resource_name = ?`, with `version = '' OR version = ?` where a version is given -/
  | artifact (name : Text) (version : Option Text)
  | everything
  /-- `resource_name LIKE ? ESCAPE '!' OR resource_name LIKE ? ESCAPE '!'` -/
  | like (pattern pattern' : Text)

def Condition.holds (l : LockRow) : Condition → Bool
  | .artifact name version => decide (l.name = name) && version.all fun version =>
      decide (l.version = []) || decide (host.column l.version = version)
  | .everything => true
  | .like pattern pattern' =>
    Like.like host.likeFold '!' pattern l.name || Like.like host.likeFold '!' pattern' l.name

/-- `strings.HasPrefix(strings.ToLower(file), "maven-metadata.xml")` -/
def Host.metadataFile (file : Text) : Bool := metadataName.isPrefixOf (host.lower file)

def Host.artifactCondition (repository : Text) (descendants : Bool) (parts : List Text) (i : ℕ) :
    Option Condition :=
  let name := joinDots (parts.take i) ++ ':' :: parts.getD i []
  match normalizeResourceLockTarget host ⟨repository, name, []⟩ with
  | none => none
  | some target =>
    let version := parts.getD (i + 1) []
    if !(descendants && decide (version = [])) && !host.metadataFile version then
      some (.artifact target.name (some (host.key version)))
    else some (.artifact target.name none)

def Host.artifactConditions (repository : Text) (descendants : Bool) (parts : List Text) :
    Option (List Condition) :=
  (List.range' 2 (parts.length - 2)).mapM (host.artifactCondition repository descendants parts)

def Host.subtreeCondition (parts : List Text) : Condition :=
  if parts = [[]] then .everything
  else
    let begin := Like.escaped '!' (host.lower (joinDots parts))
    .like (begin ++ ['.', '%']) (begin ++ [':', '%'])

def LockTables.getMavenPathLocks (repository path : Text) (descendants : Bool) :
    Option (List LockRow) :=
  let parts := pathParts path
  if parts.length > maxMavenPathParts then none
  else
    match db.mavenPathDomainLocks host path descendants,
      host.artifactConditions repository descendants parts with
    | some locks, some conditions =>
      let conditions := conditions ++ if descendants then [host.subtreeCondition parts] else []
      if conditions.isEmpty then some locks
      else
        let rows := ((db.mavenRows host).filter fun l => decide (l.format = .maven) &&
          decide (l.repository = host.lower repository) &&
          conditions.any fun c => c.holds host l).take (lockLimit + 1)
        if locks.length + rows.length > lockLimit then none
        else some (locks ++ rows.map fun l =>
          { l with format := .maven, repository := host.lower repository })
    | _, _ => none

inductive MutationError where
  | resourceLockInvalid
  | resourceLocked
  deriving DecidableEq

/-- `EnsurePathMutable` in a Maven repository; `ensurePackageMutable` is the check of the artifact
of the path, where it has one. -/
def LockTables.ensurePathMutable (ensurePackageMutable : Text → Except MutationError Unit)
    (repository path : Text) : Except MutationError Unit :=
  match db.getMavenPathLocks host repository path true with
  | none => .error .resourceLockInvalid
  | some [] => ensurePackageMutable path
  | some (_ :: _) => .error .resourceLocked

end RenoP.Maven
