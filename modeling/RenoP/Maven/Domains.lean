import RenoP.Lib.Fallible
import RenoP.Team.TeamMembers

/-!
# Maven domains

The global namespaces of `internal/database/maven.go` and `maven_health.go`. A call runs in one
transaction; one that fails changes nothing. Names are trimmed, sanitized and folded, and a user
is the account name.
-/

namespace RenoP.Maven

open RenoP.Database (Text)
open RenoP.Team (effectiveBoundPermission)
open Fallible (refuse)

def permissionManage : ℤ := 3
def permissionOwner : ℤ := 4

def maxMavenDomainsPerOwner : ℕ := 64

def releaseLockMillis : ℤ := 31 * 24 * 60 * 60 * 1000

inductive VerificationType where
  | dns
  | github
  | gitlab
  | legacy
  | mirror
  deriving DecidableEq

/-- `claim_status`; a domain without a claim has the empty one. -/
inductive ClaimStatus where
  | empty
  | awaitingVerification
  | pending
  | rejected
  deriving DecidableEq

inductive HealthStatus where
  | empty
  | active
  | unavailable
  | hold
  | expired
  | prohibited
  deriving DecidableEq

inductive ProviderType where
  | empty
  | user
  | organization
  deriving DecidableEq

inductive MavenError where
  | invalid
  | verificationFailed
  | permissionDenied
  | bindingMismatch
  | bindingPermission
  | accountDeleted
  | resourceLocked
  | domainLocked
  | domainExists
  | domainNotFound
  | domainClosed
  | reviewPending
  | claimReviewInvalid
  | memberExists
  | invitationExists
  | invitationInvalid
  | ownerCannotLeave
  | lastFullMember
  | duplicateRow
  | profileNotFound
  | reviewPermissionDenied
  | reviewResourceConflict
  | packageDeprecated
  deriving DecidableEq

structure MavenDomainHealth where
  providerType : ProviderType
  providerID : Text
  status : HealthStatus
  checkedAt : ℤ
  nextCheckAt : ℤ
  expiresAt : ℤ
  lockedAt : ℤ
  releaseAt : ℤ
  lockReason : HealthStatus
  deriving DecidableEq

def MavenDomainHealth.empty : MavenDomainHealth := ⟨.empty, [], .empty, 0, 0, 0, 0, 0, .empty⟩

structure MavenDomain where
  verificationType : VerificationType
  verificationHost : Text
  verificationCode : Text
  superTeam : Text
  verified : Bool
  createdAt : ℤ
  verifiedAt : ℤ
  lastCheckAt : ℤ
  closedAt : ℤ
  releaseAt : ℤ
  claimStatus : ClaimStatus
  claimVerifiedAt : ℤ
  health : MavenDomainHealth
  deriving DecidableEq

structure MavenArtifact where
  domain : Text
  superTeam : Text
  mirrored : Bool
  reclaimHoldAt : ℤ
  deriving DecidableEq

structure MavenInvitation where
  domain : Text
  inviter : Text
  recipient : Text
  level : ℤ
  deriving DecidableEq

abbrev ArtifactKey := Text × Text × Text

structure Tables where
  domains : GoMap Text MavenDomain
  members : GoMap (Text × Text) ℤ
  invitations : GoMap Text MavenInvitation
  artifacts : GoMap ArtifactKey MavenArtifact

/-- What a call finds in the tables of accounts, teams, locks, messages and reviews. -/
structure Outside where
  /-- `userIDForUsername` finds the user. -/
  profile : Text → Bool
  existing : Text → Bool
  deleted : Text → Bool
  /-- `accountEmailSessionTx`, by user and session -/
  session : Text → Text → Bool
  /-- `reviewUserTx` and `IsManager` -/
  isManager : Text → Bool
  /-- `super_team_members`, by team and user -/
  superRole : Text → Text → Option ℤ
  /-- `requireSuperTeamRoleTx` at `SuperTeamRoleManage`, by team and user -/
  managesTeam : Text → Text → Bool
  validTeam : Text → Bool
  domainLock : Text → Bool
  teamLock : Text → Bool
  /-- `hasPendingMavenDomainReviewTx` -/
  pendingReview : Text → Bool
  /-- The message of an invitation is unanswered and has not expired. -/
  messagePending : Text → Bool
  /-- The account may act, in `mavenRestoreStateTx`. -/
  live : Text → Bool
  deprecated : ArtifactKey → Bool
  /-- A lock on an artifact other than `maven-reclaim`. -/
  artifactLock : ArtifactKey → Bool

/-- `userIDForUsernameTx` finds the user. -/
def Outside.profileTx (env : Outside) (user : Text) : Bool := env.profile user && !env.deleted user

variable (env : Outside)

/-- A lock on the domain other than `maven-domain-health`. -/
def otherLocks (t : Tables) (domain : Text) : Bool :=
  env.domainLock domain || (t.domains.load domain).any fun r => env.teamLock r.superTeam

/-- `resourceLocksQuery("maven-domain")` has a lock on the domain. -/
def locked (t : Tables) (domain : Text) : Bool :=
  otherLocks env t domain || (t.domains.load domain).any fun r => decide (0 < r.health.lockedAt)

def isAncestor (name domain : Text) : Bool := (name ++ ['.']).isPrefixOf domain

/-- `ensureMavenDomainAncestorMutableTx` finds a lock: one of an ancestor that no verified domain
in between takes over. -/
def ancestorLocked (t : Tables) (domain : Text) : Bool :=
  domain.inits.any fun name => isAncestor name domain && locked env t name &&
    !t.domains.entries.any fun e => e.2.verified && decide (name.length < e.1.length) &&
      decide (e.1 ≠ domain) && isAncestor e.1 domain

def effectivePermission (t : Tables) (domain user : Text) : Except MavenError (ℤ × Bool) :=
  match t.domains.load domain with
  | none => .error .domainNotFound
  | some r => .ok (effectiveBoundPermission ((t.members.load (domain, user)).getD 0)
      (t.members.has (domain, user)) ((env.superRole r.superTeam user).getD 0)
      (env.superRole r.superTeam user).isSome)

def requireMavenMemberPermission (t : Tables) (domain user : Text) (required : ℤ) :
    Except MavenError Unit :=
  match effectivePermission env t domain user with
  | .error _ => .error .permissionDenied
  | .ok (level, member) => refuse (member = false ∨ level < required) .permissionDenied

def lockMavenDomainRow (t : Tables) (domain : Text) : Except MavenError MavenDomain :=
  match t.domains.load domain with
  | none => .error .domainNotFound
  | some r => .ok r

def lockMavenDomain (t : Tables) (domain : Text) : Except MavenError MavenDomain := do
  let r ← lockMavenDomainRow t domain
  refuse (locked env t domain = true) .resourceLocked
  return r

def decimalValue (id : Text) : ℕ := id.foldl (fun n c => 10 * n + (c.toNat - 48)) 0

/-- A positive `int64` as `FormatInt` writes it. -/
def canonicalID (id : Text) : Bool :=
  !id.isEmpty && id.all Char.isDigit && decide (id.head? ≠ some '0') &&
    decide (decimalValue id < 2 ^ 63)

def validMavenProviderIdentity (verificationType : VerificationType)
    (health : Option MavenDomainHealth) : Bool :=
  if verificationType ≠ .github ∧ verificationType ≠ .gitlab then true
  else match health with
  | none => false
  | some h => decide (h.providerType ≠ .empty) && canonicalID h.providerID

def cancelDomainInvitations (t : Tables) (domain : Text) : Tables :=
  { t with invitations := t.invitations.deleteWhere fun _ i => decide (i.domain = domain) }

def mirroredRow (domain : Text) (createdAt : ℤ) : MavenDomain :=
  ⟨.mirror, domain, [], [], false, createdAt, 0, 0, 0, 0, .empty, 0, .empty⟩

def ensureMirroredMavenDomain (t : Tables) (domain : Text) (createdAt : ℤ) :
    Except MavenError Tables := do
  refuse (domain = [] ∨ createdAt ≤ 0) .invalid
  if t.domains.has domain then return t
  else
    return { t with domains := t.domains.store domain (mirroredRow domain createdAt) }

structure NewDomain where
  domain : Text
  verificationType : VerificationType
  verificationHost : Text
  verificationCode : Text
  superTeam : Text
  verified : Bool
  createdAt : ℤ
  verifiedAt : ℤ
  health : Option MavenDomainHealth

def MavenDomain.importable (r : MavenDomain) : Bool :=
  !r.verified && decide (r.closedAt = 0) && decide (r.claimStatus = .empty)

def MavenDomain.importOver (r : MavenDomain) (d : NewDomain) : MavenDomain :=
  { r with
    verificationType := d.verificationType
    verificationHost := d.verificationHost
    verificationCode := d.verificationCode
    verified := true
    verifiedAt := d.verifiedAt }

def NewDomain.importedRow (d : NewDomain) : MavenDomain :=
  ⟨d.verificationType, d.verificationHost, d.verificationCode, [], true, d.createdAt, d.verifiedAt,
    0, 0, 0, .empty, 0, .empty⟩

def ensureImportedMavenDomain (t : Tables) (d : NewDomain) : Except MavenError Tables := do
  refuse (d.domain = [] ∨ d.verified = false) .invalid
  match t.domains.load d.domain with
  | some r =>
    if r.importable then
      return { t with domains := t.domains.store d.domain (r.importOver d) }
    else return t
  | none =>
    return { t with domains := t.domains.store d.domain d.importedRow }

def legacyImportCode : Text :=
  ['r', 'e', 'n', 'o', 'p', '-', 'l', 'e', 'g', 'a', 'c', 'y', '-', 'i', 'm', 'p', 'o', 'r', 't']

/-- The domain that `importLegacyMavenPath` imports for a name. -/
def legacyDomain (domain : Text) (importedAt : ℤ) : NewDomain :=
  ⟨domain, .legacy, domain, legacyImportCode, [], true, importedAt, importedAt, none⟩

def MavenDomain.mirroredReservation (r : MavenDomain) : Bool :=
  decide (r.verificationType = .mirror) && !r.verified && decide (r.closedAt = 0) &&
    decide (r.claimStatus = .empty)

def MavenDomain.releasedReservation (r : MavenDomain) (now : ℤ) : Bool :=
  decide (0 < r.closedAt ∧ 0 < r.releaseAt ∧ r.releaseAt ≤ now) ||
    decide (0 < r.health.lockedAt ∧ 0 < r.health.releaseAt ∧ r.health.releaseAt ≤ now)

def checkReservation (row : Option MavenDomain) (now : ℤ) : Except MavenError Unit :=
  match row with
  | none => .ok ()
  | some r =>
    if r.mirroredReservation || r.releasedReservation now then .ok ()
    else if 0 < r.closedAt ∨ 0 < r.health.lockedAt then .error .domainLocked
    else .error .domainExists

/-- The row that `CreateMavenDomain` writes, over a released reservation or not. -/
def NewDomain.row (d : NewDomain) (released : Bool) : MavenDomain where
  verificationType := d.verificationType
  verificationHost := d.verificationHost
  verificationCode := d.verificationCode
  superTeam := d.superTeam
  verified := d.verified && !released
  createdAt := d.createdAt
  verifiedAt := if released then 0 else d.verifiedAt
  lastCheckAt := 0
  closedAt := 0
  releaseAt := 0
  claimStatus :=
    if released then if d.verified then .pending else .awaitingVerification else .empty
  claimVerifiedAt := if released = true ∧ d.verified = true then d.verifiedAt else 0
  health :=
    { d.health.getD .empty with lockedAt := 0, releaseAt := 0, lockReason := .empty }

def replaceReleased (t : Tables) (d : NewDomain) : Tables :=
  { cancelDomainInvitations t d.domain with
    members := t.members.deleteWhere fun k _ => decide (k.1 = d.domain)
    artifacts := t.artifacts.updateWhere
      (fun _ a => decide (a.domain = d.domain) && decide (a.reclaimHoldAt = 0))
      fun _ a => { a with reclaimHoldAt := d.createdAt } }

def Tables.replaces (t : Tables) (d : NewDomain) : Bool :=
  (t.domains.load d.domain).any fun r => r.releasedReservation d.createdAt

def claimBase (t : Tables) (d : NewDomain) : Tables :=
  if t.replaces d then replaceReleased t d else t

def claimDomain (t : Tables) (d : NewDomain) (owner : Text) : Except MavenError Tables := do
  let base := claimBase t d
  refuse (base.members.has (d.domain, owner) = true) .duplicateRow
  return { base with
    domains := base.domains.store d.domain (d.row (t.replaces d))
    members := base.members.store (d.domain, owner) permissionOwner }

def createMavenDomain (t : Tables) (d : NewDomain) (owner : Text) : Except MavenError Tables := do
  refuse (d.superTeam ≠ [] ∧ env.validTeam d.superTeam = false) .bindingMismatch
  refuse (d.domain = [] ∨ d.verificationHost = [] ∨ d.verificationCode = [] ∨ owner = []) .invalid
  refuse (d.verified = true ∧ validMavenProviderIdentity d.verificationType d.health = false)
    .verificationFailed
  refuse (env.existing owner = false) .permissionDenied
  refuse (env.deleted owner = true) .accountDeleted
  refuse (d.superTeam ≠ [] ∧ env.managesTeam d.superTeam owner = false) .bindingPermission
  refuse (ancestorLocked env t d.domain = true) .resourceLocked
  refuse (t.domains.has d.domain = true ∧ otherLocks env t d.domain = true) .resourceLocked
  checkReservation (t.domains.load d.domain) d.createdAt
  refuse (t.members.count (fun k level => decide (k.2 = owner) && decide (level = permissionOwner) &&
    decide (k.1 ≠ d.domain)) ≥ maxMavenDomainsPerOwner) .invalid
  claimDomain t d owner

def MavenDomain.markVerified (r : MavenDomain) (verifiedAt : ℤ) : Except MavenError MavenDomain :=
  match r.claimStatus with
  | .empty => .ok { r with verified := true, verifiedAt := verifiedAt }
  | .awaitingVerification | .rejected =>
    .ok { r with claimStatus := .pending, claimVerifiedAt := verifiedAt }
  | .pending => .error .claimReviewInvalid

def MavenDomain.setHealth (r : MavenDomain) (health : Option MavenDomainHealth) : MavenDomain :=
  match health with
  | none => r
  | some h =>
    { r with health := { r.health with
        providerType := h.providerType
        providerID := h.providerID
        status := h.status
        checkedAt := h.checkedAt
        nextCheckAt := h.nextCheckAt
        expiresAt := h.expiresAt } }

def markMavenDomainVerified (t : Tables) (domain code : Text) (verifiedAt : ℤ)
    (health : Option MavenDomainHealth) : Except MavenError Tables := do
  refuse (domain = [] ∨ verifiedAt ≤ 0) .verificationFailed
  let r ← lockMavenDomain env t domain
  refuse (ancestorLocked env t domain = true) .resourceLocked
  refuse (r.verificationCode ≠ code ∨ r.verified = true) .verificationFailed
  refuse (r.closedAt ≠ 0) .domainClosed
  refuse (validMavenProviderIdentity r.verificationType health = false ∨
    health.any (fun h => decide (h.status ≠ .active)) = true) .verificationFailed
  let r ← r.markVerified verifiedAt
  return { t with domains := t.domains.store domain (r.setHealth health) }

structure Expected where
  domain : Text
  row : MavenDomain

def sameProvider (expected : Expected) (health : MavenDomainHealth) : Bool :=
  decide (expected.row.health.providerID = []) ||
    decide (expected.row.health.providerID = health.providerID ∧
      expected.row.health.providerType = health.providerType)

/-- The evidence that `ReviewMavenDomainClaim` asks of an approval. -/
def approvable (expected : Expected) (health : Option MavenDomainHealth) : Bool :=
  health.any fun h => decide (h.status = .active) && decide (0 < h.checkedAt) &&
    validMavenProviderIdentity expected.row.verificationType health && sameProvider expected h

def MavenDomain.decideClaim (r : MavenDomain) (health : Option MavenDomainHealth) (approved : Bool)
    (reviewedAt : ℤ) : MavenDomain :=
  match approved, health with
  | true, some h =>
    { r with
      verified := true
      verifiedAt := reviewedAt
      claimStatus := .empty
      health := { r.health with
        status := .active
        checkedAt := h.checkedAt
        nextCheckAt := h.nextCheckAt
        expiresAt := h.expiresAt } }
  | _, _ => { r with verified := false, verifiedAt := 0, claimStatus := .rejected }

def reviewMavenDomainClaim (t : Tables) (expected : Expected) (health : Option MavenDomainHealth)
    (actor : Text) (approved : Bool) (reviewedAt : ℤ) : Except MavenError Tables := do
  refuse (expected.domain = [] ∨ reviewedAt ≤ 0) .claimReviewInvalid
  refuse (env.profileTx actor = false) .permissionDenied
  refuse (env.deleted actor = true) .accountDeleted
  refuse (env.isManager actor = false) .permissionDenied
  let r ← lockMavenDomain env t expected.domain
  refuse (ancestorLocked env t expected.domain = true) .resourceLocked
  refuse (r.closedAt ≠ 0 ∨ r.claimStatus ≠ .pending) .claimReviewInvalid
  refuse (approved = true ∧ approvable expected health = false) .verificationFailed
  refuse (r.verificationCode ≠ expected.row.verificationCode ∨
    r.createdAt ≠ expected.row.createdAt) .claimReviewInvalid
  return { t with
    domains := t.domains.store expected.domain (r.decideClaim health approved reviewedAt) }

def checkOwner (t : Tables) (domain actor : Text) (administrator : Bool) : Except MavenError Unit :=
  if administrator = true then .ok ()
  else if env.profileTx actor = false then .error .permissionDenied
  else requireMavenMemberPermission env t domain actor permissionOwner

def MavenDomain.close (r : MavenDomain) (closedAt : ℤ) : MavenDomain :=
  { r with
    verified := false
    closedAt := closedAt
    releaseAt := closedAt + releaseLockMillis
    claimStatus := .empty
    claimVerifiedAt := 0
    lastCheckAt := 0 }

def closeMavenDomain (t : Tables) (domain actor : Text) (administrator : Bool) (closedAt : ℤ) :
    Except MavenError Tables := do
  refuse (domain = [] ∨ actor = [] ∨ closedAt ≤ 0 ∨ closedAt > 2 ^ 63 - 1 - releaseLockMillis)
    .permissionDenied
  let r ← lockMavenDomain env t domain
  checkOwner env t domain actor administrator
  refuse (r.verificationType = .mirror) .permissionDenied
  refuse (r.closedAt ≠ 0) .domainClosed
  refuse (env.pendingReview domain = true) .reviewPending
  let t := cancelDomainInvitations t domain
  return { t with domains := t.domains.store domain (r.close closedAt) }

def forceDeleteMavenDomain (t : Tables) (domain actor : Text) : Except MavenError Tables := do
  refuse (domain = [] ∨ actor = []) .permissionDenied
  let r ← lockMavenDomainRow t domain
  refuse (r.verificationType = .mirror) .permissionDenied
  refuse (env.pendingReview domain = true) .reviewPending
  let t := cancelDomainInvitations t domain
  return { t with
    members := t.members.deleteWhere fun k _ => decide (k.1 = domain)
    domains := t.domains.delete domain }

def locks (expected : Expected) (health : MavenDomainHealth) : Bool :=
  decide (expected.row.health.lockedAt = 0) && decide (health.status ≠ .active) &&
    decide (health.status ≠ .unavailable)

def recordedRow (expected : Expected) (health : MavenDomainHealth) (releaseAt : ℤ) (code : Text)
    (r : MavenDomain) : MavenDomain :=
  let lock := locks expected health
  { r with
    verificationCode := if lock then code else expected.row.verificationCode
    health := { r.health with
      status := health.status
      checkedAt := health.checkedAt
      nextCheckAt := health.nextCheckAt
      expiresAt :=
        if health.expiresAt = 0 then expected.row.health.expiresAt else health.expiresAt
      lockedAt := if lock then health.checkedAt else expected.row.health.lockedAt
      releaseAt := if lock then releaseAt else expected.row.health.releaseAt
      lockReason := if lock then health.status else expected.row.health.lockReason } }

def unchanged (expected : Expected) (r : MavenDomain) : Bool :=
  decide (r.verificationCode = expected.row.verificationCode) &&
    decide (r.createdAt = expected.row.createdAt) && decide (r.closedAt = 0) &&
    decide (r.health.lockedAt = expected.row.health.lockedAt) &&
    decide (r.health.providerID = expected.row.health.providerID) &&
    decide (r.health.providerType = expected.row.health.providerType)

def byteLength (text : Text) : ℕ := (text.map Char.utf8Size).sum

def recordMavenDomainHealth (t : Tables) (expected : Expected) (health : MavenDomainHealth)
    (releaseAt : ℤ) (code : Text) : Except MavenError Tables := do
  refuse (health.checkedAt ≤ 0 ∨ health.nextCheckAt ≤ health.checkedAt) .verificationFailed
  refuse (health.status = .empty) .verificationFailed
  refuse (locks expected health = true ∧ (releaseAt ≤ health.checkedAt ∨ code = [] ∨
    code = expected.row.verificationCode ∨ byteLength code > 128)) .verificationFailed
  match t.domains.load expected.domain with
  | none => return t
  | some r =>
    if unchanged expected r && decide (r.health.checkedAt = expected.row.health.checkedAt) then
      return { t with
        domains := t.domains.store expected.domain (recordedRow expected health releaseAt code r) }
    else return t

def MavenDomain.redeem (r : MavenDomain) (health : MavenDomainHealth) : MavenDomain :=
  { r with health := {
      providerType := health.providerType
      providerID := health.providerID
      status := .active
      checkedAt := health.checkedAt
      nextCheckAt := health.nextCheckAt
      expiresAt := health.expiresAt
      lockedAt := 0
      releaseAt := 0
      lockReason := .empty } }

def redeemMavenDomain (t : Tables) (expected : Expected) (health : MavenDomainHealth)
    (actor session : Text) : Except MavenError Tables := do
  refuse (expected.row.health.lockedAt = 0 ∨ health.status ≠ .active ∨ health.checkedAt ≤ 0 ∨
    validMavenProviderIdentity expected.row.verificationType (some health) = false)
    .verificationFailed
  refuse (sameProvider expected health = false) .verificationFailed
  refuse (env.session actor session = false) .permissionDenied
  let r ← lockMavenDomainRow t expected.domain
  requireMavenMemberPermission env t expected.domain actor permissionOwner
  refuse (ancestorLocked env t expected.domain = true) .resourceLocked
  refuse (unchanged expected r = false ∨ health.checkedAt < r.health.checkedAt) .verificationFailed
  return { t with domains := t.domains.store expected.domain (r.redeem health) }

inductive DomainCall where
  | createMavenDomain (d : NewDomain) (owner : Text)
  | markMavenDomainVerified (domain code : Text) (verifiedAt : ℤ) (health : Option MavenDomainHealth)
  | reviewMavenDomainClaim (expected : Expected) (health : Option MavenDomainHealth) (actor : Text)
      (approved : Bool) (reviewedAt : ℤ)
  | ensureMirroredMavenDomain (domain : Text) (createdAt : ℤ)
  | importLegacyMavenPath (domain : Text) (importedAt : ℤ)
  | closeMavenDomain (domain actor : Text) (administrator : Bool) (closedAt : ℤ)
  | forceDeleteMavenDomain (domain actor : Text)
  | recordMavenDomainHealth (expected : Expected) (health : MavenDomainHealth) (releaseAt : ℤ)
      (code : Text)
  | redeemMavenDomain (expected : Expected) (health : MavenDomainHealth) (actor session : Text)

def domainCall (t : Tables) : DomainCall → Except MavenError Tables
  | .createMavenDomain d owner => createMavenDomain env t d owner
  | .markMavenDomainVerified domain code verifiedAt health =>
    markMavenDomainVerified env t domain code verifiedAt health
  | .reviewMavenDomainClaim expected health actor approved reviewedAt =>
    reviewMavenDomainClaim env t expected health actor approved reviewedAt
  | .ensureMirroredMavenDomain domain createdAt => ensureMirroredMavenDomain t domain createdAt
  | .importLegacyMavenPath domain importedAt =>
    ensureImportedMavenDomain t (legacyDomain domain importedAt)
  | .closeMavenDomain domain actor administrator closedAt =>
    closeMavenDomain env t domain actor administrator closedAt
  | .forceDeleteMavenDomain domain actor => forceDeleteMavenDomain env t domain actor
  | .recordMavenDomainHealth expected health releaseAt code =>
    recordMavenDomainHealth t expected health releaseAt code
  | .redeemMavenDomain expected health actor session =>
    redeemMavenDomain env t expected health actor session

end RenoP.Maven
