import RenoP.Maven.Domains

/-!
# Members of Maven domains

The calls of `maven_team.go`, the approval of a restore review in `maven_restore.go`, and all
calls on domains.
-/

namespace RenoP.Maven

open RenoP.Database (Text)
open Fallible (refuse)

variable (env : Outside)

def validLevel (level : ℤ) : Bool := decide (0 ≤ level) && decide (level ≤ permissionOwner)

/-- `cancelMavenInvitations` of a domain and recipient. -/
def cancelInvitationsOf (t : Tables) (domain recipient : Text) : Tables :=
  { t with invitations := t.invitations.deleteWhere fun _ i =>
      decide (i.domain = domain) && decide (i.recipient = recipient) }

def invitationOf (t : Tables) (domain recipient : Text) : Option Text :=
  (t.invitations.entries.find? fun e =>
    decide (e.2.domain = domain) && decide (e.2.recipient = recipient)).map fun e => e.1

def createInvitation (first : MavenInvitation) (inviterLevel : ℤ) (t : Tables)
    (request : Text × MavenInvitation) : Except MavenError Tables := do
  let invitation := request.2
  refuse (invitation.domain ≠ first.domain ∨ invitation.inviter ≠ first.inviter) .invalid
  refuse (invitation.level = permissionOwner ∧ inviterLevel < permissionOwner) .permissionDenied
  refuse (t.members.has (invitation.domain, invitation.recipient) = true) .memberExists
  refuse ((invitationOf t invitation.domain invitation.recipient).any env.messagePending = true)
    .invitationExists
  let t := cancelInvitationsOf t invitation.domain invitation.recipient
  refuse (t.invitations.has request.1 = true) .duplicateRow
  return { t with invitations := t.invitations.store request.1 invitation }

def createMavenInvitations (t : Tables) (requests : List (Text × MavenInvitation)) :
    Except MavenError Tables :=
  match requests with
  | [] => .error .invalid
  | first :: _ => do
    let first := first.2
    refuse (requests.length > 20) .invalid
    refuse (requests.any (fun r => !validLevel r.2.level || decide (r.1 = [])) = true) .invalid
    refuse (env.existing first.inviter = false) .permissionDenied
    refuse (requests.any (fun r => !env.existing r.2.recipient) = true) .profileNotFound
    refuse (env.deleted first.inviter = true ∨
      requests.any (fun r => env.deleted r.2.recipient) = true) .accountDeleted
    let _ ← lockMavenDomain env t first.domain
    let (level, member) ← effectivePermission env t first.domain first.inviter
    refuse (member = false ∨ level < permissionManage) .permissionDenied
    requests.foldlM (createInvitation env first level) t

/-- `UPDATE … SET permission_level = L3 WHERE permission_level = L4 AND user_id != ?` -/
def demoteOwners (members : GoMap (Text × Text) ℤ) (domain user : Text) : GoMap (Text × Text) ℤ :=
  members.updateWhere (fun k level => decide (k.1 = domain) &&
    decide (level = permissionOwner) && decide (k.2 ≠ user)) fun _ _ => permissionManage

/-- `UPDATE … SET permission_level = L3 WHERE permission_level = L4` -/
def demoteAllOwners (members : GoMap (Text × Text) ℤ) (domain : Text) : GoMap (Text × Text) ℤ :=
  members.updateWhere (fun k level => decide (k.1 = domain) &&
    decide (level = permissionOwner)) fun _ _ => permissionManage

/-- `UPDATE … SET permission_level = ? WHERE user_id = ?` -/
def setLevel (members : GoMap (Text × Text) ℤ) (domain user : Text) (level : ℤ) :
    GoMap (Text × Text) ℤ :=
  members.updateWhere (fun k _ => decide (k = (domain, user))) fun _ _ => level

def requireAnotherMavenOwner (t : Tables) (domain user : Text) : Except MavenError Unit :=
  refuse (t.members.count (fun k level => decide (k.1 = domain) &&
    decide (level = permissionOwner) && decide (k.2 ≠ user)) = 0) .lastFullMember

def uniqueUsernames : List Text → List Text → Except MavenError (List Text)
  | unique, [] => .ok unique
  | unique, u :: us =>
    if u = [] then .error .invalid
    else if u ∈ unique then uniqueUsernames unique us
    else if env.existing u = false then .error .profileNotFound
    else uniqueUsernames (unique ++ [u]) us

def checkNewMembers (t : Tables) (domain : Text) : List Text → Except MavenError Unit
  | [] => .ok ()
  | u :: us =>
    if env.deleted u then .error .accountDeleted
    else if t.members.has (domain, u) then .error .memberExists
    else checkNewMembers t domain us

def addMember (domain : Text) (level : ℤ) (t : Tables) (user : Text) : Tables :=
  cancelInvitationsOf { t with members := t.members.store (domain, user) level } domain user

def forceAddMavenMembers (t : Tables) (domain : Text) (usernames : List Text) (level : ℤ) :
    Except MavenError Tables := do
  refuse (usernames.length = 0 ∨ usernames.length > 20 ∨ validLevel level = false) .invalid
  let users ← uniqueUsernames env [] usernames
  refuse (users.length = 0 ∨ (level = permissionOwner ∧ users.length ≠ 1)) .invalid
  let _ ← lockMavenDomain env t domain
  checkNewMembers env t domain users
  let members := if level = permissionOwner then demoteAllOwners t.members domain else t.members
  return users.foldl (addMember domain level) { t with members := members }

def acceptInvitation (t : Tables) (i : MavenInvitation) : Except MavenError Tables := do
  refuse (env.profileTx i.inviter = false ∨ env.profileTx i.recipient = false) .invitationInvalid
  refuse (env.deleted i.recipient = true) .accountDeleted
  match effectivePermission env t i.domain i.inviter with
  | .error _ => .error .invitationInvalid
  | .ok (level, member) =>
    refuse (member = false ∨ level < permissionManage ∨
      (i.level = permissionOwner ∧ level < permissionOwner)) .invitationInvalid
    refuse (t.members.has (i.domain, i.recipient) = true) .memberExists
    let members := if i.level = permissionOwner then demoteOwners t.members i.domain i.recipient
      else t.members
    return { t with members := members.store (i.domain, i.recipient) i.level }

def answered (t : Tables) (i : MavenInvitation) (accept : Bool) : Except MavenError Tables :=
  if accept then acceptInvitation env t i else .ok t

def respondMavenInvitation (t : Tables) (id recipient : Text) (accept : Bool) :
    Except MavenError Tables :=
  match (t.invitations.load id).filter fun i => decide (i.recipient = recipient) with
  | none => .error .invitationInvalid
  | some i => do
    let _ ← lockMavenDomain env t i.domain
    let t ← answered env t i accept
    refuse (env.messagePending id = false) .invitationInvalid
    return { t with invitations := t.invitations.delete id }

def actorLevel (t : Tables) (domain actor : Text) : Except MavenError ℤ :=
  if actor = [] then .ok 0
  else match effectivePermission env t domain actor with
  | .error _ => .error .permissionDenied
  | .ok (level, member) =>
    if member = false ∨ level < permissionManage then .error .permissionDenied else .ok level

/-- The member rows of `SetMavenMemberLevel`: a new owner takes the place of the old one, whose row
takes the level of the new one where the actor is the owner. -/
def changeLevel (t : Tables) (domain actor username : Text) (actorLevel level current : ℤ) :
    Except MavenError (GoMap (Text × Text) ℤ) :=
  if level = permissionOwner ∧ current ≠ permissionOwner then
    if actor = [] then
      .ok (setLevel (demoteOwners t.members domain username) domain username level)
    else if actorLevel ≠ permissionOwner ∨ actor = username then .error .permissionDenied
    else .ok (setLevel (setLevel t.members domain actor current) domain username level)
  else .ok (setLevel t.members domain username level)

def checkLastOwner (t : Tables) (domain user : Text) (lowered : Prop) [Decidable lowered] :
    Except MavenError Unit :=
  if lowered then requireAnotherMavenOwner t domain user else .ok ()

def setMavenMemberLevel (t : Tables) (domain actor username : Text) (level : ℤ) :
    Except MavenError Tables := do
  refuse (validLevel level = false) .invalid
  refuse (env.profile username = false) .profileNotFound
  refuse (actor ≠ [] ∧ env.profile actor = false) .permissionDenied
  refuse (env.deleted username = true) .accountDeleted
  let _ ← lockMavenDomain env t domain
  let actorLevel ← actorLevel env t domain actor
  match t.members.load (domain, username) with
  | none => .error .domainNotFound
  | some current =>
    checkLastOwner t domain username (current = permissionOwner ∧ level < permissionOwner)
    let members ← changeLevel t domain actor username actorLevel level current
    return { t with members := members }

def checkRemover (t : Tables) (domain actor username : Text) : Except MavenError Unit :=
  if actor = [] then .ok ()
  else match effectivePermission env t domain actor with
  | .error _ => .error .permissionDenied
  | .ok (level, member) =>
    if member = false ∨ (username ≠ actor ∧ level < permissionManage) then .error .permissionDenied
    else refuse (username = actor ∧ level = permissionOwner) .ownerCannotLeave

def removeMavenMember (t : Tables) (domain actor username : Text) : Except MavenError Tables := do
  refuse (env.profile username = false) .profileNotFound
  refuse (actor ≠ [] ∧ env.profile actor = false) .permissionDenied
  let _ ← lockMavenDomain env t domain
  checkRemover env t domain actor username
  match t.members.load (domain, username) with
  | none => .error .domainNotFound
  | some current =>
    checkLastOwner t domain username (current = permissionOwner)
    return { t with members := t.members.delete (domain, username) }

structure RestoreSnapshot where
  domain : Text
  code : Text
  createdAt : ℤ
  holdAt : ℤ
  deriving DecidableEq

structure RestoreTask where
  artifact : ArtifactKey
  requestedBy : Text
  sourceTeam : Text
  targetTeam : Text
  snapshot : RestoreSnapshot

/-- `mavenRestoreStateTx`: the snapshot, and the teams of the artifact and of its domain -/
def mavenRestoreStateTx (t : Tables) (artifact : ArtifactKey) (actor : Text) :
    Except MavenError (RestoreSnapshot × Text × Text) := do
  refuse (env.deleted actor = true ∨ env.live actor = false) .reviewPermissionDenied
  match t.artifacts.load artifact with
  | none => .error .reviewResourceConflict
  | some a =>
    let r ← lockMavenDomain env t a.domain
    match requireMavenMemberPermission env t a.domain actor permissionOwner with
    | .error _ => .error .reviewPermissionDenied
    | .ok () =>
      refuse (a.reclaimHoldAt = 0 ∨ a.mirrored = true ∨ r.verified = false ∨ r.closedAt ≠ 0)
        .reviewResourceConflict
      refuse (env.deprecated artifact = true) .packageDeprecated
      refuse (env.artifactLock artifact = true) .resourceLocked
      return (⟨a.domain, r.verificationCode, r.createdAt, a.reclaimHoldAt⟩, a.superTeam, r.superTeam)

/-- The update of `applyMavenRestoreTx`. -/
def releaseHold (artifacts : GoMap ArtifactKey MavenArtifact) (task : RestoreTask)
    (targetTeam : Text) : GoMap ArtifactKey MavenArtifact :=
  artifacts.updateWhere
    (fun k a => decide (k = task.artifact) && decide (a.domain = task.snapshot.domain) &&
      decide (a.reclaimHoldAt = task.snapshot.holdAt))
    fun _ a => { a with reclaimHoldAt := 0, superTeam := targetTeam }

def applyMavenRestoreTx (t : Tables) (task : RestoreTask) : Except MavenError Tables := do
  let (current, sourceTeam, targetTeam) ← mavenRestoreStateTx env t task.artifact task.requestedBy
  refuse (current ≠ task.snapshot ∨ sourceTeam ≠ task.sourceTeam ∨ targetTeam ≠ task.targetTeam)
    .reviewResourceConflict
  return { t with artifacts := releaseHold t.artifacts task targetTeam }

inductive Call where
  | domain (call : DomainCall)
  | createMavenInvitations (requests : List (Text × MavenInvitation))
  | forceAddMavenMembers (domain : Text) (usernames : List Text) (level : ℤ)
  | respondMavenInvitation (id recipient : Text) (accept : Bool)
  | setMavenMemberLevel (domain actor username : Text) (level : ℤ)
  | removeMavenMember (domain actor username : Text)
  | approveMavenRestore (task : RestoreTask)

def mavenCall (t : Tables) : Call → Except MavenError Tables
  | .domain call => domainCall env t call
  | .createMavenInvitations requests => createMavenInvitations env t requests
  | .forceAddMavenMembers domain usernames level => forceAddMavenMembers env t domain usernames level
  | .respondMavenInvitation id recipient accept => respondMavenInvitation env t id recipient accept
  | .setMavenMemberLevel domain actor username level =>
    setMavenMemberLevel env t domain actor username level
  | .removeMavenMember domain actor username => removeMavenMember env t domain actor username
  | .approveMavenRestore task => applyMavenRestoreTx env t task

def next (t : Tables) (call : Outside × Call) : Tables :=
  match mavenCall call.1 t call.2 with
  | .error _ => t
  | .ok t => t

end RenoP.Maven
