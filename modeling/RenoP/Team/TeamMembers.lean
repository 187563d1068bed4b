import RenoP.Database.PublicationQuota

/-!
# Resource teams

What the Docker and npm teams of `internal/database` share: member rows, pending invitations with
their messages, the roles of the bound global team, `team.go` and `super_team_binding.go`. A user
is the account name that `sanitizeDockerUsername` or `sanitizeNPMUsername` leaves. A call that
fails is rolled back.
-/

namespace RenoP.Team

open RenoP.Database (Text)

/-- `DockerPermissionRead`, `NPMPermissionRead` -/
def permissionRead : ℤ := 0
/-- `DockerPermissionTeam`, `NPMPermissionTeam` -/
def permissionTeam : ℤ := 3
/-- `DockerPermissionOwner`, `NPMPermissionOwner` -/
def permissionOwner : ℤ := 4

inductive TeamError where
  | batchInvalid
  | batchMixed
  | levelInvalid
  | nameInvalid
  | messageMismatch
  | profileNotFound
  | resourceNotFound
  | permissionDenied
  | bindingPermission
  | accountDeleted
  | resourceLocked
  | memberExists
  | invitationExists
  | invitationInvalid
  | duplicateRow
  | ownerCannotLeave
  | lastFullMember
  deriving DecidableEq

/-- `user_messages.action_status`; a message without an action has the empty one. -/
inductive ActionStatus where
  | empty
  | pending
  | accepted
  | rejected
  | cancelled
  deriving DecidableEq

structure Message where
  recipient : Text
  actionKind : Text
  actionStatus : ActionStatus
  expiresAt : ℤ
  deriving DecidableEq

structure Invitation where
  inviter : Text
  recipient : Text
  level : ℤ
  createdAt : ℤ
  deriving DecidableEq

structure TeamTables where
  members : GoMap Text ℤ
  invitations : GoMap Text Invitation
  messages : GoMap Text Message
  /-- `super_team_members` of the bound global team -/
  roles : GoMap Text ℤ

/-- What a call finds in `user_profiles`, `tokens` and `resource_locks`. -/
structure Accounts where
  profile : Text → Bool
  token : Text → Bool
  deleted : Text → Bool
  locked : Bool

def openAccounts : Accounts := ⟨fun _ => true, fun _ => true, fun _ => false, false⟩

def ensureUserProfile (env : Accounts) (user : Text) : Bool := !env.deleted user

def userIDForUsername (env : Accounts) (user : Text) : Bool := env.profile user

def userIDForUsernameTx (env : Accounts) (user : Text) : Bool := env.profile user && !env.deleted user

def userIDForExistingAccount (env : Accounts) (user : Text) : Bool :=
  env.token user && !env.deleted user && env.profile user

structure TeamFormat where
  actionKind : Text
  /-- The account of an invited or added user. -/
  resolves : Accounts → Text → Bool
  /-- The messages that the cancellation of an invitation to `recipient` closes. -/
  closes : Message → Text → Bool

def superTeamPackagePermission (role : ℤ) : ℤ :=
  if role = 1 then 0
  else if role = 2 then 2
  else if role = 3 then 3
  else if role = 4 then 4
  else -1

def effectiveBoundPermission (explicitLevel : ℤ) (explicitMember : Bool) (superTeamRole : ℤ)
    (superTeamMember : Bool) : ℤ × Bool :=
  let mapped := superTeamPackagePermission superTeamRole
  let level := if superTeamMember && (!explicitMember || decide (mapped > explicitLevel)) then mapped
    else explicitLevel
  (if level < 0 then 0 else level, explicitMember || superTeamMember)

/-- `dockerEffectivePermissionTx`, `npmEffectivePermissionTx` -/
def TeamTables.effectivePermission (t : TeamTables) (user : Text) : ℤ × Bool :=
  effectiveBoundPermission ((t.members.load user).getD 0) (t.members.has user)
    ((t.roles.load user).getD 0) (t.roles.has user)

def TeamTables.permits (t : TeamTables) (user : Text) (required : ℤ) : Bool :=
  (t.effectivePermission user).2 && decide (required ≤ (t.effectivePermission user).1)

/-- `UPDATE … SET permission_level = L3 WHERE permission_level = L4 AND user_id != ?` -/
def demoteOwners (members : GoMap Text ℤ) (target : Text) : GoMap Text ℤ :=
  members.updateWhere (fun u level => decide (level = permissionOwner) && decide (u ≠ target))
    fun _ _ => permissionTeam

/-- `UPDATE … SET permission_level = L3 WHERE permission_level = L4` -/
def demoteAllOwners (members : GoMap Text ℤ) : GoMap Text ℤ :=
  members.updateWhere (fun _ level => decide (level = permissionOwner)) fun _ _ => permissionTeam

/-- `UPDATE … SET permission_level = ? WHERE user_id = ?` -/
def setLevel (members : GoMap Text ℤ) (user : Text) (level : ℤ) : GoMap Text ℤ :=
  members.updateWhere (fun u _ => decide (u = user)) fun _ _ => level

def otherOwners (members : GoMap Text ℤ) (user : Text) : ℕ :=
  members.count fun u level => decide (level = permissionOwner) && decide (u ≠ user)

def TeamTables.invitationOf (t : TeamTables) (recipient : Text) : Option (Text × Invitation) :=
  (t.invitations.entries.find? fun e => decide (e.2.recipient = recipient)).map fun e => (e.1, e.2)

/-- `cancelDockerInvitations`, `cancelNPMInvitations` of one recipient. -/
def cancelInvitations (format : TeamFormat) (t : TeamTables) (recipient : Text) : TeamTables :=
  { t with
    messages := t.messages.updateWhere
      (fun id m => (t.invitations.load id).any (fun i => decide (i.recipient = recipient)) &&
        format.closes m recipient && decide (m.actionStatus = .pending))
      fun _ m => { m with actionStatus := .cancelled }
    invitations := t.invitations.deleteWhere fun _ i => decide (i.recipient = recipient) }

/-- An invitation with its message, as `CreateDockerInvitations` and `CreateNPMInvitations` get
them. -/
structure InvitationRequest where
  id : Text
  invitation : Invitation
  message : Message

def validLevel (level : ℤ) : Bool := decide (permissionRead ≤ level) && decide (level ≤ permissionOwner)

def checkRequests : List InvitationRequest → Except TeamError Unit
  | [] => .ok ()
  | r :: rs =>
    if !validLevel r.invitation.level then .error .levelInvalid
    else if r.id = [] ∨ r.invitation.recipient ≠ r.message.recipient then .error .messageMismatch
    else checkRequests rs

def stillOpen (t : TeamTables) (id : Text) (i : Invitation) (now : ℤ) : Bool :=
  let message := (t.messages.load id).filter fun m => decide (m.recipient = i.recipient)
  decide ((message.map (·.actionStatus)).getD .empty = .pending) &&
    decide ((message.map (·.expiresAt)).getD 0 > now) &&
    decide ((t.members.load i.inviter).getD 0 ≥ permissionTeam)

def insertInvitation (t : TeamTables) (r : InvitationRequest) : Except TeamError TeamTables :=
  if t.messages.has r.id || t.invitations.has r.id ||
      (t.invitationOf r.invitation.recipient).isSome then .error .duplicateRow
  else .ok { t with
    messages := t.messages.store r.id r.message
    invitations := t.invitations.store r.id r.invitation }

def createInvitation (format : TeamFormat) (t : TeamTables) (inviter : Text) (inviterLevel : ℤ)
    (r : InvitationRequest) : Except TeamError TeamTables :=
  if r.invitation.inviter ≠ inviter then .error .batchMixed
  else if r.invitation.level = permissionOwner ∧ inviterLevel < permissionOwner then
    .error .permissionDenied
  else if t.members.has r.invitation.recipient then .error .memberExists
  else match t.invitationOf r.invitation.recipient with
  | none => insertInvitation t r
  | some (id, i) =>
    if stillOpen t id i r.invitation.createdAt then .error .invitationExists
    else insertInvitation (cancelInvitations format t r.invitation.recipient) r

def createInvitations (format : TeamFormat) (inviter : Text) (inviterLevel : ℤ) :
    TeamTables → List InvitationRequest → Except TeamError TeamTables
  | t, [] => .ok t
  | t, r :: rs =>
    match createInvitation format t inviter inviterLevel r with
    | .error err => .error err
    | .ok t => createInvitations format inviter inviterLevel t rs

def acceptInvitation (env : Accounts) (t : TeamTables) (i : Invitation) :
    Except TeamError TeamTables :=
  if !userIDForUsernameTx env i.inviter || !userIDForUsernameTx env i.recipient then
    .error .invitationInvalid
  else if !t.permits i.inviter permissionTeam then .error .invitationInvalid
  else if i.level = permissionOwner ∧ (t.effectivePermission i.inviter).1 < permissionOwner then
    .error .invitationInvalid
  else if t.members.has i.recipient then .error .memberExists
  else
    let members := if i.level = permissionOwner then demoteOwners t.members i.recipient else t.members
    .ok { t with members := members.store i.recipient i.level }

def answerStatus (accept : Bool) : ActionStatus := if accept then .accepted else .rejected

def answerMessage (actionKind : Text) (messages : GoMap Text Message) (id recipient : Text)
    (accept : Bool) (actedAt : ℤ) : Option (GoMap Text Message) :=
  match messages.load id with
  | none => none
  | some m =>
    if m.recipient ≠ recipient ∨ m.actionKind ≠ actionKind ∨ m.actionStatus ≠ .pending ∨
        ¬(m.expiresAt = 0 ∨ m.expiresAt > actedAt) then none
    else some (messages.store id { m with actionStatus := answerStatus accept })

def completeInvitation (format : TeamFormat) (t : TeamTables) (id recipient : Text) (accept : Bool)
    (actedAt : ℤ) : Except TeamError TeamTables :=
  match answerMessage format.actionKind t.messages id recipient accept actedAt with
  | none => .error .invitationInvalid
  | some messages =>
    .ok { t with messages := messages, invitations := t.invitations.delete id }

def TeamTables.invitationFor (t : TeamTables) (id recipient : Text) : Option Invitation :=
  (t.invitations.load id).filter fun i => decide (i.recipient = recipient)

/-- `RespondDockerInvitation`, `RespondNPMInvitation` -/
def respondInvitation (format : TeamFormat) (env : Accounts) (t : TeamTables) (id recipient : Text)
    (accept : Bool) (actedAt : ℤ) : Except TeamError TeamTables :=
  match t.invitationFor id recipient with
  | none => .error .invitationInvalid
  | some i =>
    if env.locked then .error .resourceLocked
    else match if accept then acceptInvitation env t i else .ok t with
    | .error err => .error err
    | .ok t => completeInvitation format t id recipient accept actedAt

def uniqueUsernames (lookup : Text → Bool) (missing : TeamError) :
    List Text → List Text → Except TeamError (List Text)
  | unique, [] => .ok unique
  | unique, u :: us =>
    if u = [] then .error .nameInvalid
    else if u ∈ unique then uniqueUsernames lookup missing unique us
    else if !lookup u then .error missing
    else uniqueUsernames lookup missing (unique ++ [u]) us

def checkNewMembers (env : Accounts) (t : TeamTables) : List Text → Except TeamError Unit
  | [] => .ok ()
  | u :: us =>
    if env.deleted u then .error .accountDeleted
    else if t.members.has u then .error .memberExists
    else checkNewMembers env t us

def addMember (format : TeamFormat) (level : ℤ) (t : TeamTables) (user : Text) : TeamTables :=
  cancelInvitations format { t with members := t.members.store user level } user

def rowsBefore (members : GoMap Text ℤ) (level : ℤ) : GoMap Text ℤ :=
  if level = permissionOwner then demoteAllOwners members else members

def addMembers (format : TeamFormat) (env : Accounts) (t : TeamTables) (users : List Text)
    (level : ℤ) : Except TeamError TeamTables :=
  if level = permissionOwner ∧ users.length ≠ 1 then .error .batchInvalid
  else if env.locked then .error .resourceLocked
  else match checkNewMembers env t users with
  | .error err => .error err
  | .ok () =>
    .ok (users.foldl (addMember format level) { t with members := rowsBefore t.members level })

def forceAddMembers (format : TeamFormat) (env : Accounts) (t : TeamTables) (usernames : List Text)
    (level : ℤ) : Except TeamError TeamTables :=
  match uniqueUsernames (format.resolves env) .profileNotFound [] usernames with
  | .error err => .error err
  | .ok users => addMembers format env t users level

def TeamTables.transfers (t : TeamTables) (username : Text) (level : ℤ) : Bool :=
  decide (level = permissionOwner) && decide (t.members.load username ≠ some permissionOwner)

/-- The change of a member at level `current`. -/
def changeLevel (t : TeamTables) (actor username : Text) (level current : ℤ) :
    Except TeamError TeamTables :=
  if current = permissionOwner ∧ level < permissionOwner ∧ otherOwners t.members username = 0 then
    .error .lastFullMember
  else if t.transfers username level then
    if actor = [] then
      .ok { t with members := setLevel (demoteOwners t.members username) username level }
    else if (t.effectivePermission actor).1 ≠ permissionOwner ∨ actor = username then
      .error .permissionDenied
    else
      -- the actor's own row takes the target's level
      .ok { t with members := setLevel (setLevel t.members actor current) username level }
  else .ok { t with members := setLevel t.members username level }

/-- `SetDockerMemberLevel`, `SetNPMMemberLevel`; no actor is an administrator. -/
def setMemberLevel (env : Accounts) (t : TeamTables) (actor username : Text) (level : ℤ) :
    Except TeamError TeamTables :=
  if !validLevel level then .error .levelInvalid
  else if !userIDForUsername env username then .error .resourceNotFound
  else if actor ≠ [] ∧ userIDForUsername env actor = false then .error .permissionDenied
  else if env.deleted username then .error .accountDeleted
  else if env.locked then .error .resourceLocked
  else if actor ≠ [] ∧ t.permits actor permissionTeam = false then .error .permissionDenied
  else match t.members.load username with
  | none => .error .resourceNotFound
  | some current => changeLevel t actor username level current

def removalAllowed (t : TeamTables) (actor : Text) : List Text → Except TeamError Unit
  | [] => .ok ()
  | u :: us =>
    if u ≠ actor ∧ (t.effectivePermission actor).1 < permissionTeam then .error .permissionDenied
    else if u = actor ∧ (t.effectivePermission actor).1 = permissionOwner then
      .error .ownerCannotLeave
    else removalAllowed t actor us

def deleteMembers (t : TeamTables) (users : List Text) : Except TeamError TeamTables :=
  let ownersRemoved := users.countP fun u => decide (t.members.load u = some permissionOwner)
  let ownerCount := t.members.count fun _ level => decide (level = permissionOwner)
  if !users.all t.members.has then .error .resourceNotFound
  else if 0 < ownersRemoved ∧ ownersRemoved ≥ ownerCount then .error .lastFullMember
  else .ok { t with members := users.foldl GoMap.delete t.members }

def removeMembers (env : Accounts) (t : TeamTables) (actor : Text) (users : List Text) :
    Except TeamError TeamTables :=
  if actor ≠ [] ∧ userIDForUsername env actor = false then .error .permissionDenied
  else if env.locked then .error .resourceLocked
  else if actor ≠ [] ∧ (t.effectivePermission actor).2 = false then .error .permissionDenied
  else match if actor = [] then .ok () else removalAllowed t actor users with
  | .error err => .error err
  | .ok () => deleteMembers t users

def removeTeamMembers (env : Accounts) (t : TeamTables) (actor : Text) (usernames : List Text) :
    Except TeamError TeamTables :=
  if usernames = [] ∨ usernames.length > 20 then .error .batchInvalid
  else match uniqueUsernames (userIDForUsername env) .resourceNotFound [] usernames with
  | .error err => .error err
  | .ok users => removeMembers env t actor users

end RenoP.Team
