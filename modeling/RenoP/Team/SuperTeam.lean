import RenoP.Team.TeamMembers

/-!
# Global teams

The members and invitations of all global teams, from `internal/database/super_team.go`. Every
call runs under the team mutation lock. User names are lower case and trimmed; the display texts
and links of a team are checked by `valid`.
-/

namespace RenoP.Team

open RenoP.Database (Text sanitizeSuperTeamPrefix)

def superTeamRoleRead : ℤ := 1
def superTeamRoleManage : ℤ := 3
def superTeamRoleOwner : ℤ := 4

def maxSuperTeamMutationMembers : ℕ := 20
def maxSuperTeamLimit : ℤ := 1000

structure SuperTeamInvitation where
  teamPrefix : Text
  inviter : Text
  recipient : Text
  level : ℤ
  createdAt : ℤ
  expiresAt : ℤ
  deriving DecidableEq

structure SuperTeamTables where
  /-- `super_teams`, with the creator -/
  teams : GoMap Text Text
  members : GoMap (Text × Text) ℤ
  invitations : GoMap Text SuperTeamInvitation
  messages : GoMap Text Message
  /-- `user_super_team_limits`: creation and join limits, negative when inherited -/
  limits : GoMap Text (ℤ × ℤ)

inductive SuperTeamError where
  | permissionDenied
  | teamNotFound
  | teamExists
  | resourceLocked
  | accountDeleted
  | limitsInvalid
  | createLimit
  | joinLimit
  | batchInvalid
  | updateInvalid
  | profileNotFound
  | recipientInvalid
  | recipientDuplicated
  | messageMismatch
  | memberExists
  | invitationExists
  | invitationInvalid
  | duplicateRow
  | ownerCannotLeave
  | lastOwner
  deriving DecidableEq

structure SuperTeamRequest where
  id : Text
  invitation : SuperTeamInvitation
  message : Message

def superTeamInvite : Text :=
  ['s', 'u', 'p', 'e', 'r', '_', 't', 'e', 'a', 'm', '_', 'i', 'n', 'v', 'i', 't', 'e']

/-- `effectiveSuperTeamLimitsTx`, the creation and the join limit -/
def effectiveSuperTeamLimitsTx (t : SuperTeamTables) (user : Text)
    (globalCreateLimit globalJoinLimit : ℤ) : Except SuperTeamError (ℤ × ℤ) :=
  if globalCreateLimit < 1 ∨ globalCreateLimit > maxSuperTeamLimit ∨ globalJoinLimit < 1 ∨
      globalJoinLimit > maxSuperTeamLimit then .error .limitsInvalid
  else match t.limits.load user with
  | none => .ok (globalCreateLimit, globalJoinLimit)
  | some (create, join) =>
    .ok (if create ≥ 0 then create else globalCreateLimit, if join ≥ 0 then join else globalJoinLimit)

def SuperTeamTables.created (t : SuperTeamTables) (user : Text) : ℕ :=
  t.teams.count fun _ creator => decide (creator = user)

def SuperTeamTables.joined (t : SuperTeamTables) (user : Text) : ℕ :=
  t.members.count fun k _ => decide (k.2 = user)

def checkJoinLimit (t : SuperTeamTables) (user : Text) (globalCreateLimit globalJoinLimit : ℤ) :
    Except SuperTeamError Unit :=
  match effectiveSuperTeamLimitsTx t user globalCreateLimit globalJoinLimit with
  | .error err => .error err
  | .ok (_, join) => if (t.joined user : ℤ) ≥ join then .error .joinLimit else .ok ()

def checkCreateLimit (t : SuperTeamTables) (user : Text) (globalCreateLimit globalJoinLimit : ℤ) :
    Except SuperTeamError Unit :=
  match effectiveSuperTeamLimitsTx t user globalCreateLimit globalJoinLimit with
  | .error err => .error err
  | .ok (create, _) => if (t.created user : ℤ) ≥ create then .error .createLimit else .ok ()

def createSuperTeam (env : Accounts) (t : SuperTeamTables) (teamPrefix owner : Text) (valid : Bool)
    (createdAt globalCreateLimit globalJoinLimit : ℤ) : Except SuperTeamError SuperTeamTables :=
  match sanitizeSuperTeamPrefix teamPrefix with
  | none => .error .permissionDenied
  | some team =>
    if !valid ∨ createdAt ≤ 0 ∨ userIDForExistingAccount env owner = false then
      .error .permissionDenied
    else if t.teams.has team then .error .teamExists
    else match checkCreateLimit t owner globalCreateLimit globalJoinLimit with
    | .error err => .error err
    | .ok () =>
      match checkJoinLimit t owner globalCreateLimit globalJoinLimit with
      | .error err => .error err
      | .ok () => .ok { t with
        teams := t.teams.store team owner
        members := t.members.store (team, owner) superTeamRoleOwner }

def otherSuperTeamOwners (t : SuperTeamTables) (team user : Text) : ℕ :=
  t.members.count fun k role =>
    decide (k.1 = team) && decide (role = superTeamRoleOwner) && decide (k.2 ≠ user)

def cancelSuperTeamInvitations (t : SuperTeamTables) (team recipient : Text) : SuperTeamTables :=
  { t with
    messages := t.messages.updateWhere
      (fun id m => (t.invitations.load id).any
          (fun i => decide (i.teamPrefix = team) && decide (i.recipient = recipient)) &&
        decide (m.actionStatus = .pending))
      fun _ m => { m with actionStatus := .cancelled }
    invitations := t.invitations.deleteWhere fun _ i =>
      decide (i.teamPrefix = team) && decide (i.recipient = recipient) }

def validRole (level : ℤ) : Bool :=
  decide (superTeamRoleRead ≤ level) && decide (level ≤ superTeamRoleOwner)

def checkSuperTeamRequests (env : Accounts) (team inviter : Text) :
    List Text → List SuperTeamRequest → Except SuperTeamError Unit
  | _, [] => .ok ()
  | seen, r :: rs =>
    if r.invitation.teamPrefix ≠ team ∨ r.invitation.inviter ≠ inviter ∨
        validRole r.invitation.level = false ∨ r.id = [] ∨
        r.invitation.expiresAt ≤ r.invitation.createdAt then .error .invitationInvalid
    else if !userIDForExistingAccount env r.invitation.recipient then .error .profileNotFound
    else if r.invitation.recipient = inviter then .error .recipientInvalid
    else if r.invitation.recipient ∈ seen then .error .recipientDuplicated
    else if r.message.recipient ≠ r.invitation.recipient then .error .messageMismatch
    else checkSuperTeamRequests env team inviter (r.invitation.recipient :: seen) rs

def SuperTeamTables.invitationTo (t : SuperTeamTables) (team recipient : Text) :
    Option SuperTeamInvitation :=
  (t.invitations.entries.find? fun e =>
    decide (e.2.teamPrefix = team) && decide (e.2.recipient = recipient)).map (·.2)

def insertSuperTeamInvitation (t : SuperTeamTables) (r : SuperTeamRequest) :
    Except SuperTeamError SuperTeamTables :=
  if t.messages.has r.id || t.invitations.has r.id ||
      (t.invitationTo r.invitation.teamPrefix r.invitation.recipient).isSome then
    .error .duplicateRow
  else .ok { t with
    messages := t.messages.store r.id r.message
    invitations := t.invitations.store r.id r.invitation }

def createSuperTeamInvitation (t : SuperTeamTables) (inviterLevel : ℤ) (r : SuperTeamRequest) :
    Except SuperTeamError SuperTeamTables :=
  if r.invitation.level ≥ superTeamRoleManage ∧ inviterLevel < superTeamRoleOwner then
    .error .permissionDenied
  else if t.members.has (r.invitation.teamPrefix, r.invitation.recipient) then .error .memberExists
  else match t.invitationTo r.invitation.teamPrefix r.invitation.recipient with
  | none => insertSuperTeamInvitation t r
  | some i =>
    if i.expiresAt > r.invitation.createdAt then .error .invitationExists
    else insertSuperTeamInvitation
      (cancelSuperTeamInvitations t r.invitation.teamPrefix r.invitation.recipient) r

def insertSuperTeamInvitations (inviterLevel : ℤ) :
    SuperTeamTables → List SuperTeamRequest → Except SuperTeamError SuperTeamTables
  | t, [] => .ok t
  | t, r :: rs =>
    match createSuperTeamInvitation t inviterLevel r with
    | .error err => .error err
    | .ok t => insertSuperTeamInvitations inviterLevel t rs

def createSuperTeamInvitationsTx (env : Accounts) (t : SuperTeamTables) (team inviter : Text)
    (rs : List SuperTeamRequest) : Except SuperTeamError SuperTeamTables :=
  if env.locked then .error .resourceLocked
  else match t.members.load (team, inviter) with
  | none => .error .permissionDenied
  | some inviterLevel =>
    if inviterLevel < superTeamRoleManage then .error .permissionDenied
    else insertSuperTeamInvitations inviterLevel t rs

def createSuperTeamInvitations (env : Accounts) (t : SuperTeamTables) (rs : List SuperTeamRequest) :
    Except SuperTeamError SuperTeamTables :=
  match rs with
  | [] => .error .batchInvalid
  | first :: _ =>
    if rs.length > maxSuperTeamMutationMembers then .error .batchInvalid
    else match sanitizeSuperTeamPrefix first.invitation.teamPrefix with
    | none => .error .teamNotFound
    | some team =>
      if !userIDForExistingAccount env first.invitation.inviter then .error .permissionDenied
      else match checkSuperTeamRequests env team first.invitation.inviter [] rs with
      | .error err => .error err
      | .ok () => createSuperTeamInvitationsTx env t team first.invitation.inviter rs

def superTeamCandidates (env : Accounts) : List Text → List Text → Except SuperTeamError (List Text)
  | candidates, [] => .ok candidates
  | candidates, u :: us =>
    if !userIDForExistingAccount env u then .error .profileNotFound
    else if u ∈ candidates then superTeamCandidates env candidates us
    else superTeamCandidates env (candidates ++ [u]) us

def addSuperTeamMember (t : SuperTeamTables) (team user : Text)
    (level globalCreateLimit globalJoinLimit : ℤ) : Except SuperTeamError SuperTeamTables :=
  if t.members.has (team, user) then .error .memberExists
  else match checkJoinLimit t user globalCreateLimit globalJoinLimit with
  | .error err => .error err
  | .ok () =>
    .ok (cancelSuperTeamInvitations
      { t with members := t.members.store (team, user) level } team user)

def addSuperTeamMembers (team : Text) (level globalCreateLimit globalJoinLimit : ℤ) :
    SuperTeamTables → List Text → Except SuperTeamError SuperTeamTables
  | t, [] => .ok t
  | t, u :: us =>
    match addSuperTeamMember t team u level globalCreateLimit globalJoinLimit with
    | .error err => .error err
    | .ok t => addSuperTeamMembers team level globalCreateLimit globalJoinLimit t us

def forceAddSuperTeamMembers (env : Accounts) (t : SuperTeamTables) (teamPrefix : Text)
    (usernames : List Text) (level globalCreateLimit globalJoinLimit actedAt : ℤ) :
    Except SuperTeamError SuperTeamTables :=
  match sanitizeSuperTeamPrefix teamPrefix with
  | none => .error .batchInvalid
  | some team =>
    if usernames = [] ∨ usernames.length > maxSuperTeamMutationMembers ∨ validRole level = false ∨
        actedAt ≤ 0 then .error .batchInvalid
    else match superTeamCandidates env [] usernames with
    | .error err => .error err
    | .ok users =>
      if env.locked then .error .resourceLocked
      else if !t.teams.has team then .error .teamNotFound
      else addSuperTeamMembers team level globalCreateLimit globalJoinLimit t users

def acceptSuperTeamInvitation (env : Accounts) (t : SuperTeamTables) (i : SuperTeamInvitation)
    (globalJoinLimit : ℤ) : Except SuperTeamError SuperTeamTables :=
  if env.locked then .error .resourceLocked
  else match t.members.load (i.teamPrefix, i.inviter) with
  | none => .error .invitationInvalid
  | some inviterLevel =>
    if inviterLevel < superTeamRoleManage ∨
        (i.level ≥ superTeamRoleManage ∧ inviterLevel < superTeamRoleOwner) then
      .error .invitationInvalid
    else if t.members.has (i.teamPrefix, i.recipient) then .error .memberExists
    else match checkJoinLimit t i.recipient 1 globalJoinLimit with
    | .error err => .error err
    | .ok () => .ok { t with members := t.members.store (i.teamPrefix, i.recipient) i.level }

def completeSuperTeamInvitation (t : SuperTeamTables) (id recipient : Text) (accept : Bool)
    (actedAt : ℤ) : Except SuperTeamError SuperTeamTables :=
  match answerMessage superTeamInvite t.messages id recipient accept actedAt with
  | none => .error .invitationInvalid
  | some messages =>
    .ok { t with messages := messages, invitations := t.invitations.delete id }

def SuperTeamTables.invitationFor (t : SuperTeamTables) (id recipient : Text) :
    Option SuperTeamInvitation :=
  (t.invitations.load id).filter fun i => decide (i.recipient = recipient)

def respondSuperTeamInvitation (env : Accounts) (t : SuperTeamTables) (id recipient : Text)
    (accept : Bool) (globalJoinLimit actedAt : ℤ) : Except SuperTeamError SuperTeamTables :=
  if id = [] ∨ actedAt ≤ 0 ∨ globalJoinLimit < 1 ∨ globalJoinLimit > maxSuperTeamLimit ∨
      userIDForExistingAccount env recipient = false then .error .invitationInvalid
  else match t.invitationFor id recipient with
  | none => .error .invitationInvalid
  | some i =>
    if i.expiresAt ≤ actedAt then .error .invitationInvalid
    else match if accept then acceptSuperTeamInvitation env t i globalJoinLimit else .ok t with
    | .error err => .error err
    | .ok t => completeSuperTeamInvitation t id recipient accept actedAt

def actingRole (t : SuperTeamTables) (team actor : Text) (administrator : Bool) : Option ℤ :=
  if administrator then some superTeamRoleOwner else t.members.load (team, actor)

def changeSuperTeamRole (t : SuperTeamTables) (team target : Text)
    (level actorLevel current : ℤ) (administrator : Bool) : Except SuperTeamError SuperTeamTables :=
  if administrator = false ∧ actorLevel < superTeamRoleOwner ∧
      (current ≥ superTeamRoleManage ∨ level ≥ superTeamRoleManage) then .error .permissionDenied
  else if current = superTeamRoleOwner ∧ level < superTeamRoleOwner ∧
      otherSuperTeamOwners t team target = 0 then .error .lastOwner
  else .ok { t with members := t.members.store (team, target) level }

def setSuperTeamMemberLevel (env : Accounts) (t : SuperTeamTables) (teamPrefix actor target : Text)
    (level : ℤ) (administrator : Bool) : Except SuperTeamError SuperTeamTables :=
  match sanitizeSuperTeamPrefix teamPrefix with
  | none => .error .updateInvalid
  | some team =>
    if !validRole level then .error .updateInvalid
    else if !userIDForExistingAccount env actor then .error .permissionDenied
    else if !userIDForExistingAccount env target then .error .teamNotFound
    else if env.locked then .error .resourceLocked
    else match actingRole t team actor administrator with
    | none => .error .permissionDenied
    | some actorLevel =>
      if actorLevel < superTeamRoleManage then .error .permissionDenied
      else match t.members.load (team, target) with
      | none => .error .teamNotFound
      | some current => changeSuperTeamRole t team target level actorLevel current administrator

def deleteSuperTeamRole (t : SuperTeamTables) (team actor target : Text) (actorLevel current : ℤ)
    (administrator : Bool) : Except SuperTeamError SuperTeamTables :=
  if actor = target ∧ current = superTeamRoleOwner then .error .ownerCannotLeave
  else if actor ≠ target ∧ administrator = false ∧ (actorLevel < superTeamRoleManage ∨
      (actorLevel < superTeamRoleOwner ∧ current ≥ superTeamRoleManage)) then
    .error .permissionDenied
  else if current = superTeamRoleOwner ∧ otherSuperTeamOwners t team target = 0 then
    .error .lastOwner
  else .ok (cancelSuperTeamInvitations
    { t with members := t.members.delete (team, target) } team target)

def removeSuperTeamMember (env : Accounts) (t : SuperTeamTables) (teamPrefix actor target : Text)
    (administrator : Bool) (actedAt : ℤ) : Except SuperTeamError SuperTeamTables :=
  match sanitizeSuperTeamPrefix teamPrefix with
  | none => .error .teamNotFound
  | some team =>
    if actedAt ≤ 0 then .error .teamNotFound
    else if !userIDForExistingAccount env actor then .error .permissionDenied
    else if !userIDForExistingAccount env target then .error .teamNotFound
    else if env.locked then .error .resourceLocked
    else match actingRole t team actor administrator with
    | none => .error .permissionDenied
    | some actorLevel =>
      match t.members.load (team, target) with
      | none => .error .teamNotFound
      | some current => deleteSuperTeamRole t team actor target actorLevel current administrator

inductive SuperTeamCall where
  | createSuperTeam (env : Accounts) (teamPrefix owner : Text) (valid : Bool)
      (createdAt globalCreateLimit globalJoinLimit : ℤ)
  | createSuperTeamInvitations (env : Accounts) (rs : List SuperTeamRequest)
  | forceAddSuperTeamMembers (env : Accounts) (teamPrefix : Text) (usernames : List Text)
      (level globalCreateLimit globalJoinLimit actedAt : ℤ)
  | respondSuperTeamInvitation (env : Accounts) (id recipient : Text) (accept : Bool)
      (globalJoinLimit actedAt : ℤ)
  | setSuperTeamMemberLevel (env : Accounts) (teamPrefix actor target : Text) (level : ℤ)
      (administrator : Bool)
  | removeSuperTeamMember (env : Accounts) (teamPrefix actor target : Text) (administrator : Bool)
      (actedAt : ℤ)
  | limits (limits : GoMap Text (ℤ × ℤ))

def SuperTeamTables.call (t : SuperTeamTables) :
    SuperTeamCall → Except SuperTeamError SuperTeamTables
  | .createSuperTeam env teamPrefix owner valid createdAt globalCreateLimit globalJoinLimit =>
    createSuperTeam env t teamPrefix owner valid createdAt globalCreateLimit globalJoinLimit
  | .createSuperTeamInvitations env rs => RenoP.Team.createSuperTeamInvitations env t rs
  | .forceAddSuperTeamMembers env teamPrefix usernames level globalCreateLimit globalJoinLimit
      actedAt =>
    forceAddSuperTeamMembers env t teamPrefix usernames level globalCreateLimit globalJoinLimit
      actedAt
  | .respondSuperTeamInvitation env id recipient accept globalJoinLimit actedAt =>
    respondSuperTeamInvitation env t id recipient accept globalJoinLimit actedAt
  | .setSuperTeamMemberLevel env teamPrefix actor target level administrator =>
    setSuperTeamMemberLevel env t teamPrefix actor target level administrator
  | .removeSuperTeamMember env teamPrefix actor target administrator actedAt =>
    removeSuperTeamMember env t teamPrefix actor target administrator actedAt
  | .limits limits => .ok { t with limits := limits }

def SuperTeamTables.next (t : SuperTeamTables) (c : SuperTeamCall) : SuperTeamTables :=
  match t.call c with
  | .error _ => t
  | .ok t => t

end RenoP.Team
