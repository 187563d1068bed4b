import RenoP.Team.Ownership
import RenoP.Lib.Runs

/-!
# Docker image teams

The teams of `internal/database/docker.go`. An image names its publisher beside the member rows;
a listing and a new invitation put a missing publisher back as the owner.
-/

namespace RenoP.Team

open RenoP.Database (Text)

structure DockerTeam where
  team : TeamTables
  publisher : Text

def dockerFormat : TeamFormat where
  actionKind := ['d', 'o', 'c', 'k', 'e', 'r', '_', 'i', 'm', 'a', 'g', 'e', '_', 'i', 'n', 'v', 'i', 't', 'e']
  resolves := ensureUserProfile
  closes := fun m recipient => decide (m.recipient = recipient) &&
    decide (m.actionKind = ['d', 'o', 'c', 'k', 'e', 'r', '_', 'i', 'm', 'a', 'g', 'e', '_', 'i', 'n', 'v', 'i', 't', 'e'])

def guest : Text := ['g', 'u', 'e', 's', 't']

/-- `createDockerImage` of an image that is not there yet; `bound` tells whether it names a global
team, whose roles are in the rows. -/
def createDockerImage (env : Accounts) (t : TeamTables) (owner : Text) (bound : Bool) :
    Except TeamError DockerTeam :=
  if owner = [] ∨ owner = guest then .error .nameInvalid
  else if !ensureUserProfile env owner then .error .permissionDenied
  else if env.locked then .error .resourceLocked
  else if bound ∧ ((t.roles.load owner).getD 0 < 3) then .error .bindingPermission
  else .ok ⟨{ t with members := t.members.store owner permissionOwner }, owner⟩

/-- `ListDockerMembers`, with the rows that it returns. -/
def listDockerMembers (env : Accounts) (s : DockerTeam) : DockerTeam × List (Text × ℤ) :=
  let rows := s.team.members.entries.map fun e => (e.1, e.2)
  if s.publisher = [] ∨ s.team.members.has s.publisher = true ∨
      ensureUserProfile env s.publisher = false then (s, rows)
  else
    ({ s with team := { s.team with members := s.team.members.store s.publisher permissionOwner } },
      (s.publisher, permissionOwner) :: rows)

def dockerInviterLevel (s : DockerTeam) (inviter : Text) : Except TeamError (TeamTables × ℤ) :=
  if (s.team.effectivePermission inviter).2 = false then
    if s.publisher ≠ [] ∧ s.publisher = inviter then
      .ok ({ s.team with members := s.team.members.store inviter permissionOwner }, permissionOwner)
    else .error .permissionDenied
  else if (s.team.effectivePermission inviter).1 < permissionTeam then .error .permissionDenied
  else .ok (s.team, (s.team.effectivePermission inviter).1)

def createDockerInvitationsTx (env : Accounts) (s : DockerTeam) (inviter : Text)
    (rs : List InvitationRequest) : Except TeamError DockerTeam :=
  if !ensureUserProfile env inviter ||
      !rs.all (fun r => ensureUserProfile env r.invitation.recipient) then .error .permissionDenied
  else if env.locked then .error .resourceLocked
  else match dockerInviterLevel s inviter with
  | .error err => .error err
  | .ok (t, level) =>
    match createInvitations dockerFormat inviter level t rs with
    | .error err => .error err
    | .ok t => .ok { s with team := t }

def createDockerInvitations (env : Accounts) (s : DockerTeam) (rs : List InvitationRequest) :
    Except TeamError DockerTeam :=
  match rs with
  | [] => .error .batchInvalid
  | first :: _ =>
    if rs.length > 20 then .error .batchInvalid
    else match checkRequests rs with
    | .error err => .error err
    | .ok () => createDockerInvitationsTx env s first.invitation.inviter rs

def respondDockerInvitation (env : Accounts) (s : DockerTeam) (id recipient : Text) (accept : Bool)
    (actedAt : ℤ) : Except TeamError DockerTeam :=
  match respondInvitation dockerFormat env s.team id recipient accept actedAt with
  | .error err => .error err
  | .ok t => .ok ⟨t, s.team.ownerAfterAnswer s.publisher id recipient accept⟩

def forceAddDockerMembers (env : Accounts) (s : DockerTeam) (usernames : List Text) (level : ℤ) :
    Except TeamError DockerTeam :=
  if usernames = [] ∨ usernames.length > 20 then .error .batchInvalid
  else if !validLevel level then .error .levelInvalid
  else match forceAddMembers dockerFormat env s.team usernames level with
  | .error err => .error err
  | .ok t => .ok ⟨t, ownerAfterAdd s.publisher usernames level⟩

def setDockerMemberLevel (env : Accounts) (s : DockerTeam) (actor username : Text) (level : ℤ) :
    Except TeamError DockerTeam :=
  match setMemberLevel env s.team actor username level with
  | .error err => .error err
  | .ok t => .ok ⟨t, s.team.ownerAfter s.publisher username level⟩

def removeDockerMembers (env : Accounts) (s : DockerTeam) (actor : Text) (usernames : List Text) :
    Except TeamError DockerTeam :=
  match removeTeamMembers env s.team actor usernames with
  | .error err => .error err
  | .ok t => .ok { s with team := t }

inductive DockerCall where
  | createDockerInvitations (env : Accounts) (rs : List InvitationRequest)
  | respondDockerInvitation (env : Accounts) (id recipient : Text) (accept : Bool) (actedAt : ℤ)
  | forceAddDockerMembers (env : Accounts) (usernames : List Text) (level : ℤ)
  | setDockerMemberLevel (env : Accounts) (actor username : Text) (level : ℤ)
  | removeDockerMembers (env : Accounts) (actor : Text) (usernames : List Text)
  | listDockerMembers (env : Accounts)
  /-- Any change of the bound global team or of the binding. -/
  | globalTeam (roles : GoMap Text ℤ)

def DockerTeam.call (s : DockerTeam) : DockerCall → Except TeamError DockerTeam
  | .createDockerInvitations env rs => RenoP.Team.createDockerInvitations env s rs
  | .respondDockerInvitation env id recipient accept actedAt =>
    RenoP.Team.respondDockerInvitation env s id recipient accept actedAt
  | .forceAddDockerMembers env usernames level =>
    RenoP.Team.forceAddDockerMembers env s usernames level
  | .setDockerMemberLevel env actor username level =>
    RenoP.Team.setDockerMemberLevel env s actor username level
  | .removeDockerMembers env actor usernames =>
    RenoP.Team.removeDockerMembers env s actor usernames
  | .listDockerMembers env => .ok (RenoP.Team.listDockerMembers env s).1
  | .globalTeam roles => .ok { s with team := { s.team with roles := roles } }

def DockerTeam.next (s : DockerTeam) (c : DockerCall) : DockerTeam :=
  match s.call c with
  | .error _ => s
  | .ok s => s

def DockerTeam.OwnerExchanges (s : DockerTeam) : DockerCall → Prop
  | .setDockerMemberLevel env actor username level =>
    s.team.exchanges env actor username level = true →
      s.team.members.load actor = some permissionOwner
  | _ => True

/-- The publisher is the one owner, and at most one invitation waits for a user, who is no
member. -/
structure Settled (s : DockerTeam) : Prop where
  owned : Owned s.team.members s.publisher
  outside : ∀ id i, s.team.invitations.load id = some i → s.team.members.has i.recipient = false
  single : ∀ id id' i i', s.team.invitations.load id = some i →
    s.team.invitations.load id' = some i' → i.recipient = i'.recipient → id = id'

variable {env : Accounts} {s s' : DockerTeam} {t t' : TeamTables}

theorem Settled.has_publisher (h : Settled s) : s.team.members.has s.publisher = true :=
  (GoMap.has_eq_true _ _).mpr ⟨_, (h.owned s.publisher).mpr rfl⟩

theorem Settled.list_unchanged (h : Settled s) (env : Accounts) :
    listDockerMembers env s = (s, s.team.members.entries.map fun e => (e.1, e.2)) := by
  simp only [listDockerMembers, h.has_publisher, true_or, or_true, if_true]

theorem effective_of_member {user : Text} (h : t.members.has user = true) :
    (t.effectivePermission user).2 = true := by
  simp only [TeamTables.effectivePermission, effectiveBoundPermission, h, Bool.true_or]

theorem Settled.inviterLevel (h : Settled s) {inviter : Text} {level : ℤ}
    (hlevel : dockerInviterLevel s inviter = .ok (t, level)) : t = s.team := by
  unfold dockerInviterLevel at hlevel
  split_ifs at hlevel with hmember hpublisher
  · have := effective_of_member h.has_publisher
    rw [hpublisher.2, hmember] at this
    cases this
  · cases hlevel
    rfl

theorem createDockerInvitations_cases (h : Settled s) {rs : List InvitationRequest}
    (hcreate : createDockerInvitations env s rs = .ok s') :
    ∃ inviter level t, createInvitations dockerFormat inviter level s.team rs = .ok t ∧
      s' = { s with team := t } := by
  unfold createDockerInvitations at hcreate
  cases rs with
  | nil => cases hcreate
  | cons first rs =>
    simp only at hcreate
    split_ifs at hcreate
    cases hcheck : checkRequests (first :: rs) with
    | error err =>
      rw [hcheck] at hcreate
      cases hcreate
    | ok u =>
      simp only [hcheck] at hcreate
      unfold createDockerInvitationsTx at hcreate
      split_ifs at hcreate
      cases hlevel : dockerInviterLevel s first.invitation.inviter with
      | error err =>
        rw [hlevel] at hcreate
        cases hcreate
      | ok e =>
        obtain ⟨t₁, level⟩ := e
        have ht₁ := h.inviterLevel hlevel
        subst ht₁
        simp only [hlevel] at hcreate
        cases hall : createInvitations dockerFormat first.invitation.inviter level s.team
            (first :: rs) with
        | error err =>
          rw [hall] at hcreate
          cases hcreate
        | ok t =>
          rw [hall] at hcreate
          exact ⟨_, level, t, hall, (Except.ok.inj hcreate).symm⟩

def Waiting (t : TeamTables) : Prop :=
  (∀ id i, t.invitations.load id = some i → t.members.has i.recipient = false) ∧
    ∀ id id' i i', t.invitations.load id = some i → t.invitations.load id' = some i' →
      i.recipient = i'.recipient → id = id'

theorem Settled.waiting (h : Settled s) : Waiting s.team := ⟨h.outside, h.single⟩

theorem Waiting.mono (h : Waiting t)
    (hinvitations : ∀ id i, t'.invitations.load id = some i → t.invitations.load id = some i ∧
      t'.members.has i.recipient = t.members.has i.recipient) : Waiting t' := by
  constructor
  · intro id i hload
    obtain ⟨hold, hmember⟩ := hinvitations id i hload
    rw [hmember]
    exact h.1 id i hold
  · intro id id' i i' hload hload' hrecipient
    exact h.2 id id' i i' (hinvitations id i hload).1 (hinvitations id' i' hload').1 hrecipient

theorem createInvitations_waiting {inviter : Text} {level : ℤ} {rs : List InvitationRequest} :
    ∀ {t t' : TeamTables}, Waiting t → createInvitations dockerFormat inviter level t rs = .ok t' →
      Waiting t' := by
  induction rs with
  | nil =>
    intro t t' h hcreate
    cases hcreate
    exact h
  | cons r rs ih =>
    intro t t' h hcreate
    unfold createInvitations at hcreate
    cases hr : createInvitation dockerFormat t inviter level r with
    | error err =>
      rw [hr] at hcreate
      cases hcreate
    | ok t₁ =>
      simp only [hr] at hcreate
      obtain ⟨hmembers, -, hnew, hall⟩ := createInvitation_cases hr
      refine ih ?_ hcreate
      constructor
      · intro id i hload
        rw [hmembers]
        rcases hall id i hload with ⟨-, rfl⟩ | ⟨hold, -⟩
        · exact hnew
        · exact h.1 id i hold
      · intro id id' i i' hload hload' hrecipient
        rcases hall id i hload with ⟨rfl, rfl⟩ | ⟨hold, hne⟩
        · rcases hall id' i' hload' with ⟨rfl, rfl⟩ | ⟨hold', hne'⟩
          · rfl
          · exact absurd hrecipient.symm hne'
        · rcases hall id' i' hload' with ⟨rfl, rfl⟩ | ⟨hold', hne'⟩
          · exact absurd hrecipient hne
          · exact h.2 id id' i i' hold hold' hrecipient

theorem respond_waiting (h : Waiting t) {format : TeamFormat} {id recipient : Text} {accept : Bool}
    {actedAt : ℤ}
    (hrespond : respondInvitation format env t id recipient accept actedAt = .ok t') :
    Waiting t' := by
  obtain ⟨i, hload, hrecipient, hinvitations, -, hcases⟩ := respondInvitation_cases hrespond
  apply h.mono
  intro id' i' hload'
  rw [hinvitations, GoMap.load_delete] at hload'
  split_ifs at hload' with hid
  refine ⟨hload', ?_⟩
  rcases hcases with ⟨-, hmembers⟩ | ⟨-, -, -, -, hmembers⟩
  · rw [hmembers]
  · have hne : i'.recipient ≠ recipient := by
      intro heq
      exact hid (h.2 id' id i' i hload' hload (heq.trans hrecipient.symm))
    rw [hmembers, GoMap.has, GoMap.load_store_ne _ _ hne]
    split_ifs
    · exact GoMap.has_updateWhere _ _ _ _
    · rfl

theorem forceAdd_waiting (h : Waiting t) {format : TeamFormat} {usernames : List Text} {level : ℤ}
    (hadd : forceAddMembers format env t usernames level = .ok t') : Waiting t' := by
  obtain ⟨users, -, -, -, rfl⟩ := forceAddMembers_cases hadd
  obtain ⟨hmembers, hinvitations, -⟩ := @foldl_addMember format level users
    { t with members := rowsBefore t.members level }
  apply h.mono
  intro id i hload
  rw [hinvitations, Option.filter_eq_some_iff] at hload
  refine ⟨hload.1, ?_⟩
  rw [GoMap.has, hmembers, if_neg (of_decide_eq_true hload.2)]
  show (rowsBefore t.members level).has i.recipient = _
  unfold rowsBefore
  split_ifs
  · exact GoMap.has_updateWhere _ _ _ _
  · rfl

theorem remove_waiting (h : Waiting t) {actor : Text} {usernames : List Text}
    (hremove : removeTeamMembers env t actor usernames = .ok t') : Waiting t' := by
  have hinvitations : t'.invitations = t.invitations := by
    obtain ⟨users, -, -, rfl⟩ := removeTeamMembers_cases hremove
    rfl
  apply h.mono
  intro id i hload
  rw [hinvitations] at hload
  refine ⟨hload, ?_⟩
  have hnone := h.1 id i hload
  rw [hnone, GoMap.has_eq_false, removeTeamMembers_load hremove]
  split_ifs
  · rfl
  · exact (GoMap.has_eq_false _ _).mp hnone

theorem respondDockerInvitation_ok {id recipient : Text} {accept : Bool} {actedAt : ℤ}
    (h : respondDockerInvitation env s id recipient accept actedAt = .ok s') :
    ∃ t, respondInvitation dockerFormat env s.team id recipient accept actedAt = .ok t ∧
      s' = ⟨t, s.team.ownerAfterAnswer s.publisher id recipient accept⟩ := by
  unfold respondDockerInvitation at h
  split at h
  · cases h
  · cases h
    exact ⟨_, ‹_›, rfl⟩

theorem forceAddDockerMembers_ok {usernames : List Text} {level : ℤ}
    (h : forceAddDockerMembers env s usernames level = .ok s') :
    ∃ t, forceAddMembers dockerFormat env s.team usernames level = .ok t ∧
      s' = ⟨t, ownerAfterAdd s.publisher usernames level⟩ := by
  unfold forceAddDockerMembers at h
  split_ifs at h
  split at h
  · cases h
  · cases h
    exact ⟨_, ‹_›, rfl⟩

theorem setDockerMemberLevel_ok {actor username : Text} {level : ℤ}
    (h : setDockerMemberLevel env s actor username level = .ok s') :
    ∃ t, setMemberLevel env s.team actor username level = .ok t ∧
      s' = ⟨t, s.team.ownerAfter s.publisher username level⟩ := by
  unfold setDockerMemberLevel at h
  split at h
  · cases h
  · cases h
    exact ⟨_, ‹_›, rfl⟩

theorem removeDockerMembers_ok {actor : Text} {usernames : List Text}
    (h : removeDockerMembers env s actor usernames = .ok s') :
    ∃ t, removeTeamMembers env s.team actor usernames = .ok t ∧ s' = { s with team := t } := by
  unfold removeDockerMembers at h
  split at h
  · cases h
  · cases h
    exact ⟨_, ‹_›, rfl⟩

theorem next_settled (h : Settled s) {c : DockerCall} (hown : s.OwnerExchanges c) :
    Settled (s.next c) := by
  unfold DockerTeam.next
  cases hcall : s.call c with
  | error err => exact h
  | ok s' =>
    cases c with
    | createDockerInvitations env rs =>
      obtain ⟨inviter, level, t, hcreate, rfl⟩ := createDockerInvitations_cases h hcall
      have hwaiting := createInvitations_waiting h.waiting hcreate
      refine ⟨?_, hwaiting.1, hwaiting.2⟩
      show Owned t.members s.publisher
      rw [(createInvitations_members hcreate).1]
      exact h.owned
    | respondDockerInvitation env id recipient accept actedAt =>
      obtain ⟨t, hr, rfl⟩ := respondDockerInvitation_ok hcall
      have hwaiting := respond_waiting h.waiting hr
      exact ⟨respondInvitation_owned h.owned hr, hwaiting.1, hwaiting.2⟩
    | forceAddDockerMembers env usernames level =>
      obtain ⟨t, ha, rfl⟩ := forceAddDockerMembers_ok hcall
      have hwaiting := forceAdd_waiting h.waiting ha
      exact ⟨forceAddMembers_owned h.owned ha, hwaiting.1, hwaiting.2⟩
    | setDockerMemberLevel env actor username level =>
      obtain ⟨t, hset, rfl⟩ := setDockerMemberLevel_ok hcall
      obtain ⟨hhas, hinvitations⟩ := setMemberLevel_has hset
      have hwaiting : Waiting t := by
        apply h.waiting.mono
        intro id i hload
        rw [hinvitations] at hload
        exact ⟨hload, hhas i.recipient⟩
      exact ⟨setMemberLevel_owned h.owned hown hset, hwaiting.1, hwaiting.2⟩
    | removeDockerMembers env actor usernames =>
      obtain ⟨t, hr, rfl⟩ := removeDockerMembers_ok hcall
      have hwaiting := remove_waiting h.waiting hr
      exact ⟨removeTeamMembers_owned h.owned hr, hwaiting.1, hwaiting.2⟩
    | listDockerMembers env =>
      simp only [DockerTeam.call, h.list_unchanged] at hcall
      cases hcall
      exact h
    | globalTeam roles =>
      cases hcall
      exact ⟨h.owned, h.outside, h.single⟩

theorem inviterLevel_staffed {inviter : Text} {level : ℤ} (ho : 0 < ownerCount s.team.members)
    (h : dockerInviterLevel s inviter = .ok (t, level)) : 0 < ownerCount t.members := by
  unfold dockerInviterLevel at h
  split_ifs at h
  · cases h
    exact (ownerCount_pos_iff _).mpr ⟨inviter, GoMap.load_store_self _ _ _⟩
  · cases h
    exact ho

theorem createDockerInvitations_staffed {rs : List InvitationRequest}
    (ho : 0 < ownerCount s.team.members) (h : createDockerInvitations env s rs = .ok s') :
    0 < ownerCount s'.team.members := by
  unfold createDockerInvitations at h
  split at h
  · cases h
  · split_ifs at h
    split at h
    · cases h
    · unfold createDockerInvitationsTx at h
      split_ifs at h
      split at h
      · cases h
      · rename_i hlevel
        split at h
        · cases h
        · rename_i hcreate
          cases h
          show 0 < ownerCount _
          rw [(createInvitations_members hcreate).1]
          exact inviterLevel_staffed ho hlevel

theorem next_staffed (ho : 0 < ownerCount s.team.members) (c : DockerCall) :
    0 < ownerCount (s.next c).team.members := by
  unfold DockerTeam.next
  cases hcall : s.call c with
  | error err => exact ho
  | ok s' =>
    cases c with
    | createDockerInvitations env rs => exact createDockerInvitations_staffed ho hcall
    | respondDockerInvitation env id recipient accept actedAt =>
      obtain ⟨t, hr, rfl⟩ := respondDockerInvitation_ok hcall
      exact respondInvitation_staffed ho hr
    | forceAddDockerMembers env usernames level =>
      obtain ⟨t, ha, rfl⟩ := forceAddDockerMembers_ok hcall
      exact forceAddMembers_staffed ho ha
    | setDockerMemberLevel env actor username level =>
      obtain ⟨t, hset, rfl⟩ := setDockerMemberLevel_ok hcall
      exact setMemberLevel_staffed ho hset
    | removeDockerMembers env actor usernames =>
      obtain ⟨t, hr, rfl⟩ := removeDockerMembers_ok hcall
      exact removeTeamMembers_staffed ho hr
    | listDockerMembers env =>
      cases hcall
      unfold listDockerMembers
      simp only
      split_ifs
      · exact ho
      · exact (ownerCount_pos_iff _).mpr ⟨s.publisher, GoMap.load_store_self _ _ _⟩
    | globalTeam roles =>
      cases hcall
      exact ho

end RenoP.Team
