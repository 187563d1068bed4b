import RenoP.Team.SuperTeam
import RenoP.Lib.Runs

/-!
# Owners and privileges of global teams

What a call can do to the role rows.
-/

namespace RenoP.Team

open RenoP.Database (Text sanitizeSuperTeamPrefix)

def SuperTeamCall.actor : SuperTeamCall → Option Text
  | .createSuperTeam _ _ owner _ _ _ _ => some owner
  | .createSuperTeamInvitations _ rs => rs.head?.map (·.invitation.inviter)
  | .respondSuperTeamInvitation _ _ recipient _ _ _ => some recipient
  | .setSuperTeamMemberLevel _ _ actor _ _ administrator => if administrator then none else some actor
  | .removeSuperTeamMember _ _ actor _ administrator _ => if administrator then none else some actor
  | _ => none

def SuperTeamCall.administrative : SuperTeamCall → Bool
  | .forceAddSuperTeamMembers .. => true
  | .setSuperTeamMemberLevel _ _ _ _ _ administrator => administrator
  | .removeSuperTeamMember _ _ _ _ administrator _ => administrator
  | _ => false

def SuperTeamCall.granter (t : SuperTeamTables) : SuperTeamCall → Option Text
  | .respondSuperTeamInvitation _ id recipient _ _ _ =>
    (t.invitationFor id recipient).map (·.inviter)
  | .setSuperTeamMemberLevel _ _ actor _ _ _ => some actor
  | _ => none

inductive RoleEffect (t : SuperTeamTables) (c : SuperTeamCall) :
    GoMap Text Text → GoMap (Text × Text) ℤ → Prop where
  | nothing : RoleEffect t c t.teams t.members
  | founded (team owner : Text) (hnew : t.teams.has team = false) (hactor : c.actor = some owner)
      (hfounds : ∃ env p valid now create join,
        c = .createSuperTeam env p owner valid now create join) :
      RoleEffect t c (t.teams.store team owner)
        (t.members.store (team, owner) superTeamRoleOwner)
  | added (team : Text) (users : List Text) (level : ℤ) (members : GoMap (Text × Text) ℤ)
      (hadmin : c.administrative = true) (hactor : c.actor = none)
      (hlevel : level ≤ superTeamRoleOwner)
      (hrows : ∀ k, members.load k = t.members.load k ∨
        (t.members.load k = none ∧ members.load k = some level)) :
      RoleEffect t c t.teams members
  | joined (team recipient inviter : Text) (level inviterLevel : ℤ)
      (hactor : c.actor = some recipient) (hgranter : c.granter t = some inviter)
      (hrole : t.members.load (team, inviter) = some inviterLevel)
      (hhigh : level ≥ superTeamRoleManage → inviterLevel ≥ superTeamRoleOwner)
      (hlevel : ∃ id i, t.invitations.load id = some i ∧ i.level = level)
      (hnew : t.members.has (team, recipient) = false) :
      RoleEffect t c t.teams (t.members.store (team, recipient) level)
  | changed (team target : Text) (level current : ℤ) (hlevel : level ≤ superTeamRoleOwner)
      (hcurrent : t.members.load (team, target) = some current)
      (hlast : current = superTeamRoleOwner → level < superTeamRoleOwner →
        0 < otherSuperTeamOwners t team target)
      (hallowed : c.administrative = true ∧ c.actor = none ∨
        ∃ actor actorLevel, c.actor = some actor ∧ c.granter t = some actor ∧
          t.members.load (team, actor) = some actorLevel ∧
          (actorLevel ≥ superTeamRoleOwner ∨
            current < superTeamRoleManage ∧ level < superTeamRoleManage)) :
      RoleEffect t c t.teams (t.members.store (team, target) level)
  | removed (team target : Text) (current : ℤ)
      (hcurrent : t.members.load (team, target) = some current)
      (hlast : current = superTeamRoleOwner → 0 < otherSuperTeamOwners t team target)
      (hallowed : c.actor = none ∨
        ∃ actor actorLevel, c.actor = some actor ∧
          t.members.load (team, actor) = some actorLevel ∧
          (actor = target ∨ actorLevel ≥ superTeamRoleOwner ∨ current < superTeamRoleManage)) :
      RoleEffect t c t.teams (t.members.delete (team, target))

variable {t t' : SuperTeamTables} {env : Accounts}

/-- What a batch of invitations leaves: the role rows, and invitations that were there or are of
the batch. -/
structure Invited (rs : List SuperTeamRequest) (t t' : SuperTeamTables) : Prop where
  teams : t'.teams = t.teams
  members : t'.members = t.members
  invitations : ∀ id i, t'.invitations.load id = some i →
    t.invitations.load id = some i ∨ ∃ r ∈ rs, i = r.invitation

theorem insertSuperTeamInvitation_cases {r : SuperTeamRequest}
    (h : insertSuperTeamInvitation t r = .ok t') : Invited [r] t t' := by
  unfold insertSuperTeamInvitation at h
  split_ifs at h
  cases h
  refine ⟨rfl, rfl, ?_⟩
  intro id i hload
  rw [GoMap.load_store] at hload
  split_ifs at hload
  · exact Or.inr ⟨r, List.mem_singleton.mpr rfl, (Option.some.inj hload).symm⟩
  · exact Or.inl hload

theorem cancelSuperTeamInvitations_load {team recipient id : Text} {i : SuperTeamInvitation}
    (h : (cancelSuperTeamInvitations t team recipient).invitations.load id = some i) :
    t.invitations.load id = some i := by
  have hload : (t.invitations.deleteWhere fun _ i =>
      decide (i.teamPrefix = team) && decide (i.recipient = recipient)).load id = some i := h
  rw [GoMap.load_deleteWhere] at hload
  exact (Option.filter_eq_some_iff.mp hload).1

theorem createSuperTeamInvitation_cases {inviterLevel : ℤ} {r : SuperTeamRequest}
    (h : createSuperTeamInvitation t inviterLevel r = .ok t') : Invited [r] t t' := by
  unfold createSuperTeamInvitation at h
  split_ifs at h
  split at h
  · exact insertSuperTeamInvitation_cases h
  · split_ifs at h
    obtain ⟨hteams, hmembers, hinvitations⟩ := insertSuperTeamInvitation_cases h
    refine ⟨hteams, hmembers, ?_⟩
    intro id i hload
    rcases hinvitations id i hload with hold | hnew
    · exact Or.inl (cancelSuperTeamInvitations_load hold)
    · exact Or.inr hnew

theorem insertSuperTeamInvitations_cases {inviterLevel : ℤ} {rs : List SuperTeamRequest} :
    ∀ {t t' : SuperTeamTables}, insertSuperTeamInvitations inviterLevel t rs = .ok t' →
      Invited rs t t' := by
  induction rs with
  | nil =>
    intro t t' h
    cases h
    exact ⟨rfl, rfl, fun id i hload => Or.inl hload⟩
  | cons r rs ih =>
    intro t t' h
    unfold insertSuperTeamInvitations at h
    cases hr : createSuperTeamInvitation t inviterLevel r with
    | error err =>
      rw [hr] at h
      cases h
    | ok t₁ =>
      simp only [hr] at h
      obtain ⟨hteams, hmembers, hinvitations⟩ := createSuperTeamInvitation_cases hr
      obtain ⟨hteams', hmembers', hinvitations'⟩ := ih h
      refine ⟨hteams'.trans hteams, hmembers'.trans hmembers, ?_⟩
      intro id i hload
      rcases hinvitations' id i hload with hmid | ⟨r', hr', hi⟩
      · rcases hinvitations id i hmid with hold | ⟨r', hr', hi⟩
        · exact Or.inl hold
        · exact Or.inr ⟨r', List.mem_cons.mpr (Or.inl (List.mem_singleton.mp hr')), hi⟩
      · exact Or.inr ⟨r', List.mem_cons_of_mem r hr', hi⟩

theorem checkSuperTeamRequests_level {team inviter : Text} {rs : List SuperTeamRequest} :
    ∀ {seen : List Text}, checkSuperTeamRequests env team inviter seen rs = .ok () →
      ∀ r ∈ rs, r.invitation.level ≤ superTeamRoleOwner := by
  induction rs with
  | nil =>
    intro seen _ r hr
    cases hr
  | cons r' rs ih =>
    intro seen h r hr
    unfold checkSuperTeamRequests at h
    split_ifs at h with hbad
    rcases List.mem_cons.mp hr with rfl | hr
    · push Not at hbad
      have hvalid := hbad.2.2.1
      simp only [validRole, ne_eq, Bool.not_eq_false, Bool.and_eq_true, decide_eq_true_eq] at hvalid
      exact hvalid.2
    · exact ih h r hr

theorem createSuperTeamInvitations_cases {rs : List SuperTeamRequest}
    (h : createSuperTeamInvitations env t rs = .ok t') :
    Invited rs t t' ∧ ∀ r ∈ rs, r.invitation.level ≤ superTeamRoleOwner := by
  unfold createSuperTeamInvitations at h
  cases rs with
  | nil => cases h
  | cons first rs =>
    simp only at h
    split at h
    · cases h
    · cases hbefore : sanitizeSuperTeamPrefix first.invitation.teamPrefix with
      | none =>
        rw [hbefore] at h
        cases h
      | some team =>
        simp only [hbefore] at h
        split_ifs at h
        cases hcheck : checkSuperTeamRequests env team first.invitation.inviter [] (first :: rs) with
        | error err =>
          rw [hcheck] at h
          cases h
        | ok u =>
          simp only [hcheck] at h
          refine ⟨?_, checkSuperTeamRequests_level hcheck⟩
          unfold createSuperTeamInvitationsTx at h
          split_ifs at h
          split at h
          · cases h
          · split_ifs at h
            exact insertSuperTeamInvitations_cases h

structure Added (level : ℤ) (t t' : SuperTeamTables) : Prop where
  teams : t'.teams = t.teams
  rows : ∀ k, t'.members.load k = t.members.load k ∨
    (t.members.load k = none ∧ t'.members.load k = some level)
  invitations : ∀ id i, t'.invitations.load id = some i → t.invitations.load id = some i

theorem addSuperTeamMembers_cases {team : Text} {level create join : ℤ} {us : List Text} :
    ∀ {t t' : SuperTeamTables}, addSuperTeamMembers team level create join t us = .ok t' →
      Added level t t' := by
  induction us with
  | nil =>
    intro t t' h
    cases h
    exact ⟨rfl, fun k => Or.inl rfl, fun _ _ hload => hload⟩
  | cons u us ih =>
    intro t t' h
    unfold addSuperTeamMembers at h
    cases hu : addSuperTeamMember t team u level create join with
    | error err =>
      rw [hu] at h
      cases h
    | ok t₁ =>
      simp only [hu] at h
      obtain ⟨hteams, hrows, hinvitations⟩ := ih h
      unfold addSuperTeamMember at hu
      split_ifs at hu with hmember
      split at hu
      · cases hu
      · cases hu
        refine ⟨hteams, ?_, fun id i hload =>
          cancelSuperTeamInvitations_load (hinvitations id i hload)⟩
        intro k
        have hmid : (t.members.store (team, u) level).load k =
            if k = (team, u) then some level else t.members.load k :=
          GoMap.load_store _ _ _ _
        by_cases hk : k = (team, u)
        · have hnone : t.members.load k = none := by
            rw [hk]
            exact (GoMap.has_eq_false _ _).mp (Bool.eq_false_iff.mpr hmember)
          rw [if_pos hk] at hmid
          rcases hrows k with hsame | ⟨hno, -⟩
          · exact Or.inr ⟨hnone, hsame.trans hmid⟩
          · exact absurd (hmid.symm.trans hno) (by simp)
        · rw [if_neg hk] at hmid
          rcases hrows k with hsame | ⟨hno, hnew⟩
          · exact Or.inl (hsame.trans hmid)
          · exact Or.inr ⟨hmid.symm.trans hno, hnew⟩

theorem forceAddSuperTeamMembers_cases {teamPrefix : Text} {usernames : List Text}
    {level create join now : ℤ}
    (h : forceAddSuperTeamMembers env t teamPrefix usernames level create join now = .ok t') :
    Added level t t' ∧ level ≤ superTeamRoleOwner := by
  unfold forceAddSuperTeamMembers at h
  cases hbefore : sanitizeSuperTeamPrefix teamPrefix with
  | none =>
    rw [hbefore] at h
    cases h
  | some team =>
    simp only [hbefore] at h
    split at h
    · cases h
    · rename_i hbad
      cases hcandidates : superTeamCandidates env [] usernames with
      | error err =>
        rw [hcandidates] at h
        cases h
      | ok users =>
        simp only [hcandidates] at h
        split_ifs at h
        refine ⟨addSuperTeamMembers_cases h, ?_⟩
        push Not at hbad
        have hvalid := hbad.2.2.1
        simp only [validRole, ne_eq, Bool.not_eq_false, Bool.and_eq_true, decide_eq_true_eq] at hvalid
        exact hvalid.2

theorem completeSuperTeamInvitation_cases {id recipient : Text} {accept : Bool} {actedAt : ℤ}
    (h : completeSuperTeamInvitation t id recipient accept actedAt = .ok t') :
    t'.teams = t.teams ∧ t'.members = t.members ∧ t'.invitations = t.invitations.delete id := by
  unfold completeSuperTeamInvitation at h
  split at h
  · cases h
  · cases h
    exact ⟨rfl, rfl, rfl⟩

theorem acceptSuperTeamInvitation_cases {i : SuperTeamInvitation} {join : ℤ}
    (h : acceptSuperTeamInvitation env t i join = .ok t') :
    ∃ inviterLevel, t.members.load (i.teamPrefix, i.inviter) = some inviterLevel ∧
      (i.level ≥ superTeamRoleManage → inviterLevel ≥ superTeamRoleOwner) ∧
      t.members.has (i.teamPrefix, i.recipient) = false ∧
      t' = { t with members := t.members.store (i.teamPrefix, i.recipient) i.level } := by
  unfold acceptSuperTeamInvitation at h
  split at h
  · cases h
  · cases hrole : t.members.load (i.teamPrefix, i.inviter) with
    | none =>
      rw [hrole] at h
      cases h
    | some inviterLevel =>
      simp only [hrole] at h
      split_ifs at h with hlow hmember
      push Not at hlow
      split at h
      · cases h
      · cases h
        exact ⟨inviterLevel, rfl, hlow.2, Bool.eq_false_iff.mpr hmember, rfl⟩

theorem respondSuperTeamInvitation_cases {id recipient : Text} {accept : Bool} {join now : ℤ}
    (h : respondSuperTeamInvitation env t id recipient accept join now = .ok t') :
    ∃ i, t.invitationFor id recipient = some i ∧ t'.teams = t.teams ∧
      t'.invitations = t.invitations.delete id ∧
      (t'.members = t.members ∨ ∃ inviterLevel,
        t.members.load (i.teamPrefix, i.inviter) = some inviterLevel ∧
        (i.level ≥ superTeamRoleManage → inviterLevel ≥ superTeamRoleOwner) ∧
        t.members.has (i.teamPrefix, recipient) = false ∧
        t'.members = t.members.store (i.teamPrefix, recipient) i.level) := by
  unfold respondSuperTeamInvitation at h
  split at h
  · cases h
  · cases hi : t.invitationFor id recipient with
    | none =>
      rw [hi] at h
      cases h
    | some i =>
      simp only [hi] at h
      have hrecipient : i.recipient = recipient :=
        of_decide_eq_true (Option.filter_eq_some_iff.mp hi).2
      refine ⟨i, rfl, ?_⟩
      split_ifs at h
      · cases hacc : acceptSuperTeamInvitation env t i join with
        | error err =>
          rw [hacc] at h
          cases h
        | ok t₁ =>
          simp only [hacc] at h
          obtain ⟨hteams, hmembers, hinvitations⟩ := completeSuperTeamInvitation_cases h
          obtain ⟨inviterLevel, hrole, hhigh, hnew, rfl⟩ := acceptSuperTeamInvitation_cases hacc
          rw [hrecipient] at hnew hmembers
          exact ⟨hteams, hinvitations, Or.inr ⟨inviterLevel, hrole, hhigh, hnew, hmembers⟩⟩
      · obtain ⟨hteams, hmembers, hinvitations⟩ := completeSuperTeamInvitation_cases h
        exact ⟨hteams, hinvitations, Or.inl hmembers⟩

theorem setSuperTeamMemberLevel_cases {teamPrefix actor target : Text} {level : ℤ}
    {administrator : Bool}
    (h : setSuperTeamMemberLevel env t teamPrefix actor target level administrator = .ok t') :
    ∃ team current actorLevel, t.members.load (team, target) = some current ∧
      actingRole t team actor administrator = some actorLevel ∧
      level ≤ superTeamRoleOwner ∧
      (administrator = false → actorLevel ≥ superTeamRoleOwner ∨
        current < superTeamRoleManage ∧ level < superTeamRoleManage) ∧
      (current = superTeamRoleOwner → level < superTeamRoleOwner →
        0 < otherSuperTeamOwners t team target) ∧
      t' = { t with members := t.members.store (team, target) level } := by
  unfold setSuperTeamMemberLevel at h
  cases hbefore : sanitizeSuperTeamPrefix teamPrefix with
  | none =>
    rw [hbefore] at h
    cases h
  | some team =>
    simp only [hbefore] at h
    split_ifs at h with hvalid
    cases hacting : actingRole t team actor administrator with
    | none =>
      rw [hacting] at h
      cases h
    | some actorLevel =>
      simp only [hacting] at h
      split_ifs at h
      cases hcurrent : t.members.load (team, target) with
      | none =>
        rw [hcurrent] at h
        cases h
      | some current =>
        simp only [hcurrent] at h
        unfold changeSuperTeamRole at h
        split_ifs at h with hdenied hlast
        refine ⟨team, current, actorLevel, hcurrent, hacting, ?_, ?_, ?_,
          (Except.ok.inj h).symm⟩
        · simp only [validRole, Bool.not_eq_true', Bool.and_eq_false_iff, decide_eq_false_iff_not,
            not_or, not_not] at hvalid
          exact hvalid.2
        · intro hadmin
          by_contra hno
          push Not at hno
          apply hdenied
          refine ⟨hadmin, hno.1, ?_⟩
          by_cases hlow : current < superTeamRoleManage
          · exact Or.inr (hno.2 hlow)
          · exact Or.inl (le_of_not_gt hlow)
        · intro hcur hlevel
          apply Nat.pos_of_ne_zero
          intro hzero
          exact hlast ⟨hcur, hlevel, hzero⟩

theorem removeSuperTeamMember_cases {teamPrefix actor target : Text} {administrator : Bool}
    {now : ℤ} (h : removeSuperTeamMember env t teamPrefix actor target administrator now = .ok t') :
    ∃ team current actorLevel, t.members.load (team, target) = some current ∧
      actingRole t team actor administrator = some actorLevel ∧
      (administrator = false → actor = target ∨ actorLevel ≥ superTeamRoleOwner ∨
        current < superTeamRoleManage) ∧
      (current = superTeamRoleOwner → 0 < otherSuperTeamOwners t team target) ∧
      t' = cancelSuperTeamInvitations
        { t with members := t.members.delete (team, target) } team target := by
  unfold removeSuperTeamMember at h
  cases hbefore : sanitizeSuperTeamPrefix teamPrefix with
  | none =>
    rw [hbefore] at h
    cases h
  | some team =>
    simp only [hbefore] at h
    split_ifs at h
    cases hacting : actingRole t team actor administrator with
    | none =>
      rw [hacting] at h
      cases h
    | some actorLevel =>
      simp only [hacting] at h
      cases hcurrent : t.members.load (team, target) with
      | none =>
        rw [hcurrent] at h
        cases h
      | some current =>
        simp only [hcurrent] at h
        unfold deleteSuperTeamRole at h
        split_ifs at h with hself hdenied hlast
        refine ⟨team, current, actorLevel, hcurrent, hacting, ?_, ?_, (Except.ok.inj h).symm⟩
        · intro hadmin
          by_contra hno
          push Not at hno
          exact hdenied ⟨hno.1, hadmin, Or.inr ⟨hno.2.1, hno.2.2⟩⟩
        · intro hcur
          apply Nat.pos_of_ne_zero
          intro hzero
          exact hlast ⟨hcur, hzero⟩

theorem call_effect {c : SuperTeamCall} (h : t.call c = .ok t') :
    RoleEffect t c t'.teams t'.members := by
  unfold SuperTeamTables.call at h
  cases c with
  | createSuperTeam env teamPrefix owner valid now create join =>
    simp only [createSuperTeam] at h
    cases hbefore : sanitizeSuperTeamPrefix teamPrefix with
    | none =>
      rw [hbefore] at h
      cases h
    | some team =>
      simp only [hbefore] at h
      split_ifs at h with hbad hexists
      split at h
      · cases h
      · split at h
        · cases h
        · cases h
          exact .founded team owner (Bool.eq_false_iff.mpr hexists) rfl ⟨_, _, _, _, _, _, rfl⟩
  | createSuperTeamInvitations env rs =>
    obtain ⟨⟨hteams, hmembers, -⟩, -⟩ := createSuperTeamInvitations_cases h
    rw [hteams, hmembers]
    exact .nothing
  | forceAddSuperTeamMembers env teamPrefix usernames level create join now =>
    obtain ⟨⟨hteams, hrows, -⟩, hlevel⟩ := forceAddSuperTeamMembers_cases h
    rw [hteams]
    exact .added teamPrefix usernames level _ rfl rfl hlevel hrows
  | respondSuperTeamInvitation env id recipient accept join now =>
    obtain ⟨i, hi, hteams, -, hcases⟩ := respondSuperTeamInvitation_cases h
    rw [hteams]
    rcases hcases with hmembers | ⟨inviterLevel, hrole, hhigh, hnew, hmembers⟩
    · rw [hmembers]
      exact .nothing
    · rw [hmembers]
      refine .joined i.teamPrefix recipient i.inviter i.level inviterLevel rfl ?_ hrole hhigh
        ⟨id, i, (Option.filter_eq_some_iff.mp hi).1, rfl⟩ hnew
      simp only [SuperTeamCall.granter, hi, Option.map_some]
  | setSuperTeamMemberLevel env teamPrefix actor target level administrator =>
    obtain ⟨team, current, actorLevel, hcurrent, hacting, hlevel, hallowed, hlast, rfl⟩ :=
      setSuperTeamMemberLevel_cases h
    refine .changed team target level current hlevel hcurrent hlast ?_
    cases administrator with
    | true => exact Or.inl ⟨rfl, rfl⟩
    | false => exact Or.inr ⟨actor, actorLevel, rfl, rfl, hacting, hallowed rfl⟩
  | removeSuperTeamMember env teamPrefix actor target administrator now =>
    obtain ⟨team, current, actorLevel, hcurrent, hacting, hallowed, hlast, rfl⟩ :=
      removeSuperTeamMember_cases h
    refine .removed team target current hcurrent hlast ?_
    cases administrator with
    | true => exact Or.inl rfl
    | false => exact Or.inr ⟨actor, actorLevel, rfl, hacting, hallowed rfl⟩
  | limits limits =>
    cases h
    exact .nothing

theorem call_invitations {c : SuperTeamCall} (h : t.call c = .ok t') {id : Text}
    {i : SuperTeamInvitation} (hload : t'.invitations.load id = some i) :
    t.invitations.load id = some i ∨ i.level ≤ superTeamRoleOwner := by
  unfold SuperTeamTables.call at h
  cases c with
  | createSuperTeam env teamPrefix owner valid now create join =>
    simp only [createSuperTeam] at h
    split at h
    · cases h
    · split_ifs at h
      split at h
      · cases h
      · split at h
        · cases h
        · cases h
          exact Or.inl hload
  | createSuperTeamInvitations env rs =>
    obtain ⟨⟨-, -, hinvitations⟩, hlevels⟩ := createSuperTeamInvitations_cases h
    rcases hinvitations id i hload with hold | ⟨r, hr, hi⟩
    · exact Or.inl hold
    · rw [hi]
      exact Or.inr (hlevels r hr)
  | forceAddSuperTeamMembers env teamPrefix usernames level create join now =>
    obtain ⟨⟨-, -, hinvitations⟩, -⟩ := forceAddSuperTeamMembers_cases h
    exact Or.inl (hinvitations id i hload)
  | respondSuperTeamInvitation env id' recipient accept join now =>
    obtain ⟨i', -, -, hinvitations, -⟩ := respondSuperTeamInvitation_cases h
    rw [hinvitations, GoMap.load_delete] at hload
    split_ifs at hload
    exact Or.inl hload
  | setSuperTeamMemberLevel env teamPrefix actor target level administrator =>
    obtain ⟨team, current, actorLevel, -, -, -, -, -, rfl⟩ := setSuperTeamMemberLevel_cases h
    exact Or.inl hload
  | removeSuperTeamMember env teamPrefix actor target administrator now =>
    obtain ⟨team, current, actorLevel, -, -, -, -, rfl⟩ := removeSuperTeamMember_cases h
    exact Or.inl (cancelSuperTeamInvitations_load hload)
  | limits limits =>
    cases h
    exact Or.inl hload

def OwnersLeft (t : SuperTeamTables) : Prop :=
  ∀ team, t.teams.has team = true → ∃ user, t.members.load (team, user) = some superTeamRoleOwner

def SparesOthers (t : SuperTeamTables) (c : SuperTeamCall) : Prop :=
  ∀ actor, c.actor = some actor → ∀ team,
    (∀ role, t.members.load (team, actor) = some role → role ≤ superTeamRoleManage) →
    ∀ user, user ≠ actor → ∀ role, role ≥ superTeamRoleManage →
      ((t.next c).members.load (team, user) = some role ↔
        t.members.load (team, user) = some role)

/-- T3 and T4 come from an administrator, from a holder of T4, or with a new team. -/
def GrantedByOwner (t : SuperTeamTables) (c : SuperTeamCall) : Prop :=
  ∀ team user role, role ≥ superTeamRoleManage →
    (t.next c).members.load (team, user) = some role →
    t.members.load (team, user) ≠ some role →
      c.administrative = true ∨
      (∃ granter, c.granter t = some granter ∧
        t.members.load (team, granter) = some superTeamRoleOwner) ∨
      (t.teams.has team = false ∧ ∃ env p valid now create join,
        c = .createSuperTeam env p user valid now create join)

structure SuperTeamKept (t : SuperTeamTables) : Prop where
  owned : OwnersLeft t
  roles : ∀ k role, t.members.load k = some role → role ≤ superTeamRoleOwner
  invited : ∀ id i, t.invitations.load id = some i → i.level ≤ superTeamRoleOwner

theorem otherOwner {team user : Text} (h : 0 < otherSuperTeamOwners t team user) :
    ∃ other, other ≠ user ∧ t.members.load (team, other) = some superTeamRoleOwner := by
  obtain ⟨k, role, hload, htest⟩ := GoMap.exists_of_count_pos h
  simp only [Bool.and_eq_true, decide_eq_true_eq] at htest
  refine ⟨k.2, htest.2, ?_⟩
  rw [← htest.1.1, ← htest.1.2]
  exact hload

theorem next_cases (t : SuperTeamTables) (c : SuperTeamCall) :
    t.next c = t ∨ t.call c = .ok (t.next c) := by
  unfold SuperTeamTables.next
  cases hcall : t.call c with
  | error err => exact Or.inl rfl
  | ok t' => exact Or.inr rfl

theorem next_effect (t : SuperTeamTables) (c : SuperTeamCall) :
    RoleEffect t c (t.next c).teams (t.next c).members := by
  rcases next_cases t c with hsame | hcall
  · rw [hsame]
    exact .nothing
  · exact call_effect hcall

theorem effect_owned {c : SuperTeamCall} {teams : GoMap Text Text}
    {members : GoMap (Text × Text) ℤ} (h : SuperTeamKept t) (he : RoleEffect t c teams members) :
    ∀ team, teams.has team = true →
      ∃ user, members.load (team, user) = some superTeamRoleOwner := by
  intro team hteam
  cases he with
  | nothing => exact h.owned team hteam
  | founded team' owner hnew hactor hfounds =>
    by_cases heq : team = team'
    · exact ⟨owner, by rw [heq]; exact GoMap.load_store_self _ _ _⟩
    · rw [GoMap.has, GoMap.load_store_ne _ _ heq] at hteam
      obtain ⟨user, hload⟩ := h.owned team hteam
      refine ⟨user, ?_⟩
      rw [GoMap.load_store_ne _ _ fun hk => heq (Prod.mk.inj hk).1]
      exact hload
  | added team' users level members hadmin hactor hlevel hrows =>
    obtain ⟨user, hload⟩ := h.owned team hteam
    refine ⟨user, ?_⟩
    rcases hrows (team, user) with hsame | ⟨hnone, -⟩
    · exact hsame.trans hload
    · rw [hnone] at hload
      cases hload
  | joined team' recipient inviter level inviterLevel hactor hgranter hrole hhigh hlevel hnew =>
    obtain ⟨user, hload⟩ := h.owned team hteam
    refine ⟨user, ?_⟩
    rw [GoMap.load_store_ne]
    · exact hload
    · intro hk
      rw [hk, (GoMap.has_eq_false _ _).mp hnew] at hload
      cases hload
  | changed team' target level current hlevel hcurrent hlast hallowed =>
    obtain ⟨user, hload⟩ := h.owned team hteam
    by_cases hk : (team, user) = (team', target)
    · rw [hk, hcurrent] at hload
      have hcur : current = superTeamRoleOwner := Option.some.inj hload
      rw [(Prod.mk.inj hk).1]
      by_cases hlow : level < superTeamRoleOwner
      · obtain ⟨other, hne, hother⟩ := otherOwner (hlast hcur hlow)
        refine ⟨other, ?_⟩
        rw [GoMap.load_store_ne _ _ fun hk => hne (Prod.mk.inj hk).2]
        exact hother
      · refine ⟨target, ?_⟩
        rw [GoMap.load_store_self, le_antisymm hlevel (le_of_not_gt hlow)]
    · refine ⟨user, ?_⟩
      rw [GoMap.load_store_ne _ _ hk]
      exact hload
  | removed team' target current hcurrent hlast hallowed =>
    obtain ⟨user, hload⟩ := h.owned team hteam
    by_cases hk : (team, user) = (team', target)
    · rw [hk, hcurrent] at hload
      obtain ⟨other, hne, hother⟩ := otherOwner (hlast (Option.some.inj hload))
      rw [(Prod.mk.inj hk).1]
      refine ⟨other, ?_⟩
      rw [GoMap.load_delete_ne _ fun hk => hne (Prod.mk.inj hk).2]
      exact hother
    · refine ⟨user, ?_⟩
      rw [GoMap.load_delete_ne _ hk]
      exact hload

theorem effect_roles {c : SuperTeamCall} {teams : GoMap Text Text}
    {members : GoMap (Text × Text) ℤ} (h : SuperTeamKept t) (he : RoleEffect t c teams members)
    {k : Text × Text} {role : ℤ} (hload : members.load k = some role) :
    role ≤ superTeamRoleOwner := by
  have hstore : ∀ key level, level ≤ superTeamRoleOwner →
      (t.members.store key level).load k = some role → role ≤ superTeamRoleOwner := by
    intro key level hlevel hrow
    rw [GoMap.load_store] at hrow
    split_ifs at hrow
    · rw [← Option.some.inj hrow]
      exact hlevel
    · exact h.roles k role hrow
  cases he with
  | nothing => exact h.roles k role hload
  | founded team owner hnew hactor hfounds => exact hstore _ _ le_rfl hload
  | added team users level members hadmin hactor hlevel hrows =>
    rcases hrows k with hsame | ⟨-, hnew⟩
    · exact h.roles k role (hsame.symm.trans hload)
    · rw [← Option.some.inj (hnew.symm.trans hload)]
      exact hlevel
  | joined team recipient inviter level inviterLevel hactor hgranter hrole hhigh hlevel hnew =>
    obtain ⟨id, i, hi, heq⟩ := hlevel
    refine hstore _ _ ?_ hload
    rw [← heq]
    exact h.invited id i hi
  | changed team target level current hlevel hcurrent hlast hallowed =>
    exact hstore _ _ hlevel hload
  | removed team target current hcurrent hlast hallowed =>
    rw [GoMap.load_delete] at hload
    split_ifs at hload
    exact h.roles k role hload

theorem next_kept (h : SuperTeamKept t) (c : SuperTeamCall) : SuperTeamKept (t.next c) := by
  refine ⟨effect_owned h (next_effect t c), fun k role => effect_roles h (next_effect t c), ?_⟩
  intro id i hload
  rcases next_cases t c with hsame | hcall
  · rw [hsame] at hload
    exact h.invited id i hload
  · rcases call_invitations hcall hload with hold | hlevel
    · exact h.invited id i hold
    · exact hlevel

theorem next_spares (t : SuperTeamTables) (c : SuperTeamCall) : SparesOthers t c := by
  intro actor hactor team hweak user hne role hrole
  have he := next_effect t c
  generalize (t.next c).teams = teams at he
  generalize (t.next c).members = members at he ⊢
  cases he with
  | nothing => exact Iff.rfl
  | founded team' owner hnew hactor' hfounds =>
    rw [hactor', Option.some.injEq] at hactor
    rw [GoMap.load_store_ne]
    intro hk
    exact hne ((Prod.mk.inj hk).2.trans hactor)
  | added team' users level members hadmin hactor' hlevel hrows =>
    rw [hactor'] at hactor
    cases hactor
  | joined team' recipient inviter level inviterLevel hactor' hgranter hrole' hhigh hlevel hnew =>
    rw [hactor', Option.some.injEq] at hactor
    rw [GoMap.load_store_ne]
    intro hk
    exact hne ((Prod.mk.inj hk).2.trans hactor)
  | changed team' target level current hlevel hcurrent hlast hallowed =>
    rcases hallowed with ⟨-, hactor'⟩ | ⟨actor', actorLevel, hactor', -, hrow, hcase⟩
    · rw [hactor'] at hactor
      cases hactor
    · rw [hactor', Option.some.injEq] at hactor
      subst hactor
      by_cases hk : (team, user) = (team', target)
      · have hteam := (Prod.mk.inj hk).1
        subst hteam
        have hlow := hweak actorLevel hrow
        have hlow' : current < superTeamRoleManage ∧ level < superTeamRoleManage := by
          rcases hcase with hhigh | hlow'
          · exact absurd (hhigh.trans hlow) (by decide)
          · exact hlow'
        rw [hk, GoMap.load_store_self, hcurrent]
        refine iff_of_false (fun heq => ?_) fun heq => ?_
        · have := Option.some.inj heq
          omega
        · have := Option.some.inj heq
          omega
      · rw [GoMap.load_store_ne _ _ hk]
  | removed team' target current hcurrent hlast hallowed =>
    rcases hallowed with hactor' | ⟨actor', actorLevel, hactor', hrow, hcase⟩
    · rw [hactor'] at hactor
      cases hactor
    · rw [hactor', Option.some.injEq] at hactor
      subst hactor
      by_cases hk : (team, user) = (team', target)
      · obtain ⟨hteam, huser⟩ := Prod.mk.inj hk
        subst hteam
        have hlow := hweak actorLevel hrow
        have hlow' : current < superTeamRoleManage := by
          rcases hcase with hself | hhigh | hlow'
          · exact absurd (huser.trans hself.symm) hne
          · exact absurd (hhigh.trans hlow) (by decide)
          · exact hlow'
        rw [hk, GoMap.load_delete, if_pos rfl, hcurrent]
        refine iff_of_false (fun heq => ?_) fun heq => ?_
        · cases heq
        · have := Option.some.inj heq
          omega
      · rw [GoMap.load_delete_ne _ hk]

theorem next_granted (h : SuperTeamKept t) (c : SuperTeamCall) : GrantedByOwner t c := by
  intro team user role hrole hload hold
  have he := next_effect t c
  generalize (t.next c).teams = teams at he
  generalize (t.next c).members = members at he hload
  cases he with
  | nothing => exact absurd hload hold
  | founded team' owner hnew hactor hfounds =>
    rw [GoMap.load_store] at hload
    split_ifs at hload with hk
    · obtain ⟨hteam, huser⟩ := Prod.mk.inj hk
      rw [hteam, huser]
      exact Or.inr (Or.inr ⟨hnew, hfounds⟩)
    · exact absurd hload hold
  | added team' users level members hadmin hactor hlevel hrows => exact Or.inl hadmin
  | joined team' recipient inviter level inviterLevel hactor hgranter hrole' hhigh hlevel hnew =>
    rw [GoMap.load_store] at hload
    split_ifs at hload with hk
    · have hlevel' := Option.some.inj hload
      have howner : inviterLevel = superTeamRoleOwner :=
        le_antisymm (h.roles _ _ hrole') (hhigh (by rw [hlevel']; exact hrole))
      rw [howner, ← (Prod.mk.inj hk).1] at hrole'
      exact Or.inr (Or.inl ⟨inviter, hgranter, hrole'⟩)
    · exact absurd hload hold
  | changed team' target level current hlevel hcurrent hlast hallowed =>
    rw [GoMap.load_store] at hload
    split_ifs at hload with hk
    · rcases hallowed with ⟨hadmin, -⟩ | ⟨actor, actorLevel, -, hgranter, hrow, hcase⟩
      · exact Or.inl hadmin
      · have hlevel' := Option.some.inj hload
        have hhigh : actorLevel ≥ superTeamRoleOwner := by
          rcases hcase with hhigh | hlow
          · exact hhigh
          · omega
        have howner : actorLevel = superTeamRoleOwner := le_antisymm (h.roles _ _ hrow) hhigh
        rw [howner, ← (Prod.mk.inj hk).1] at hrow
        exact Or.inr (Or.inl ⟨actor, hgranter, hrow⟩)
    · exact absurd hload hold
  | removed team' target current hcurrent hlast hallowed =>
    rw [GoMap.load_delete] at hload
    split_ifs at hload
    exact absurd hload hold

def SuperTeamTables.unused (messages : GoMap Text Message) (limits : GoMap Text (ℤ × ℤ)) :
    SuperTeamTables :=
  ⟨∅, ∅, ∅, messages, limits⟩

theorem unused_kept (messages : GoMap Text Message) (limits : GoMap Text (ℤ × ℤ)) :
    SuperTeamKept (.unused messages limits) := by
  constructor
  · intro team hteam
    cases hteam
  · intro k role hload
    cases hload
  · intro id i hload
    cases hload

theorem run_kept (cs : List SuperTeamCall) :
    ∀ {t : SuperTeamTables}, SuperTeamKept t →
      Runs.Through SuperTeamTables.next OwnersLeft t cs ∧
        Runs.Along SuperTeamTables.next SparesOthers t cs ∧
          Runs.Along SuperTeamTables.next GrantedByOwner t cs := by
  induction cs with
  | nil =>
    intro t h
    exact ⟨h.owned, trivial, trivial⟩
  | cons c cs ih =>
    intro t h
    obtain ⟨howned, hspares, hgranted⟩ := ih (next_kept h c)
    exact ⟨⟨h.owned, howned⟩, ⟨next_spares t c, hspares⟩, next_granted h c, hgranted⟩

end RenoP.Team
