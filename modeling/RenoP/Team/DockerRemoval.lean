import RenoP.Team.DockerTeam

/-!
# Removed from an image team

A removed user has no row until an administrator adds the user or the user accepts an invitation
that was made after the removal.
-/

namespace RenoP.Team

open RenoP.Database (Text)

def DockerTeam.created (s : DockerTeam) : DockerCall → List Text
  | .createDockerInvitations env rs =>
    if (createDockerInvitations env s rs).isOk then rs.map (·.id) else []
  | _ => []

/-- The call makes the user a member again: `since` are the invitations made after the removal. -/
def DockerTeam.Readmits (s : DockerTeam) (user : Text) (since : List Text) : DockerCall → Prop
  | .forceAddDockerMembers env usernames level =>
    user ∈ usernames ∧ (forceAddDockerMembers env s usernames level).isOk = true
  | .respondDockerInvitation env id recipient accept actedAt =>
    recipient = user ∧ accept = true ∧ id ∈ since ∧
      (respondDockerInvitation env s id recipient accept actedAt).isOk = true
  | _ => False

def NotReadmitted (user : Text) : List Text → DockerTeam → List DockerCall → Prop
  | _, _, [] => True
  | since, s, c :: cs =>
    ¬s.Readmits user since c ∧ NotReadmitted user (since ++ s.created c) (s.next c) cs

def RemovalFinal (s : DockerTeam) (cs : List DockerCall) : Prop :=
  ∀ before env actor usernames after user,
    cs = before ++ .removeDockerMembers env actor usernames :: after →
    (removeDockerMembers env (before.foldl DockerTeam.next s) actor usernames).isOk = true →
    user ∈ usernames →
    NotReadmitted user []
      ((before.foldl DockerTeam.next s).next (.removeDockerMembers env actor usernames)) after →
    (cs.foldl DockerTeam.next s).team.members.has user = false

def ListingKeeps (s : DockerTeam) : Prop := ∀ env, (listDockerMembers env s).1 = s

variable {s : DockerTeam} {t t' : TeamTables} {user : Text} {since : List Text}

structure Out (user : Text) (since : List Text) (s : DockerTeam) : Prop where
  absent : s.team.members.has user = false
  invited : ∀ id i, s.team.invitations.load id = some i → i.recipient = user → id ∈ since

theorem createInvitations_invitations {format : TeamFormat} {inviter : Text} {level : ℤ}
    {rs : List InvitationRequest} :
    ∀ {t t' : TeamTables}, createInvitations format inviter level t rs = .ok t' →
      ∀ id i, t'.invitations.load id = some i →
        t.invitations.load id = some i ∨ id ∈ rs.map (·.id) := by
  induction rs with
  | nil =>
    intro t t' h id i hload
    cases h
    exact Or.inl hload
  | cons r rs ih =>
    intro t t' h id i hload
    unfold createInvitations at h
    cases hr : createInvitation format t inviter level r with
    | error err =>
      rw [hr] at h
      cases h
    | ok t₁ =>
      simp only [hr] at h
      rw [List.map_cons, List.mem_cons]
      rcases ih h id i hload with hmid | hnew
      · obtain ⟨-, -, -, hall⟩ := createInvitation_cases hr
        rcases hall id i hmid with ⟨hid, -⟩ | ⟨hold, -⟩
        · exact Or.inr (Or.inl hid)
        · exact Or.inl hold
      · exact Or.inr (Or.inr hnew)

theorem Out.mono (h : Out user since s) {s' : DockerTeam} {ids : List Text}
    (hmembers : s'.team.members.has user = s.team.members.has user)
    (hinvitations : ∀ id i, s'.team.invitations.load id = some i → s.team.invitations.load id = some i) :
    Out user (since ++ ids) s' := by
  constructor
  · rw [hmembers]
    exact h.absent
  · intro id i hload hrecipient
    exact List.mem_append_left ids (h.invited id i (hinvitations id i hload) hrecipient)

theorem next_out (hs : Settled s) (h : Out user since s) {c : DockerCall}
    (hout : ¬s.Readmits user since c) : Out user (since ++ s.created c) (s.next c) := by
  unfold DockerTeam.next
  cases hcall : s.call c with
  | error err => exact h.mono rfl fun _ _ hload => hload
  | ok s' =>
    cases c with
    | createDockerInvitations env rs =>
      have hok : (createDockerInvitations env s rs).isOk = true := by
        rw [show createDockerInvitations env s rs = .ok s' from hcall]
        rfl
      obtain ⟨inviter, level, t, hcreate, rfl⟩ := createDockerInvitations_cases hs hcall
      simp only [DockerTeam.created, hok, if_true]
      constructor
      · show t.members.has user = false
        rw [(createInvitations_members hcreate).1]
        exact h.absent
      · intro id i hload hrecipient
        rw [List.mem_append]
        rcases createInvitations_invitations hcreate id i hload with hold | hnew
        · exact Or.inl (h.invited id i hold hrecipient)
        · exact Or.inr hnew
    | respondDockerInvitation env id recipient accept actedAt =>
      have hok : (respondDockerInvitation env s id recipient accept actedAt).isOk = true := by
        rw [show respondDockerInvitation env s id recipient accept actedAt = .ok s' from hcall]
        rfl
      obtain ⟨t, hr, rfl⟩ := respondDockerInvitation_ok hcall
      obtain ⟨i, hload, hrecipient, hinvitations, -, hcases⟩ := respondInvitation_cases hr
      apply h.mono
      · show t.members.has user = _
        rcases hcases with ⟨-, hmembers⟩ | ⟨haccept, -, -, -, hmembers⟩
        · rw [hmembers]
        · have hne : user ≠ recipient := by
            intro heq
            apply hout
            exact ⟨heq.symm, haccept, h.invited id i hload (hrecipient.trans heq.symm), hok⟩
          rw [hmembers, GoMap.has, GoMap.load_store_ne _ _ hne]
          split_ifs
          · exact GoMap.has_updateWhere _ _ _ _
          · rfl
      · intro id' i' hload'
        have hdeleted : (s.team.invitations.delete id).load id' = some i' := by
          rw [← hinvitations]
          exact hload'
        rw [GoMap.load_delete] at hdeleted
        split_ifs at hdeleted
        exact hdeleted
    | forceAddDockerMembers env usernames level =>
      have hok : (forceAddDockerMembers env s usernames level).isOk = true := by
        rw [show forceAddDockerMembers env s usernames level = .ok s' from hcall]
        rfl
      obtain ⟨t, ha, rfl⟩ := forceAddDockerMembers_ok hcall
      obtain ⟨users, hmem, -, -, rfl⟩ := forceAddMembers_cases ha
      obtain ⟨hmembers, hinvitations, -⟩ := @foldl_addMember dockerFormat level
        users { s.team with members := rowsBefore s.team.members level }
      apply h.mono
      · show GoMap.has _ user = _
        have huser : user ∉ users := fun hu => hout ⟨(hmem user).mp hu, hok⟩
        rw [GoMap.has, hmembers, if_neg huser]
        show (rowsBefore s.team.members level).has user = _
        unfold rowsBefore
        split_ifs
        · exact GoMap.has_updateWhere _ _ _ _
        · rfl
      · intro id i hload
        have hfiltered := (hinvitations id).symm.trans hload
        exact (Option.filter_eq_some_iff.mp hfiltered).1
    | setDockerMemberLevel env actor username level =>
      obtain ⟨t, hset, rfl⟩ := setDockerMemberLevel_ok hcall
      obtain ⟨hhas, hinvitations⟩ := setMemberLevel_has hset
      apply h.mono (hhas user)
      intro id i hload
      rw [← hinvitations]
      exact hload
    | removeDockerMembers env actor usernames =>
      obtain ⟨t, hr, rfl⟩ := removeDockerMembers_ok hcall
      have hinvitations : t.invitations = s.team.invitations := by
        obtain ⟨users, -, -, rfl⟩ := removeTeamMembers_cases hr
        rfl
      apply h.mono
      · show t.members.has user = _
        rw [h.absent, GoMap.has_eq_false, removeTeamMembers_load hr]
        split_ifs
        · rfl
        · exact (GoMap.has_eq_false _ _).mp h.absent
      · intro id i hload
        rw [← hinvitations]
        exact hload
    | listDockerMembers env =>
      simp only [DockerTeam.call, hs.list_unchanged] at hcall
      cases hcall
      exact h.mono rfl fun _ _ hload => hload
    | globalTeam roles =>
      cases hcall
      exact h.mono rfl fun _ _ hload => hload

theorem removed_out (hs : Settled s) {env : Accounts} {actor : Text} {usernames : List Text}
    (hok : (removeDockerMembers env s actor usernames).isOk = true) (huser : user ∈ usernames) :
    Out user [] (s.next (.removeDockerMembers env actor usernames)) := by
  unfold DockerTeam.next
  simp only [DockerTeam.call]
  unfold removeDockerMembers at hok ⊢
  cases hr : removeTeamMembers env s.team actor usernames with
  | error err =>
    rw [hr] at hok
    cases hok
  | ok t =>
    simp only
    constructor
    · show t.members.has user = false
      rw [GoMap.has_eq_false, removeTeamMembers_load hr, if_pos huser]
    · intro id i hload hrecipient
      obtain ⟨users, hmem, ⟨hall, -⟩, rfl⟩ := removeTeamMembers_cases hr
      have hmember := hall user ((hmem user).mpr huser)
      have houtside := hs.outside id i hload
      rw [hrecipient, hmember] at houtside
      cases houtside

theorem run_out (cs : List DockerCall) :
    ∀ {s : DockerTeam} {since : List Text}, Settled s → Out user since s →
      Runs.Along DockerTeam.next DockerTeam.OwnerExchanges s cs → NotReadmitted user since s cs →
        (cs.foldl DockerTeam.next s).team.members.has user = false := by
  induction cs with
  | nil =>
    intro s since _ h _ _
    exact h.absent
  | cons c cs ih =>
    intro s since hs h hown hout
    exact ih (next_settled hs hown.1) (next_out hs h hout.1) hown.2 hout.2

theorem created_settled {env : Accounts} {owner : Text} {bound : Bool} (hmembers : t.members = ∅)
    (hinvitations : t.invitations = ∅) (h : createDockerImage env t owner bound = .ok s) :
    Settled s := by
  unfold createDockerImage at h
  split_ifs at h
  cases h
  have hnone : ∀ id i, t.invitations.load id ≠ some i := by
    intro id i hload
    rw [hinvitations] at hload
    cases hload
  refine ⟨?_, fun id i hload => absurd hload (hnone id i),
    fun id _ i _ hload => absurd hload (hnone id i)⟩
  apply owned_store_owner
  intro user' _ hload
  rw [hmembers] at hload
  cases hload

theorem run_settled (cs : List DockerCall) :
    ∀ {s : DockerTeam}, Settled s → Runs.Along DockerTeam.next DockerTeam.OwnerExchanges s cs →
      Settled (cs.foldl DockerTeam.next s) := by
  intro s hs hown
  apply Runs.Along.invariant _ hs hown
  intro s c hs hown
  exact next_settled hs hown

/-- When every exchange is made by the owner, whoever is removed from a created image stays
removed and no listing grants a level. -/
theorem removal_is_final {env : Accounts} {owner : Text} {bound : Bool} (cs : List DockerCall)
    (hmembers : t.members = ∅) (hinvitations : t.invitations = ∅)
    (hcreate : createDockerImage env t owner bound = .ok s)
    (hown : Runs.Along DockerTeam.next DockerTeam.OwnerExchanges s cs) :
    RemovalFinal s cs ∧ ListingKeeps (cs.foldl DockerTeam.next s) := by
  have hs := created_settled hmembers hinvitations hcreate
  constructor
  · intro before env' actor usernames after user hcs hok huser hout
    subst hcs
    obtain ⟨hbefore, hremove, hafter⟩ := Runs.along_append hown
    have hmid := run_settled before hs hbefore
    rw [List.foldl_append, List.foldl_cons]
    exact run_out after (next_settled hmid hremove) (removed_out hmid hok huser) hafter hout
  · intro env'
    rw [(run_settled cs hs hown).list_unchanged]

def namespaceRows : TeamTables where
  members := ∅
  invitations := ∅
  messages := ∅
  roles := (∅ : GoMap Text ℤ).store ['a'] 3 |>.store ['b'] 4

theorem removed_member_returns :
    ¬ ∀ (env : Accounts) (t : TeamTables) (owner : Text) (bound : Bool) (s : DockerTeam)
        (cs : List DockerCall), t.members = ∅ → t.invitations = ∅ →
      createDockerImage env t owner bound = .ok s →
        RemovalFinal s cs ∧ ListingKeeps (cs.foldl DockerTeam.next s) := by
  intro h
  have hstart : createDockerImage openAccounts namespaceRows ['a'] true =
      .ok ⟨{ namespaceRows with members := namespaceRows.members.store ['a'] 4 }, ['a']⟩ := rfl
  have hfinal := (h openAccounts namespaceRows ['a'] true _
    [.forceAddDockerMembers openAccounts [['c']] 2,
      .setDockerMemberLevel openAccounts ['b'] ['c'] 4,
      .removeDockerMembers openAccounts ['a'] [['c']], .listDockerMembers openAccounts]
    rfl rfl hstart).1
  have hout := hfinal [.forceAddDockerMembers openAccounts [['c']] 2,
      .setDockerMemberLevel openAccounts ['b'] ['c'] 4] openAccounts ['a'] [['c']]
    [.listDockerMembers openAccounts] ['c'] rfl (by decide +kernel) (by decide)
    ⟨fun h => h, trivial⟩
  revert hout
  decide +kernel

theorem removal_final_handed_over :
    RemovalFinal ⟨{ namespaceRows with members := namespaceRows.members.store ['a'] 4 }, ['a']⟩
        [.forceAddDockerMembers openAccounts [['c']] 2,
          .setDockerMemberLevel openAccounts ['a'] ['c'] 4,
          .removeDockerMembers openAccounts ['c'] [['a']], .listDockerMembers openAccounts] ∧
      ListingKeeps ([.forceAddDockerMembers openAccounts [['c']] 2,
          .setDockerMemberLevel openAccounts ['a'] ['c'] 4,
          .removeDockerMembers openAccounts ['c'] [['a']],
          .listDockerMembers openAccounts].foldl DockerTeam.next
        ⟨{ namespaceRows with members := namespaceRows.members.store ['a'] 4 }, ['a']⟩) := by
  apply @removal_is_final _ namespaceRows openAccounts ['a'] true _ rfl rfl rfl
  refine ⟨trivial, fun _ => ?_, trivial, trivial, trivial⟩
  decide +kernel

end RenoP.Team
