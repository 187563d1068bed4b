import RenoP.Team.Ownership
import RenoP.Lib.Runs

/-!
# npm package teams

`internal/database/npm_team.go`. The level of an actor may come from the global team that the
package is bound to, whose roles change at any time.
-/

namespace RenoP.Team

open RenoP.Database (Text)

def npmFormat : TeamFormat where
  actionKind := ['n', 'p', 'm', '_', 'p', 'a', 'c', 'k', 'a', 'g', 'e', '_', 'i', 'n', 'v', 'i', 't', 'e']
  resolves := userIDForExistingAccount
  closes := fun _ _ => true

def createNPMInvitationsTx (env : Accounts) (t : TeamTables) (inviter : Text)
    (rs : List InvitationRequest) : Except TeamError TeamTables :=
  if !userIDForExistingAccount env inviter then .error .permissionDenied
  else if !rs.all fun r => userIDForExistingAccount env r.invitation.recipient then
    .error .profileNotFound
  else if env.locked then .error .resourceLocked
  else if !t.permits inviter permissionTeam then .error .permissionDenied
  else createInvitations npmFormat inviter (t.effectivePermission inviter).1 t rs

def createNPMInvitations (env : Accounts) (t : TeamTables) (rs : List InvitationRequest) :
    Except TeamError TeamTables :=
  match rs with
  | [] => .error .batchInvalid
  | first :: _ =>
    if rs.length > 20 then .error .batchInvalid
    else match checkRequests rs with
    | .error err => .error err
    | .ok () => createNPMInvitationsTx env t first.invitation.inviter rs

def respondNPMInvitation (env : Accounts) (t : TeamTables) (id recipient : Text) (accept : Bool)
    (actedAt : ℤ) : Except TeamError TeamTables :=
  respondInvitation npmFormat env t id recipient accept actedAt

def forceAddNPMMembers (env : Accounts) (t : TeamTables) (usernames : List Text) (level : ℤ) :
    Except TeamError TeamTables :=
  if usernames = [] ∨ usernames.length > 20 ∨ validLevel level = false then .error .batchInvalid
  else forceAddMembers npmFormat env t usernames level

def setNPMMemberLevel (env : Accounts) (t : TeamTables) (actor username : Text) (level : ℤ) :
    Except TeamError TeamTables :=
  setMemberLevel env t actor username level

def removeNPMMembers (env : Accounts) (t : TeamTables) (actor : Text) (usernames : List Text) :
    Except TeamError TeamTables :=
  removeTeamMembers env t actor usernames

inductive NPMCall where
  | createNPMInvitations (env : Accounts) (rs : List InvitationRequest)
  | respondNPMInvitation (env : Accounts) (id recipient : Text) (accept : Bool) (actedAt : ℤ)
  | forceAddNPMMembers (env : Accounts) (usernames : List Text) (level : ℤ)
  | setNPMMemberLevel (env : Accounts) (actor username : Text) (level : ℤ)
  | removeNPMMembers (env : Accounts) (actor : Text) (usernames : List Text)
  /-- Any change of the bound global team or of the binding. -/
  | globalTeam (roles : GoMap Text ℤ)

def npmCall (t : TeamTables) : NPMCall → Except TeamError TeamTables
  | .createNPMInvitations env rs => createNPMInvitations env t rs
  | .respondNPMInvitation env id recipient accept actedAt =>
    respondNPMInvitation env t id recipient accept actedAt
  | .forceAddNPMMembers env usernames level => forceAddNPMMembers env t usernames level
  | .setNPMMemberLevel env actor username level => setNPMMemberLevel env t actor username level
  | .removeNPMMembers env actor usernames => removeNPMMembers env t actor usernames
  | .globalTeam roles => .ok { t with roles := roles }

def npmNext (t : TeamTables) (c : NPMCall) : TeamTables :=
  match npmCall t c with
  | .error _ => t
  | .ok t => t

def OwnerExchanges (t : TeamTables) : NPMCall → Prop
  | .setNPMMemberLevel env actor username level =>
    t.exchanges env actor username level = true → t.members.load actor = some permissionOwner
  | _ => True

def NPMCall.authority (t : TeamTables) : NPMCall → Option Text
  | .respondNPMInvitation _ id recipient _ _ => (t.invitationFor id recipient).map (·.inviter)
  | .setNPMMemberLevel _ actor _ _ => if actor = [] then none else some actor
  | .removeNPMMembers _ actor _ => if actor = [] then none else some actor
  | _ => none

def SparesOwner (t : TeamTables) (c : NPMCall) : Prop :=
  ∀ user, c.authority t = some user → (t.effectivePermission user).1 < permissionOwner →
    ∀ owner, t.members.load owner = some permissionOwner →
      (npmNext t c).members.load owner = some permissionOwner

variable {t t' : TeamTables} {owner : Text}

theorem createNPMInvitations_members {env : Accounts} {rs : List InvitationRequest}
    (h : createNPMInvitations env t rs = .ok t') : t'.members = t.members := by
  unfold createNPMInvitations at h
  cases rs with
  | nil => cases h
  | cons first rs =>
    simp only at h
    split_ifs at h
    cases hcheck : checkRequests (first :: rs) with
    | error err =>
      rw [hcheck] at h
      cases h
    | ok u =>
      simp only [hcheck] at h
      unfold createNPMInvitationsTx at h
      split_ifs at h
      exact (createInvitations_members h).1

theorem forceAddNPMMembers_owned {env : Accounts} {usernames : List Text} {level : ℤ}
    (ho : Owned t.members owner) (h : forceAddNPMMembers env t usernames level = .ok t') :
    Owned t'.members (ownerAfterAdd owner usernames level) := by
  unfold forceAddNPMMembers at h
  split_ifs at h
  exact forceAddMembers_owned ho h

theorem npmNext_owned (ho : Owned t.members owner) {c : NPMCall} (hown : OwnerExchanges t c) :
    ∃ owner', Owned (npmNext t c).members owner' := by
  unfold npmNext
  cases hcall : npmCall t c with
  | error err => exact ⟨owner, ho⟩
  | ok t' =>
    cases c with
    | createNPMInvitations env rs =>
      have hmembers : t'.members = t.members := createNPMInvitations_members hcall
      refine ⟨owner, ?_⟩
      show Owned t'.members owner
      rw [hmembers]
      exact ho
    | respondNPMInvitation env id recipient accept actedAt =>
      exact ⟨_, respondInvitation_owned ho hcall⟩
    | forceAddNPMMembers env usernames level => exact ⟨_, forceAddNPMMembers_owned ho hcall⟩
    | setNPMMemberLevel env actor username level =>
      exact ⟨_, setMemberLevel_owned ho hown hcall⟩
    | removeNPMMembers env actor usernames => exact ⟨owner, removeTeamMembers_owned ho hcall⟩
    | globalTeam roles =>
      cases hcall
      exact ⟨owner, ho⟩

theorem exchange_two_owners (ho : Owned t.members owner) {env : Accounts} {actor username : Text}
    {level : ℤ} (hex : t.exchanges env actor username level = true)
    (hrow : t.members.load actor ≠ some permissionOwner) (owner' : Text) :
    ¬Owned (npmNext t (.setNPMMemberLevel env actor username level)).members owner' := by
  obtain ⟨current, hload, hset⟩ := setMemberLevel_exchanges hex
  have hnext : npmNext t (.setNPMMemberLevel env actor username level) =
      { t with members := setLevel (setLevel t.members actor current) username level } := by
    simp only [npmNext, npmCall, setNPMMemberLevel, hset]
  simp only [TeamTables.exchanges, Bool.and_eq_true, decide_eq_true_eq] at hex
  have htransfer := hex.1.1.1.1.1.1.1.1.1
  simp only [TeamTables.transfers, Bool.and_eq_true, decide_eq_true_eq] at htransfer
  have hself := hex.1.1.1.1.1.1.2
  have howner := (ho owner).mpr rfl
  have hne : owner ≠ username := by
    intro heq
    rw [heq] at howner
    exact htransfer.2 howner
  have hneactor : owner ≠ actor := by
    intro heq
    rw [heq] at howner
    exact hrow howner
  rw [hnext]
  intro hafter
  have hold : owner = owner' := by
    apply (hafter owner).mp
    show (setLevel (setLevel t.members actor current) username level).load owner = _
    rw [load_setLevel, if_neg hne, load_setLevel, if_neg hneactor]
    exact howner
  have hnew : username = owner' := by
    apply (hafter username).mp
    show (setLevel (setLevel t.members actor current) username level).load username = _
    rw [load_setLevel, if_pos rfl, load_setLevel, if_neg hself.symm, hload, htransfer.1]
    rfl
  exact hne (hold.trans hnew.symm)

theorem npmNext_one_owner_iff (h : ownerCount t.members = 1) (c : NPMCall) :
    ownerCount (npmNext t c).members = 1 ↔ OwnerExchanges t c := by
  obtain ⟨owner, ho⟩ := (ownerCount_eq_one_iff _).mp h
  rw [ownerCount_eq_one_iff]
  constructor
  · intro hafter
    cases c with
    | setNPMMemberLevel env actor username level =>
      intro hex
      by_contra hrow
      obtain ⟨owner', ho'⟩ := hafter
      exact exchange_two_owners ho hex hrow owner' ho'
    | createNPMInvitations env rs => trivial
    | respondNPMInvitation env id recipient accept actedAt => trivial
    | forceAddNPMMembers env usernames level => trivial
    | removeNPMMembers env actor usernames => trivial
    | globalTeam roles => trivial
  · intro hown
    exact npmNext_owned ho hown

theorem npmNext_spares (ho : Owned t.members owner) (c : NPMCall) : SparesOwner t c := by
  intro user hauthority hlevel owner' howner'
  have howner : owner' = owner := (ho owner').mp howner'
  rw [howner]
  unfold npmNext
  cases hcall : npmCall t c with
  | error err => exact (ho owner).mpr rfl
  | ok t' =>
    cases c with
    | respondNPMInvitation env id recipient accept actedAt =>
      apply (respondInvitation_owned ho hcall owner).mpr
      obtain ⟨i, hload, hrecipient, -, -, hcases⟩ := respondInvitation_cases hcall
      have hinviter : i.inviter = user := by
        have hfor : t.invitationFor id recipient = some i :=
          Option.filter_eq_some_iff.mpr ⟨hload, decide_eq_true hrecipient⟩
        simp only [NPMCall.authority, hfor, Option.map_some, Option.some.injEq] at hauthority
        exact hauthority
      unfold TeamTables.ownerAfterAnswer
      rw [hload, Option.any_some]
      rcases hcases with ⟨haccept, -⟩ | ⟨-, -, hlevel', -, -⟩
      · rw [haccept, Bool.false_and, if_neg Bool.false_ne_true]
      · have hne : i.level ≠ permissionOwner := by
          intro heq
          have := hlevel' heq
          rw [hinviter] at this
          omega
        simp only [hne, decide_false, Bool.and_false, Bool.false_eq_true, if_false]
    | setNPMMemberLevel env actor username level =>
      have hnone : t.exchanges env actor username level = false := by
        apply Bool.eq_false_iff.mpr
        intro hex
        simp only [TeamTables.exchanges, Bool.and_eq_true, decide_eq_true_eq] at hex
        have hlevel' := hex.1.1.1.1.1.2
        have hne := hex.1.1.1.1.1.1.1.2
        simp only [NPMCall.authority, hne, if_false, Option.some.injEq] at hauthority
        rw [hauthority] at hlevel'
        omega
      apply (setMemberLevel_owned ho (by rw [hnone]; exact fun h => absurd h Bool.false_ne_true)
        hcall owner).mpr
      obtain ⟨current, -, -, -, hcases⟩ := setMemberLevel_cases hcall
      unfold TeamTables.ownerAfter
      rcases hcases with ⟨hno, -, -⟩ | ⟨-, hadmin, -⟩ | ⟨hex, -⟩
      · rw [hno, if_neg Bool.false_ne_true]
      · simp only [NPMCall.authority, hadmin, if_true] at hauthority
        cases hauthority
      · rw [hnone] at hex
        cases hex
    | removeNPMMembers env actor usernames =>
      exact (removeTeamMembers_owned ho hcall owner).mpr rfl
    | createNPMInvitations env rs => cases hauthority
    | forceAddNPMMembers env usernames level => cases hauthority
    | globalTeam roles => cases hauthority

theorem along_spares (cs : List NPMCall) :
    ∀ {t : TeamTables}, ownerCount t.members = 1 →
      Runs.Along npmNext OwnerExchanges t cs → Runs.Along npmNext SparesOwner t cs := by
  induction cs with
  | nil =>
    intro t _ _
    trivial
  | cons c cs ih =>
    intro t h hown
    obtain ⟨owner, ho⟩ := (ownerCount_eq_one_iff _).mp h
    exact ⟨npmNext_spares ho c, ih ((npmNext_one_owner_iff h c).mpr hown.1) hown.2⟩

/-- A package with one owner has one in every state of a run exactly when every exchange is made
by the owner; and then nobody below L4 demotes or removes the owner. -/
theorem one_owner_iff (t : TeamTables) (cs : List NPMCall) (h : ownerCount t.members = 1) :
    (Runs.Through npmNext (fun t => ownerCount t.members = 1) t cs ↔
      Runs.Along npmNext OwnerExchanges t cs) ∧
    (Runs.Along npmNext OwnerExchanges t cs → Runs.Along npmNext SparesOwner t cs) := by
  refine ⟨?_, along_spares cs h⟩
  apply Runs.through_iff_along
  · intro t c ht
    exact npmNext_one_owner_iff ht c
  · exact h

/-- The owner `a` and the member `c`; `b` owns the global team. -/
def boundTeam : TeamTables where
  members := (∅ : GoMap Text ℤ).store ['a'] 4 |>.store ['c'] 2
  invitations := ∅
  messages := ∅
  roles := (∅ : GoMap Text ℤ).store ['b'] 4

theorem global_owner_makes_two :
    ¬ ∀ (t : TeamTables) (cs : List NPMCall), ownerCount t.members = 1 →
      Runs.Through npmNext (fun t => ownerCount t.members = 1) t cs := by
  intro h
  have hlast := (h boundTeam [.setNPMMemberLevel openAccounts ['b'] ['c'] 4] (by decide +kernel)).2
  revert hlast
  simp only [Runs.Through]
  decide +kernel

theorem one_owner_handed_over :
    Runs.Through npmNext (fun t => ownerCount t.members = 1) boundTeam
      [.setNPMMemberLevel openAccounts ['a'] ['c'] 4, .setNPMMemberLevel openAccounts [] ['a'] 4,
        .removeNPMMembers openAccounts ['b'] [['c']]] := by
  apply (one_owner_iff boundTeam _ (by decide +kernel)).1.mpr
  refine ⟨fun _ => by decide +kernel, fun hex => ?_, trivial, trivial⟩
  revert hex
  decide +kernel

theorem npmNext_staffed (ho : 0 < ownerCount t.members) (c : NPMCall) :
    0 < ownerCount (npmNext t c).members := by
  unfold npmNext
  cases hcall : npmCall t c with
  | error err => exact ho
  | ok t' =>
    cases c with
    | createNPMInvitations env rs =>
      show 0 < ownerCount t'.members
      rw [createNPMInvitations_members hcall]
      exact ho
    | respondNPMInvitation env id recipient accept actedAt =>
      exact respondInvitation_staffed ho hcall
    | forceAddNPMMembers env usernames level =>
      simp only [npmCall, forceAddNPMMembers] at hcall
      split_ifs at hcall
      exact forceAddMembers_staffed ho hcall
    | setNPMMemberLevel env actor username level => exact setMemberLevel_staffed ho hcall
    | removeNPMMembers env actor usernames => exact removeTeamMembers_staffed ho hcall
    | globalTeam roles =>
      cases hcall
      exact ho

end RenoP.Team
