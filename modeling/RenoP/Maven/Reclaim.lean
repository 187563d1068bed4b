import RenoP.Maven.Claims
import RenoP.Maven.DomainTeam
import RenoP.Maven.Reservation

/-!
# Released domains that are claimed again

What a new claim takes from those who held the domain before, and what stays taken over any calls
that follow.
-/

namespace RenoP.Maven

open RenoP.Database (Text)
open Fallible (refuse bind_ok refuse_bind_ok foldlM_invariant)

variable {env : Outside} {t t' : Tables} {domain : Text}

def Call.Adds (t : Tables) (domain user : Text) : Call → Prop
  | .domain (.createMavenDomain d owner) => d.domain = domain ∧ owner = user
  | .forceAddMavenMembers name usernames _ => name = domain ∧ user ∈ usernames
  | .respondMavenInvitation id recipient accept => recipient = user ∧ accept = true ∧
      ∃ i, t.invitations.load id = some i ∧ i.domain = domain
  | _ => False

structure TeamStep (t t' : Tables) (adds : Text → Text → Prop) : Prop where
  domains : t'.domains = t.domains
  artifacts : t'.artifacts = t.artifacts
  members : ∀ domain user, t'.members.has (domain, user) = true →
    t.members.has (domain, user) = true ∨ adds domain user

structure TeamFrame (t t' : Tables) : Prop where
  artifacts : t'.artifacts = t.artifacts
  members : ∀ k, t'.members.has k = true → t.members.has k = true

theorem createInvitation_step {first : MavenInvitation} {level : ℤ}
    {request : Text × MavenInvitation}
    (h : createInvitation env first level t request = .ok t') :
    TeamStep t t' fun _ _ => False := by
  obtain ⟨-, h⟩ := refuse_bind_ok h
  obtain ⟨-, h⟩ := refuse_bind_ok h
  obtain ⟨-, h⟩ := refuse_bind_ok h
  obtain ⟨-, h⟩ := refuse_bind_ok h
  obtain ⟨-, h⟩ := refuse_bind_ok h
  cases h
  exact ⟨rfl, rfl, fun _ _ hmember => Or.inl hmember⟩

theorem createMavenInvitations_step {requests : List (Text × MavenInvitation)}
    (h : createMavenInvitations env t requests = .ok t') : TeamStep t t' fun _ _ => False := by
  unfold createMavenInvitations at h
  split at h
  · cases h
  · rename_i first rest
    obtain ⟨-, h⟩ := refuse_bind_ok h
    obtain ⟨-, h⟩ := refuse_bind_ok h
    obtain ⟨-, h⟩ := refuse_bind_ok h
    obtain ⟨-, h⟩ := refuse_bind_ok h
    obtain ⟨-, h⟩ := refuse_bind_ok h
    obtain ⟨r, -, h⟩ := bind_ok h
    obtain ⟨granted, -, h⟩ := bind_ok h
    obtain ⟨-, h⟩ := refuse_bind_ok h
    refine @foldlM_invariant _ _ _ _ (fun t₁ => TeamStep t t₁ fun _ _ => False) _ ?_ _ _ ?_ h
    · intro t₁ request t₂ _ hinv hstep
      have hnext := createInvitation_step hstep
      refine ⟨hnext.domains.trans hinv.domains, hnext.artifacts.trans hinv.artifacts, ?_⟩
      intro domain user hmember
      exact hinv.members domain user ((hnext.members domain user hmember).resolve_right id)
    · exact ⟨rfl, rfl, fun _ _ hmember => Or.inl hmember⟩

theorem uniqueUsernames_mem {names : List Text} :
    ∀ {unique users : List Text}, uniqueUsernames env unique names = .ok users →
      ∀ u ∈ users, u ∈ unique ∨ u ∈ names := by
  induction names with
  | nil =>
    intro unique users h u hu
    cases h
    exact Or.inl hu
  | cons name names ih =>
    intro unique users h u hu
    unfold uniqueUsernames at h
    split_ifs at h
    · rcases ih h u hu with hunique | hname
      · exact Or.inl hunique
      · exact Or.inr (List.mem_cons_of_mem _ hname)
    · rcases ih h u hu with hunique | hname
      · rcases List.mem_append.mp hunique with hold | hnew
        · exact Or.inl hold
        · exact Or.inr (List.mem_cons.mpr (Or.inl (List.mem_singleton.mp hnew)))
      · exact Or.inr (List.mem_cons_of_mem _ hname)

theorem foldl_addMember_step {name : Text} {level : ℤ} (users : List Text) :
    ∀ t : Tables, TeamStep t (users.foldl (addMember name level) t)
      fun domain user => name = domain ∧ user ∈ users := by
  induction users with
  | nil =>
    intro t
    exact ⟨rfl, rfl, fun _ _ hmember => Or.inl hmember⟩
  | cons u users ih =>
    intro t
    obtain ⟨hdomains, hartifacts, hmembers⟩ := ih (addMember name level t u)
    refine ⟨hdomains, hartifacts, ?_⟩
    intro domain user hmember
    rcases hmembers domain user hmember with hbefore | ⟨hname, hmem⟩
    · rw [GoMap.has, show (addMember name level t u).members = t.members.store (name, u) level from rfl,
        GoMap.load_store] at hbefore
      split_ifs at hbefore with heq
      · obtain ⟨hname, huser⟩ := Prod.mk.inj heq
        exact Or.inr ⟨hname.symm, List.mem_cons.mpr (Or.inl huser)⟩
      · exact Or.inl hbefore
    · exact Or.inr ⟨hname, List.mem_cons_of_mem _ hmem⟩

theorem forceAddMavenMembers_step {name : Text} {usernames : List Text} {level : ℤ}
    (h : forceAddMavenMembers env t name usernames level = .ok t') :
    TeamStep t t' fun domain user => name = domain ∧ user ∈ usernames := by
  obtain ⟨-, h⟩ := refuse_bind_ok h
  obtain ⟨users, hunique, h⟩ := bind_ok h
  obtain ⟨-, h⟩ := refuse_bind_ok h
  obtain ⟨r, -, h⟩ := bind_ok h
  obtain ⟨u, -, h⟩ := bind_ok h
  cases h
  obtain ⟨hdomains, hartifacts, hmembers⟩ := @foldl_addMember_step name level users { t with
    members := if level = permissionOwner then demoteAllOwners t.members name else t.members }
  refine ⟨hdomains, hartifacts, ?_⟩
  intro domain user hmember
  rcases hmembers domain user hmember with hbefore | ⟨hname, hmem⟩
  · left
    dsimp only at hbefore
    split_ifs at hbefore
    · rw [demoteAllOwners, GoMap.has_updateWhere] at hbefore
      exact hbefore
    · exact hbefore
  · rcases uniqueUsernames_mem hunique user hmem with hnone | hlisted
    · cases hnone
    · exact Or.inr ⟨hname, hlisted⟩

theorem respondMavenInvitation_step {id recipient : Text} {accept : Bool}
    (h : respondMavenInvitation env t id recipient accept = .ok t') :
    TeamStep t t' fun domain user => recipient = user ∧ accept = true ∧
      ∃ i, t.invitations.load id = some i ∧ i.domain = domain := by
  unfold respondMavenInvitation at h
  split at h
  · cases h
  · rename_i i hload
    rw [Option.filter_eq_some_iff] at hload
    obtain ⟨hload, hrecipient⟩ := hload
    have hrecipient : i.recipient = recipient := of_decide_eq_true hrecipient
    obtain ⟨r, -, h⟩ := bind_ok h
    obtain ⟨t₁, haccept, h⟩ := bind_ok h
    obtain ⟨-, h⟩ := refuse_bind_ok h
    cases h
    unfold answered at haccept
    split_ifs at haccept with haccepts
    · obtain ⟨-, haccept⟩ := refuse_bind_ok haccept
      obtain ⟨-, haccept⟩ := refuse_bind_ok haccept
      split at haccept
      · cases haccept
      · obtain ⟨-, haccept⟩ := refuse_bind_ok haccept
        obtain ⟨-, haccept⟩ := refuse_bind_ok haccept
        cases haccept
        refine ⟨rfl, rfl, ?_⟩
        intro domain user hmember
        dsimp only at hmember
        unfold GoMap.has at hmember ⊢
        rw [GoMap.load_store] at hmember
        by_cases heq : (domain, user) = (i.domain, i.recipient)
        · obtain ⟨hname, huser⟩ := Prod.mk.inj heq
          exact Or.inr ⟨(huser.trans hrecipient).symm, haccepts, i, hload, hname.symm⟩
        · rw [if_neg heq] at hmember
          left
          split_ifs at hmember
          · rw [demoteOwners, GoMap.load_updateWhere, Option.isSome_map] at hmember
            exact hmember
          · exact hmember
    · cases haccept
      exact ⟨rfl, rfl, fun _ _ hmember => Or.inl hmember⟩


theorem has_setLevel (members : GoMap (Text × Text) ℤ) (name user : Text) (level : ℤ)
    (k : Text × Text) : (setLevel members name user level).has k = members.has k := by
  rw [setLevel, GoMap.has_updateWhere]

theorem changeLevel_has {actor username : Text} {actorLevel level current : ℤ}
    {members : GoMap (Text × Text) ℤ}
    (h : changeLevel t domain actor username actorLevel level current = .ok members)
    (k : Text × Text) : members.has k = t.members.has k := by
  unfold changeLevel at h
  split_ifs at h
  · cases h
    rw [has_setLevel, demoteOwners, GoMap.has_updateWhere]
  · cases h
    rw [has_setLevel, has_setLevel]
  · cases h
    rw [has_setLevel]

theorem setMavenMemberLevel_step {name actor username : Text} {level : ℤ}
    (h : setMavenMemberLevel env t name actor username level = .ok t') :
    TeamStep t t' fun _ _ => False := by
  obtain ⟨-, h⟩ := refuse_bind_ok h
  obtain ⟨-, h⟩ := refuse_bind_ok h
  obtain ⟨-, h⟩ := refuse_bind_ok h
  obtain ⟨-, h⟩ := refuse_bind_ok h
  obtain ⟨r, -, h⟩ := bind_ok h
  obtain ⟨granted, -, h⟩ := bind_ok h
  split at h
  · cases h
  · obtain ⟨u, -, h⟩ := bind_ok h
    obtain ⟨members, hchange, h⟩ := bind_ok h
    cases h
    refine ⟨rfl, rfl, ?_⟩
    intro domain user hmember
    rw [changeLevel_has hchange] at hmember
    exact Or.inl hmember

theorem removeMavenMember_step {name actor username : Text}
    (h : removeMavenMember env t name actor username = .ok t') : TeamStep t t' fun _ _ => False := by
  obtain ⟨-, h⟩ := refuse_bind_ok h
  obtain ⟨-, h⟩ := refuse_bind_ok h
  obtain ⟨r, -, h⟩ := bind_ok h
  obtain ⟨u, -, h⟩ := bind_ok h
  split at h
  · cases h
  · obtain ⟨u, -, h⟩ := bind_ok h
    cases h
    refine ⟨rfl, rfl, ?_⟩
    intro domain user hmember
    dsimp only at hmember
    unfold GoMap.has at hmember ⊢
    rw [GoMap.load_delete] at hmember
    split_ifs at hmember
    · cases hmember
    · exact Or.inl hmember

theorem createMavenDomain_members {d : NewDomain} {owner user : Text}
    (h : createMavenDomain env t d owner = .ok t') (hmember : t'.members.has (domain, user) = true) :
    (t.members.has (domain, user) = true ∧ (t.replaces d = true → domain ≠ d.domain)) ∨
      (d.domain = domain ∧ owner = user) := by
  obtain ⟨-, -, rfl⟩ := createMavenDomain_ok h
  dsimp only at hmember
  unfold GoMap.has at hmember ⊢
  rw [GoMap.load_store] at hmember
  split_ifs at hmember with heq
  · obtain ⟨hname, huser⟩ := Prod.mk.inj heq
    exact Or.inr ⟨hname.symm, huser.symm⟩
  · left
    unfold claimBase at hmember
    split_ifs at hmember with hreplaces
    · rw [replaceReleased, GoMap.load_deleteWhere] at hmember
      obtain ⟨level, hlevel⟩ := Option.isSome_iff_exists.mp hmember
      obtain ⟨hload, hkept⟩ := Option.filter_eq_some_iff.mp hlevel
      refine ⟨Option.isSome_iff_exists.mpr ⟨level, hload⟩, ?_⟩
      intro _ hname
      rw [hname] at hkept
      simp at hkept
    · exact ⟨hmember, fun hreplaced => absurd hreplaced hreplaces⟩

theorem domainCall_others {call : DomainCall} (hcall : domainCall env t call = .ok t')
    (hother : ∀ d owner, call ≠ .createMavenDomain d owner) :
    TeamFrame t t' := by
  cases call with
  | createMavenDomain d owner => exact absurd rfl (hother d owner)
  | markMavenDomainVerified name code verifiedAt health =>
    obtain ⟨r, r', -, -, -, -, -, -, rfl⟩ := markMavenDomainVerified_ok hcall
    exact ⟨rfl, fun _ => id⟩
  | reviewMavenDomainClaim expected health actor approved reviewedAt =>
    obtain ⟨r, -, -, -, -, -, -, -, rfl⟩ := reviewMavenDomainClaim_ok hcall
    exact ⟨rfl, fun _ => id⟩
  | ensureMirroredMavenDomain name createdAt =>
    rcases ensureMirroredMavenDomain_ok hcall with rfl | ⟨-, rfl⟩
    · exact ⟨rfl, fun _ => id⟩
    · exact ⟨rfl, fun _ => id⟩
  | importLegacyMavenPath name importedAt =>
    rcases ensureImportedMavenDomain_ok hcall with rfl | ⟨-, rfl⟩ | ⟨r, -, -, rfl⟩
    · exact ⟨rfl, fun _ => id⟩
    · exact ⟨rfl, fun _ => id⟩
    · exact ⟨rfl, fun _ => id⟩
  | closeMavenDomain name actor administrator closedAt =>
    obtain ⟨r, -, -, -, -, rfl⟩ := closeMavenDomain_ok hcall
    exact ⟨rfl, fun _ => id⟩
  | forceDeleteMavenDomain name actor =>
    cases forceDeleteMavenDomain_ok hcall
    refine ⟨rfl, ?_⟩
    intro k hmember
    dsimp only at hmember
    unfold GoMap.has at hmember ⊢
    rw [GoMap.load_deleteWhere] at hmember
    obtain ⟨level, hlevel⟩ := Option.isSome_iff_exists.mp hmember
    exact Option.isSome_iff_exists.mpr ⟨level, (Option.filter_eq_some_iff.mp hlevel).1⟩
  | recordMavenDomainHealth expected health releaseAt code =>
    rcases (recordMavenDomainHealth_ok hcall).2 with rfl | ⟨r, -, -, rfl⟩
    · exact ⟨rfl, fun _ => id⟩
    · exact ⟨rfl, fun _ => id⟩
  | redeemMavenDomain expected health actor session =>
    obtain ⟨r, -, -, -, -, rfl⟩ := redeemMavenDomain_ok hcall
    exact ⟨rfl, fun _ => id⟩

theorem approveMavenRestore_ok {task : RestoreTask} (h : applyMavenRestoreTx env t task = .ok t') :
    t' = { t with artifacts := releaseHold t.artifacts task task.targetTeam } := by
  obtain ⟨⟨current, source, target⟩, -, h⟩ := bind_ok h
  obtain ⟨hsame, h⟩ := refuse_bind_ok h
  cases h
  have htarget : target = task.targetTeam := by
    by_contra hne
    exact hsame (Or.inr (Or.inr hne))
  rw [htarget]

theorem mavenCall_member {call : Call} {user : Text} (hcall : mavenCall env t call = .ok t')
    (hmember : t'.members.has (domain, user) = true) :
    t.members.has (domain, user) = true ∨ call.Adds t domain user := by
  cases call with
  | createMavenInvitations requests =>
    exact ((createMavenInvitations_step hcall).members domain user hmember).imp_right False.elim
  | forceAddMavenMembers name usernames level =>
    exact (forceAddMavenMembers_step hcall).members domain user hmember
  | respondMavenInvitation id recipient accept =>
    exact (respondMavenInvitation_step hcall).members domain user hmember
  | setMavenMemberLevel name actor username level =>
    exact ((setMavenMemberLevel_step hcall).members domain user hmember).imp_right False.elim
  | removeMavenMember name actor username =>
    exact ((removeMavenMember_step hcall).members domain user hmember).imp_right False.elim
  | approveMavenRestore task =>
    rw [approveMavenRestore_ok hcall] at hmember
    exact Or.inl hmember
  | domain call =>
    by_cases hclaim : ∃ d owner, call = .createMavenDomain d owner
    · obtain ⟨d, owner, rfl⟩ := hclaim
      exact (createMavenDomain_members hcall hmember).imp_left And.left
    · have hother := domainCall_others hcall fun d owner h => hclaim ⟨d, owner, h⟩
      exact Or.inl (hother.members (domain, user) hmember)

def Call.Restores (key : ArtifactKey) : Call → Prop
  | .approveMavenRestore task => task.artifact = key
  | _ => False

def Held (key : ArtifactKey) (t : Tables) : Prop :=
  ∃ a, t.artifacts.load key = some a ∧ a.reclaimHoldAt ≠ 0

theorem Held.call {call : Call} {key : ArtifactKey} (h : Held key t)
    (hcall : mavenCall env t call = .ok t') (hnot : ¬call.Restores key) : Held key t' := by
  obtain ⟨a, hload, hhold⟩ := h
  unfold Held
  cases call with
  | createMavenInvitations requests =>
    rw [(createMavenInvitations_step hcall).artifacts]
    exact ⟨a, hload, hhold⟩
  | forceAddMavenMembers name usernames level =>
    rw [(forceAddMavenMembers_step hcall).artifacts]
    exact ⟨a, hload, hhold⟩
  | respondMavenInvitation id recipient accept =>
    rw [(respondMavenInvitation_step hcall).artifacts]
    exact ⟨a, hload, hhold⟩
  | setMavenMemberLevel name actor username level =>
    rw [(setMavenMemberLevel_step hcall).artifacts]
    exact ⟨a, hload, hhold⟩
  | removeMavenMember name actor username =>
    rw [(removeMavenMember_step hcall).artifacts]
    exact ⟨a, hload, hhold⟩
  | approveMavenRestore task =>
    rw [approveMavenRestore_ok hcall]
    refine ⟨a, ?_, hhold⟩
    have hkey : decide (key = task.artifact) = false := decide_eq_false fun h => hnot h.symm
    dsimp only
    rw [releaseHold, GoMap.load_updateWhere, hload]
    simp [hkey]
  | domain call =>
    by_cases hclaim : ∃ d owner, call = .createMavenDomain d owner
    · obtain ⟨d, owner, rfl⟩ := hclaim
      obtain ⟨-, -, rfl⟩ := createMavenDomain_ok hcall
      refine ⟨a, ?_, hhold⟩
      dsimp only
      unfold claimBase
      split_ifs
      · rw [replaceReleased, GoMap.load_updateWhere, hload]
        simp [hhold]
      · exact hload
    · rw [(domainCall_others hcall fun d owner h => hclaim ⟨d, owner, h⟩).artifacts]
      exact ⟨a, hload, hhold⟩

theorem createMavenDomain_holds {d : NewDomain} {owner : Text} {key : ArtifactKey}
    {a : MavenArtifact} (hcall : createMavenDomain env t d owner = .ok t')
    (hreplaces : t.replaces d = true) (hload : t.artifacts.load key = some a)
    (hdomain : a.domain = d.domain) : Held key t' := by
  obtain ⟨-, -, rfl⟩ := createMavenDomain_ok hcall
  have hcreated : d.createdAt ≠ 0 := by
    obtain ⟨r, hrow, hreleased⟩ := (Option.any_eq_true _ _).mp hreplaces
    unfold MavenDomain.releasedReservation at hreleased
    rw [Bool.or_eq_true, decide_eq_true_eq, decide_eq_true_eq] at hreleased
    omega
  unfold Held
  dsimp only
  rw [claimBase, if_pos hreplaces, replaceReleased, GoMap.load_updateWhere, hload]
  by_cases hhold : a.reclaimHoldAt = 0
  · exact ⟨{ a with reclaimHoldAt := d.createdAt }, by simp [hdomain, hhold], hcreated⟩
  · exact ⟨a, by simp [hhold], hhold⟩

def Call.Approves (domain : Text) : Call → Prop
  | .domain call => RenoP.Maven.Approves domain call
  | _ => False

def Call.Allowed (domain : Text) : Call → Prop
  | .domain call => call.Allowed domain
  | _ => True

def Reachable (domain : Text) (t : Tables) : Prop :=
  ∃ (t₀ : Tables) (calls : List (Outside × Call)), t₀.domains.load domain = none ∧
    (∀ c ∈ calls, c.2.Allowed domain) ∧ t = calls.foldl next t₀

def Succeeds (t : Tables) (call : Outside × Call) : Prop :=
  ∃ t', mavenCall call.1 t call.2 = .ok t'

/-- What a new claim of a released domain takes from those who held it, over all calls that follow:
the others are members again once they are added, the domain is verified once the claim is
approved, and an artifact that named it is released by its restore review. -/
structure TakenOver (t t' : Tables) (d : NewDomain) (owner : Text) : Prop where
  members : ∀ (calls : List (Outside × Call)) (user : Text), user ≠ owner →
    Runs.Along next (fun s c => ¬(Succeeds s c ∧ c.2.Adds s d.domain user)) t' calls →
    (calls.foldl next t').members.has (d.domain, user) = false
  unverified : ∀ calls : List (Outside × Call), (∀ c ∈ calls, c.2.Allowed d.domain) →
    Runs.Along next (fun s c => ¬(Succeeds s c ∧ c.2.Approves d.domain)) t' calls →
    ∃ r, (calls.foldl next t').domains.load d.domain = some r ∧ r.verified = false
  holds : ∀ (calls : List (Outside × Call)) (key : ArtifactKey) (a : MavenArtifact),
    t.artifacts.load key = some a → a.domain = d.domain →
    Runs.Along next (fun s c => ¬(Succeeds s c ∧ c.2.Restores key)) t' calls →
    Held key (calls.foldl next t')

theorem mavenCall_domains {call : Call} (hcall : mavenCall env t call = .ok t')
    (hteam : ∀ dcall, call ≠ .domain dcall) : t'.domains = t.domains := by
  cases call with
  | domain call => exact absurd rfl (hteam call)
  | createMavenInvitations requests => exact (createMavenInvitations_step hcall).domains
  | forceAddMavenMembers name usernames level => exact (forceAddMavenMembers_step hcall).domains
  | respondMavenInvitation id recipient accept => exact (respondMavenInvitation_step hcall).domains
  | setMavenMemberLevel name actor username level => exact (setMavenMemberLevel_step hcall).domains
  | removeMavenMember name actor username => exact (removeMavenMember_step hcall).domains
  | approveMavenRestore task => rw [approveMavenRestore_ok hcall]

theorem mavenCall_row {call : Call} {p : MavenDomain → Prop} (hallowed : call.Allowed domain)
    (hcall : mavenCall env t call = .ok t') {r : MavenDomain}
    (hload : t.domains.load domain = some r)
    (hkeep : ∀ dcall r', call = .domain dcall → dcall.Allowed domain →
      RowChange env t domain r dcall r' → p r')
    (hsame : (∀ dcall, call ≠ .domain dcall) → p r) :
    ∃ r', t'.domains.load domain = some r' ∧ p r' := by
  by_cases hdomain : ∃ dcall, call = .domain dcall
  · obtain ⟨dcall, rfl⟩ := hdomain
    obtain ⟨r', hload', hchange⟩ := domainCall_row hallowed hcall hload
    exact ⟨r', hload', hkeep dcall r' rfl hallowed hchange⟩
  · have hteam : ∀ dcall, call ≠ .domain dcall := fun dcall h => hdomain ⟨dcall, h⟩
    rw [mavenCall_domains hcall hteam]
    exact ⟨r, hload, hsame hteam⟩

/-- The row of the domain, where it has one, is reserved as `Reserved` says. -/
def DomainReserved (domain : Text) (t : Tables) : Prop :=
  ∀ r, t.domains.load domain = some r → Reserved r

theorem DomainReserved.call {call : Call} (h : DomainReserved domain t)
    (hallowed : call.Allowed domain) (hcall : mavenCall env t call = .ok t') :
    DomainReserved domain t' := by
  intro r' hload'
  cases hload : t.domains.load domain with
  | some r =>
    have hkeep : ∀ dcall r', call = .domain dcall → dcall.Allowed domain →
        RowChange env t domain r dcall r' → Reserved r' :=
      fun dcall r' _ hdcall hchange => (h r hload).change hdcall hchange
    obtain ⟨r₁, hload₁, hreserved⟩ := mavenCall_row hallowed hcall hload hkeep fun _ => h r hload
    rw [hload'] at hload₁
    cases hload₁
    exact hreserved
  | none =>
    by_cases hdomain : ∃ dcall, call = .domain dcall
    · obtain ⟨dcall, rfl⟩ := hdomain
      rcases domainCall_newRow hallowed hcall hload hload' with ⟨d, owner, rfl, hname, rfl⟩ | hrow
      · exact reserved_row d false (hallowed hname)
      · obtain ⟨importedAt, rfl⟩ := hrow
        exact ⟨nofun, Int.le_refl 0, Or.inl rfl⟩
    · rw [mavenCall_domains hcall fun dcall heq => hdomain ⟨dcall, heq⟩, hload] at hload'
      cases hload'

theorem next_keeps {inv : Tables → Prop} {call : Outside × Call} (h : inv t)
    (step : ∀ t', mavenCall call.1 t call.2 = .ok t' → inv t') : inv (next t call) := by
  unfold next
  split
  · exact h
  · rename_i t' hcall
    exact step t' hcall

theorem Reachable.reserved (h : Reachable domain t) : DomainReserved domain t := by
  obtain ⟨t₀, calls, hnone, hallowed, rfl⟩ := h
  have hstart : DomainReserved domain t₀ := by
    intro r hload
    rw [hnone] at hload
    cases hload
  apply List.foldlRecOn calls next hstart
  intro t ht call hmem
  exact next_keeps ht fun t' hcall => ht.call (hallowed call hmem) hcall

def DomainWaiting (domain : Text) (t : Tables) : Prop :=
  ∃ r, t.domains.load domain = some r ∧ Reserved r ∧ Waiting r

theorem DomainWaiting.call {call : Call} (h : DomainWaiting domain t)
    (hallowed : call.Allowed domain) (hcall : mavenCall env t call = .ok t')
    (hnot : ¬call.Approves domain) : DomainWaiting domain t' := by
  obtain ⟨r, hload, hreserved, hwaiting⟩ := h
  apply mavenCall_row hallowed hcall hload
  · rintro dcall r' rfl hdcall hchange
    exact ⟨hreserved.change hdcall hchange, hwaiting.change hreserved hnot hchange⟩
  · intro _
    exact ⟨hreserved, hwaiting⟩

theorem takenOver {d : NewDomain} {owner : Text} (hallowed : d.verificationType ≠ .mirror)
    (hcall : createMavenDomain env t d owner = .ok t') (hreplaces : t.replaces d = true) :
    TakenOver t t' d owner where
  members := by
    intro calls user hne halong
    have hstart : t'.members.has (d.domain, user) = false := by
      apply Bool.eq_false_iff.mpr
      intro hmember
      rcases createMavenDomain_members hcall hmember with ⟨-, hother⟩ | ⟨-, howner⟩
      · exact hother hreplaces rfl
      · exact hne howner.symm
    refine @Runs.Along.invariant _ _ next _ (fun s => s.members.has (d.domain, user) = false) ?_ _ _
      hstart halong
    intro s call hs hnot
    refine @next_keeps s (fun s => s.members.has (d.domain, user) = false) call hs ?_
    intro s' hstep
    apply Bool.eq_false_iff.mpr
    intro hmember
    rcases mavenCall_member hstep hmember with hbefore | hadds
    · rw [hs] at hbefore
      cases hbefore
    · exact hnot ⟨⟨s', hstep⟩, hadds⟩
  unverified := by
    intro calls hcalls halong
    have hstart : DomainWaiting d.domain t' := by
      obtain ⟨-, -, rfl⟩ := createMavenDomain_ok hcall
      refine ⟨d.row true, ?_, reserved_row d true hallowed, waiting_row d⟩
      rw [hreplaces]
      exact GoMap.load_store_self ..
    have hend : DomainWaiting d.domain (calls.foldl next t') := by
      refine @Runs.Along.invariant_of_forall _ _ next _ (fun c => c.2.Allowed d.domain)
        (DomainWaiting d.domain) ?_ _ _ hstart hcalls halong
      intro s call hs hcallAllowed hnot
      apply next_keeps hs
      intro s' hstep
      exact hs.call hcallAllowed hstep fun happroves => hnot ⟨⟨s', hstep⟩, happroves⟩
    obtain ⟨r, hload, -, hwaiting⟩ := hend
    exact ⟨r, hload, hwaiting.unverified⟩
  holds := by
    intro calls key a hload hdomain halong
    refine @Runs.Along.invariant _ _ next _ (Held key) ?_ _ _
      (createMavenDomain_holds hcall hreplaces hload hdomain) halong
    intro s call hs hnot
    apply next_keeps hs
    intro s' hstep
    exact hs.call hstep fun hrestores => hnot ⟨⟨s', hstep⟩, hrestores⟩

def Call.Redeems (env : Outside) (t : Tables) (domain : Text) (r : MavenDomain) : Call → Prop
  | .domain call => RenoP.Maven.Redeems env t domain r call
  | _ => False

def closedDomain : Tables :=
  next (next ⟨∅, ∅, ∅, ∅⟩ (openOutside, .domain (.createMavenDomain unprovedClaim ['u'])))
    (openOutside, .domain (.closeMavenDomain ['c', '.', 'v'] ['u'] false 2))

/-- The claim of the user `w` on the day on which the domain is released. -/
def laterClaim : NewDomain :=
  { unprovedClaim with createdAt := 2 + releaseLockMillis, verificationCode := ['y'] }

end RenoP.Maven
