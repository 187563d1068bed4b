import RenoP.Team.TeamMembers

/-!
# One owner

What each change of a team does to its owner rows.
-/

namespace RenoP.Team

open RenoP.Database (Text)

variable {format : TeamFormat} {env : Accounts} {t t' : TeamTables} {owner : Text}

def Owned (members : GoMap Text ℤ) (owner : Text) : Prop :=
  ∀ user, members.load user = some permissionOwner ↔ user = owner

/-- `COUNT(*)` of the rows of level L4 -/
def ownerCount (members : GoMap Text ℤ) : ℕ :=
  members.count fun _ level => decide (level = permissionOwner)

theorem ownerCount_eq_one_iff (members : GoMap Text ℤ) :
    ownerCount members = 1 ↔ ∃ owner, Owned members owner := by
  have hiff : ∀ user, (∃ v, members.load user = some v ∧ decide (v = permissionOwner) = true) ↔
      members.load user = some permissionOwner := by
    intro user
    constructor
    · intro ⟨v, hv, hlevel⟩
      rw [hv, of_decide_eq_true hlevel]
    · intro h
      exact ⟨permissionOwner, h, rfl⟩
  unfold ownerCount
  rw [GoMap.count_eq_one_iff]
  simp only [hiff]
  rfl

theorem load_demoteOwners (members : GoMap Text ℤ) (target user : Text) :
    (demoteOwners members target).load user = (members.load user).map fun level =>
      if level = permissionOwner ∧ user ≠ target then permissionTeam else level := by
  unfold demoteOwners
  rw [GoMap.load_updateWhere]
  simp only [Bool.and_eq_true, decide_eq_true_eq]

theorem load_demoteAllOwners (members : GoMap Text ℤ) (user : Text) :
    (demoteAllOwners members).load user = (members.load user).map fun level =>
      if level = permissionOwner then permissionTeam else level := by
  unfold demoteAllOwners
  rw [GoMap.load_updateWhere]
  simp only [decide_eq_true_eq]

theorem load_setLevel (members : GoMap Text ℤ) (user user' : Text) (level : ℤ) :
    (setLevel members user level).load user' =
      if user' = user then (members.load user').map fun _ => level else members.load user' := by
  unfold setLevel
  rw [GoMap.load_updateWhere]
  simp only [decide_eq_true_eq]
  split_ifs with h
  · rfl
  · exact Option.map_id'

theorem demoteOwners_ne_owner (members : GoMap Text ℤ) {target user : Text} (h : user ≠ target) :
    (demoteOwners members target).load user ≠ some permissionOwner := by
  rw [load_demoteOwners]
  intro hload
  obtain ⟨level, -, hlevel⟩ := Option.map_eq_some_iff.mp hload
  by_cases howner : level = permissionOwner
  · rw [if_pos ⟨howner, h⟩] at hlevel
    exact absurd hlevel (by decide)
  · rw [if_neg fun hand => howner hand.1] at hlevel
    exact howner hlevel

theorem demoteAllOwners_ne_owner (members : GoMap Text ℤ) (user : Text) :
    (demoteAllOwners members).load user ≠ some permissionOwner := by
  rw [load_demoteAllOwners]
  intro hload
  obtain ⟨level, -, hlevel⟩ := Option.map_eq_some_iff.mp hload
  by_cases howner : level = permissionOwner
  · rw [if_pos howner] at hlevel
    exact absurd hlevel (by decide)
  · rw [if_neg howner] at hlevel
    exact howner hlevel

theorem Owned.ne_of_level (h : Owned t.members owner) {user : Text} {level : ℤ}
    (hload : t.members.load user = some level) (hlevel : level ≠ permissionOwner) :
    user ≠ owner := by
  intro heq
  have := (h user).mpr heq
  rw [hload] at this
  exact hlevel (Option.some.inj this)

theorem Owned.ne_of_absent (h : Owned t.members owner) {user : Text}
    (hload : t.members.has user = false) : user ≠ owner := by
  intro heq
  have := (h user).mpr heq
  rw [(GoMap.has_eq_false _ _).mp hload] at this
  cases this

theorem Owned.otherOwners (h : Owned t.members owner) : otherOwners t.members owner = 0 := by
  unfold RenoP.Team.otherOwners
  rw [GoMap.count_eq_zero_iff]
  intro user level hload
  by_cases hlevel : level = permissionOwner
  · rw [hlevel] at hload
    simp only [(h user).mp hload, ne_eq, not_true_eq_false, decide_false, Bool.and_false]
  · simp only [hlevel, decide_false, Bool.false_and]

def TeamTables.exchanges (t : TeamTables) (env : Accounts) (actor username : Text) (level : ℤ) :
    Bool :=
  t.transfers username level && t.members.has username && decide (actor ≠ []) &&
    decide (actor ≠ username) && decide ((t.effectivePermission actor).1 = permissionOwner) &&
    (t.effectivePermission actor).2 && userIDForUsername env username &&
    userIDForUsername env actor && !env.deleted username && !env.locked

theorem setMemberLevel_cases {actor username : Text} {level : ℤ}
    (h : setMemberLevel env t actor username level = .ok t') :
    ∃ current, t.members.load username = some current ∧ level ≤ permissionOwner ∧
      (actor ≠ [] → t.permits actor permissionTeam = true) ∧
      ((t.transfers username level = false ∧
          ¬(current = permissionOwner ∧ level < permissionOwner ∧
            otherOwners t.members username = 0) ∧
          t' = { t with members := setLevel t.members username level }) ∨
        (t.transfers username level = true ∧ actor = [] ∧
          t' = { t with
            members := setLevel (demoteOwners t.members username) username level }) ∨
        (t.exchanges env actor username level = true ∧
          t' = { t with
            members := setLevel (setLevel t.members actor current) username level })) := by
  unfold setMemberLevel at h
  split_ifs at h with hlevel htarget hactor hdeleted hlocked hpermits
  cases hload : t.members.load username with
  | none =>
    rw [hload] at h
    cases h
  | some current =>
    simp only [hload] at h
    have hle : level ≤ permissionOwner := by
      simp only [validLevel, Bool.not_eq_true', Bool.and_eq_false_iff, decide_eq_false_iff_not,
        not_or, not_not] at hlevel
      exact hlevel.2
    have hperm : actor ≠ [] → t.permits actor permissionTeam = true := by
      intro hne
      by_contra hfalse
      exact hpermits ⟨hne, Bool.eq_false_iff.mpr hfalse⟩
    refine ⟨current, rfl, hle, hperm, ?_⟩
    unfold changeLevel at h
    split_ifs at h with hlast htransfer hadmin hself
    · exact Or.inr (Or.inl ⟨htransfer, hadmin, (Except.ok.inj h).symm⟩)
    · push Not at hself hactor
      refine Or.inr (Or.inr ⟨?_, (Except.ok.inj h).symm⟩)
      have hmember : (t.effectivePermission actor).2 = true := by
        have := hperm hadmin
        simp only [TeamTables.permits, Bool.and_eq_true] at this
        exact this.1
      simp only [TeamTables.exchanges, htransfer, (GoMap.has_eq_true _ _).mpr ⟨_, hload⟩, hadmin,
        hself.1, hself.2, hmember, ne_eq, not_false_eq_true, decide_true, Bool.and_true,
        Bool.and_eq_true, Bool.not_eq_true']
      refine ⟨⟨⟨?_, ?_⟩, ?_⟩, ?_⟩
      · simpa using htarget
      · simpa using hactor hadmin
      · simpa using hdeleted
      · simpa using hlocked
    · exact Or.inl ⟨Bool.eq_false_iff.mpr htransfer, hlast, (Except.ok.inj h).symm⟩

theorem setMemberLevel_exchanges {actor username : Text} {level : ℤ}
    (h : t.exchanges env actor username level = true) :
    ∃ current, t.members.load username = some current ∧
      setMemberLevel env t actor username level =
        .ok { t with members := setLevel (setLevel t.members actor current) username level } := by
  simp only [TeamTables.exchanges, Bool.and_eq_true, decide_eq_true_eq, Bool.not_eq_true'] at h
  obtain ⟨⟨⟨⟨⟨⟨⟨⟨⟨htransfer, hhas⟩, hne⟩, hself⟩, hlevel4⟩, hmember⟩, htarget⟩, hactor⟩, hdeleted⟩,
    hlocked⟩ := h
  obtain ⟨current, hload⟩ := (GoMap.has_eq_true _ _).mp hhas
  refine ⟨current, hload, ?_⟩
  have hvalid : validLevel level = true := by
    simp only [TeamTables.transfers, Bool.and_eq_true, decide_eq_true_eq] at htransfer
    rw [htransfer.1]
    rfl
  have hlast : ¬(current = permissionOwner ∧ level < permissionOwner ∧
      otherOwners t.members username = 0) := by
    intro hand
    simp only [TeamTables.transfers, Bool.and_eq_true, decide_eq_true_eq] at htransfer
    rw [hand.1] at hload
    exact htransfer.2 hload
  have hpermits : t.permits actor permissionTeam = true := by
    simp only [TeamTables.permits, hmember, hlevel4, Bool.true_and, decide_eq_true_eq]
    decide
  unfold setMemberLevel changeLevel
  simp only [hvalid, htarget, hactor, hdeleted, hlocked, hpermits, hload, hlast, htransfer, hne,
    hself, hlevel4, Bool.not_true, Bool.false_eq_true, Bool.true_eq_false, and_false, if_false,
    if_true, ne_eq, not_true_eq_false, or_self]

def TeamTables.ownerAfter (t : TeamTables) (owner username : Text) (level : ℤ) : Text :=
  if t.transfers username level then username else owner

theorem setMemberLevel_owned {actor username : Text} {level : ℤ} (ho : Owned t.members owner)
    (hown : t.exchanges env actor username level = true →
      t.members.load actor = some permissionOwner)
    (h : setMemberLevel env t actor username level = .ok t') :
    Owned t'.members (t.ownerAfter owner username level) := by
  obtain ⟨current, hload, hle, -, hcases⟩ := setMemberLevel_cases h
  unfold TeamTables.ownerAfter
  rcases hcases with ⟨hno, hlast, rfl⟩ | ⟨htransfer, -, rfl⟩ | ⟨hex, rfl⟩
  · rw [hno, if_neg Bool.false_ne_true]
    intro user
    show (setLevel t.members username level).load user = _ ↔ _
    rw [load_setLevel]
    split_ifs with huser
    · subst huser
      rw [hload, Option.map_some]
      by_cases hcurrent : current = permissionOwner
      · have hself : user = owner := (ho user).mp (by rw [hload, hcurrent])
        have hlevel : level = permissionOwner := by
          by_contra hne
          apply hlast
          rw [hself]
          exact ⟨hcurrent, lt_of_le_of_ne hle hne, ho.otherOwners⟩
        rw [hlevel, hself]
        exact iff_of_true rfl rfl
      · have hne : user ≠ owner := ho.ne_of_level hload hcurrent
        refine iff_of_false ?_ hne
        intro hsome
        simp only [TeamTables.transfers, Bool.and_eq_false_iff, decide_eq_false_iff_not,
          not_not] at hno
        rcases hno with hno | hno
        · exact hno (Option.some.inj hsome)
        · rw [hload] at hno
          exact hcurrent (Option.some.inj hno)
    · exact ho user
  · rw [htransfer, if_pos rfl]
    simp only [TeamTables.transfers, Bool.and_eq_true, decide_eq_true_eq] at htransfer
    intro user
    show (setLevel (demoteOwners t.members username) username level).load user = _ ↔ _
    rw [load_setLevel]
    split_ifs with huser
    · rw [load_demoteOwners, huser, hload, htransfer.1]
      exact iff_of_true rfl rfl
    · exact iff_of_false (demoteOwners_ne_owner _ huser) huser
  · have hactor := hown hex
    simp only [TeamTables.exchanges, Bool.and_eq_true, decide_eq_true_eq] at hex
    have htransfer := hex.1.1.1.1.1.1.1.1.1
    rw [htransfer, if_pos rfl]
    simp only [TeamTables.transfers, Bool.and_eq_true, decide_eq_true_eq] at htransfer
    have hcurrent : current ≠ permissionOwner := by
      intro heq
      rw [heq] at hload
      exact htransfer.2 hload
    intro user
    show (setLevel (setLevel t.members actor current) username level).load user = _ ↔ _
    rw [load_setLevel]
    split_ifs with huser
    · rw [load_setLevel, huser, hload, htransfer.1, if_neg hex.1.1.1.1.1.1.2.symm]
      exact iff_of_true rfl rfl
    · refine iff_of_false ?_ huser
      rw [load_setLevel]
      split_ifs with hactor'
      · rw [hactor', hactor, Option.map_some]
        intro heq
        exact hcurrent (Option.some.inj heq)
      · intro heq
        exact hactor' (((ho user).mp heq).trans ((ho actor).mp hactor).symm)

theorem setMemberLevel_has {actor username : Text} {level : ℤ}
    (h : setMemberLevel env t actor username level = .ok t') :
    (∀ user, t'.members.has user = t.members.has user) ∧ t'.invitations = t.invitations := by
  obtain ⟨current, -, -, -, hcases⟩ := setMemberLevel_cases h
  rcases hcases with ⟨-, -, rfl⟩ | ⟨-, -, rfl⟩ | ⟨-, rfl⟩
  · exact ⟨fun user => GoMap.has_updateWhere _ _ _ user, rfl⟩
  · refine ⟨fun user => ?_, rfl⟩
    exact (GoMap.has_updateWhere _ _ _ user).trans (GoMap.has_updateWhere _ _ _ user)
  · refine ⟨fun user => ?_, rfl⟩
    exact (GoMap.has_updateWhere _ _ _ user).trans (GoMap.has_updateWhere _ _ _ user)

theorem acceptInvitation_cases {i : Invitation} (h : acceptInvitation env t i = .ok t') :
    t.permits i.inviter permissionTeam = true ∧
      (i.level = permissionOwner → permissionOwner ≤ (t.effectivePermission i.inviter).1) ∧
      t.members.has i.recipient = false ∧
      t' = { t with members := (if i.level = permissionOwner then
        demoteOwners t.members i.recipient else t.members).store i.recipient i.level } := by
  unfold acceptInvitation at h
  split_ifs at h with haccount hpermits hlevel hmember howner
  · refine ⟨by simpa using hpermits, ?_, Bool.eq_false_iff.mpr hmember, ?_⟩
    · intro hl
      by_contra hlt
      exact hlevel ⟨hl, lt_of_not_ge hlt⟩
    · rw [if_pos howner]
      exact (Except.ok.inj h).symm
  · refine ⟨by simpa using hpermits, ?_, Bool.eq_false_iff.mpr hmember, ?_⟩
    · intro hl
      exact absurd hl howner
    · rw [if_neg howner]
      exact (Except.ok.inj h).symm

theorem completeInvitation_cases {id recipient : Text} {accept : Bool} {actedAt : ℤ}
    (h : completeInvitation format t id recipient accept actedAt = .ok t') :
    t'.members = t.members ∧ t'.roles = t.roles ∧ t'.invitations = t.invitations.delete id := by
  unfold completeInvitation at h
  cases hm : answerMessage format.actionKind t.messages id recipient accept actedAt with
  | none =>
    rw [hm] at h
    cases h
  | some messages =>
    rw [hm] at h
    cases h
    exact ⟨rfl, rfl, rfl⟩

theorem respondInvitation_cases {id recipient : Text} {accept : Bool} {actedAt : ℤ}
    (h : respondInvitation format env t id recipient accept actedAt = .ok t') :
    ∃ i, t.invitations.load id = some i ∧ i.recipient = recipient ∧
      t'.invitations = t.invitations.delete id ∧ t'.roles = t.roles ∧
      ((accept = false ∧ t'.members = t.members) ∨
        (accept = true ∧ t.permits i.inviter permissionTeam = true ∧
          (i.level = permissionOwner →
            permissionOwner ≤ (t.effectivePermission i.inviter).1) ∧
          t.members.has recipient = false ∧
          t'.members = (if i.level = permissionOwner then demoteOwners t.members recipient
            else t.members).store recipient i.level)) := by
  unfold respondInvitation at h
  cases hi : t.invitationFor id recipient with
  | none =>
    rw [hi] at h
    cases h
  | some i =>
    simp only [hi] at h
    obtain ⟨hload, hrecipient⟩ := Option.filter_eq_some_iff.mp hi
    replace hrecipient := of_decide_eq_true hrecipient
    refine ⟨i, hload, hrecipient, ?_⟩
    split_ifs at h with hlocked haccept
    · cases hacc : acceptInvitation env t i with
      | error err =>
        rw [hacc] at h
        cases h
      | ok t₁ =>
        simp only [hacc] at h
        obtain ⟨hpermits, hlevel, hmember, rfl⟩ := acceptInvitation_cases hacc
        obtain ⟨hmembers, hroles, hinvitations⟩ := completeInvitation_cases h
        rw [hrecipient] at hmember hmembers
        exact ⟨hinvitations, hroles, Or.inr ⟨haccept, hpermits, hlevel, hmember, hmembers⟩⟩
    · obtain ⟨hmembers, hroles, hinvitations⟩ := completeInvitation_cases h
      exact ⟨hinvitations, hroles, Or.inl ⟨Bool.eq_false_iff.mpr haccept, hmembers⟩⟩

theorem owned_store {members : GoMap Text ℤ} (ho : Owned members owner) {user : Text} {level : ℤ}
    (hnew : members.has user = false) (hlevel : level ≠ permissionOwner) :
    Owned (members.store user level) owner := by
  intro user'
  rw [GoMap.load_store]
  split_ifs with huser
  · refine iff_of_false (fun heq => hlevel (Option.some.inj heq)) ?_
    intro heq
    have := (ho user').mpr heq
    rw [huser, (GoMap.has_eq_false _ _).mp hnew] at this
    cases this
  · exact ho user'

theorem owned_store_owner {members : GoMap Text ℤ} {user : Text}
    (hnone : ∀ user', user' ≠ user → members.load user' ≠ some permissionOwner) :
    Owned (members.store user permissionOwner) user := by
  intro user'
  rw [GoMap.load_store]
  split_ifs with huser
  · exact iff_of_true rfl huser
  · exact iff_of_false (hnone user' huser) huser

def TeamTables.ownerAfterAnswer (t : TeamTables) (owner id recipient : Text) (accept : Bool) :
    Text :=
  if accept && (t.invitations.load id).any (fun i => decide (i.level = permissionOwner)) then
    recipient
  else owner

theorem respondInvitation_owned {id recipient : Text} {accept : Bool} {actedAt : ℤ}
    (ho : Owned t.members owner)
    (h : respondInvitation format env t id recipient accept actedAt = .ok t') :
    Owned t'.members (t.ownerAfterAnswer owner id recipient accept) := by
  obtain ⟨i, hload, -, -, -, hcases⟩ := respondInvitation_cases h
  unfold TeamTables.ownerAfterAnswer
  rw [hload]
  rcases hcases with ⟨haccept, hmembers⟩ | ⟨haccept, -, -, hnew, hmembers⟩
  · rw [haccept, hmembers, Bool.false_and, if_neg Bool.false_ne_true]
    exact ho
  · rw [haccept, hmembers, Bool.true_and, Option.any_some]
    by_cases hlevel : i.level = permissionOwner
    · simp only [hlevel, decide_true, if_true]
      exact owned_store_owner fun user huser => demoteOwners_ne_owner _ huser
    · simp only [hlevel, decide_false, Bool.false_eq_true, if_false]
      exact owned_store ho hnew hlevel

theorem uniqueUsernames_cases {lookup : Text → Bool} {missing : TeamError} {us : List Text} :
    ∀ {unique users : List Text}, uniqueUsernames lookup missing unique us = .ok users →
      ∀ u, u ∈ users ↔ u ∈ unique ∨ u ∈ us := by
  induction us with
  | nil =>
    intro unique users h u
    cases h
    simp only [List.not_mem_nil, or_false]
  | cons u' us ih =>
    intro unique users h u
    unfold uniqueUsernames at h
    split_ifs at h with hempty hseen hmissing
    · rw [ih h u, List.mem_cons]
      constructor
      · intro hu
        exact hu.imp_right Or.inr
      · intro hu
        rcases hu with hu | rfl | hu
        · exact Or.inl hu
        · exact Or.inl hseen
        · exact Or.inr hu
    · rw [ih h u, List.mem_append, List.mem_singleton, List.mem_cons, or_assoc]

theorem checkNewMembers_cases {us : List Text} (h : checkNewMembers env t us = .ok ()) :
    ∀ u ∈ us, t.members.has u = false := by
  induction us with
  | nil =>
    intro u hu
    cases hu
  | cons u' us ih =>
    intro u hu
    unfold checkNewMembers at h
    split_ifs at h with hdeleted hmember
    rcases List.mem_cons.mp hu with rfl | hu
    · exact Bool.eq_false_iff.mpr hmember
    · exact ih h u hu

theorem foldl_addMember {level : ℤ} (users : List Text) :
    ∀ t : TeamTables,
      (∀ u, (users.foldl (addMember format level) t).members.load u =
        if u ∈ users then some level else t.members.load u) ∧
      (∀ id, (users.foldl (addMember format level) t).invitations.load id =
        (t.invitations.load id).filter fun i => decide (i.recipient ∉ users)) ∧
      (users.foldl (addMember format level) t).roles = t.roles := by
  induction users with
  | nil =>
    intro t
    refine ⟨fun u => (if_neg List.not_mem_nil).symm, fun id => ?_, rfl⟩
    show t.invitations.load id = _
    cases t.invitations.load id with
    | none => rfl
    | some i => rfl
  | cons user users ih =>
    intro t
    obtain ⟨hmembers, hinvitations, hroles⟩ := ih (addMember format level t user)
    refine ⟨fun u => ?_, fun id => ?_, hroles⟩
    · rw [List.foldl_cons, hmembers]
      show (if u ∈ users then some level else (t.members.store user level).load u) = _
      rw [GoMap.load_store]
      by_cases hu : u ∈ users
      · rw [if_pos hu, if_pos (List.mem_cons_of_mem user hu)]
      · simp only [List.mem_cons, hu, or_false, if_false]
    · rw [List.foldl_cons, hinvitations]
      show ((t.invitations.deleteWhere fun _ i => decide (i.recipient = user)).load id).filter _ = _
      rw [GoMap.load_deleteWhere, Option.filter_filter]
      congr 1
      funext i
      simp only [List.mem_cons, not_or, Bool.decide_and, decide_not]

theorem forceAddMembers_cases {usernames : List Text} {level : ℤ}
    (h : forceAddMembers format env t usernames level = .ok t') :
    ∃ users : List Text, (∀ u, u ∈ users ↔ u ∈ usernames) ∧
      (level = permissionOwner → users.length = 1) ∧
      (∀ u ∈ users, t.members.has u = false) ∧
      t' = users.foldl (addMember format level)
        { t with members := rowsBefore t.members level } := by
  unfold forceAddMembers at h
  cases hunique : uniqueUsernames (format.resolves env) .profileNotFound [] usernames with
  | error err =>
    rw [hunique] at h
    cases h
  | ok users =>
    simp only [hunique] at h
    refine ⟨users, fun u => ?_, ?_⟩
    · rw [uniqueUsernames_cases hunique u]
      simp only [List.not_mem_nil, false_or]
    · unfold addMembers at h
      split_ifs at h with hbatch hlocked
      cases hnew : checkNewMembers env t users with
      | error err =>
        rw [hnew] at h
        cases h
      | ok u =>
        simp only [hnew] at h
        refine ⟨?_, checkNewMembers_cases hnew, (Except.ok.inj h).symm⟩
        intro hlevel
        by_contra hlen
        exact hbatch ⟨hlevel, hlen⟩

def ownerAfterAdd (owner : Text) (usernames : List Text) (level : ℤ) : Text :=
  if level = permissionOwner then usernames.headD owner else owner

theorem forceAddMembers_owned {usernames : List Text} {level : ℤ} (ho : Owned t.members owner)
    (h : forceAddMembers format env t usernames level = .ok t') :
    Owned t'.members (ownerAfterAdd owner usernames level) := by
  obtain ⟨users, hmem, hone, hnew, rfl⟩ := forceAddMembers_cases h
  intro user
  rw [(foldl_addMember users _).1 user]
  unfold ownerAfterAdd rowsBefore
  by_cases hlevel : level = permissionOwner
  · obtain ⟨u, rfl⟩ := List.length_eq_one_iff.mp (hone hlevel)
    have hhead : usernames.headD owner = u := by
      have hall : ∀ u' ∈ usernames, u' = u := by
        intro u' hu'
        exact List.mem_singleton.mp ((hmem u').mpr hu')
      cases usernames with
      | nil => exact absurd ((hmem u).mp (List.mem_singleton.mpr rfl)) List.not_mem_nil
      | cons u' us => exact hall u' List.mem_cons_self
    simp only [hlevel, if_true, hhead, List.mem_singleton]
    split_ifs with huser
    · exact iff_of_true rfl huser
    · exact iff_of_false (demoteAllOwners_ne_owner _ _) huser
  · rw [if_neg hlevel, if_neg hlevel]
    split_ifs with huser
    · refine iff_of_false (fun heq => hlevel (Option.some.inj heq)) ?_
      exact ho.ne_of_absent (hnew user huser)
    · exact ho user

def Removable (members : GoMap Text ℤ) (users : List Text) : Prop :=
  (∀ u ∈ users, members.has u = true) ∧
    ¬(0 < users.countP (fun u => decide (members.load u = some permissionOwner)) ∧
      users.countP (fun u => decide (members.load u = some permissionOwner)) ≥ ownerCount members)

theorem deleteMembers_cases {users : List Text} (h : deleteMembers t users = .ok t') :
    Removable t.members users ∧ t' = { t with members := users.foldl GoMap.delete t.members } := by
  simp only [deleteMembers] at h
  split_ifs at h with hall hlast
  refine ⟨⟨?_, hlast⟩, (Except.ok.inj h).symm⟩
  simpa using hall

theorem removeMembers_cases {actor : Text} {users : List Text}
    (h : removeMembers env t actor users = .ok t') :
    Removable t.members users ∧ t' = { t with members := users.foldl GoMap.delete t.members } := by
  unfold removeMembers at h
  split_ifs at h
  · exact deleteMembers_cases h
  · cases hallowed : removalAllowed t actor users with
    | error err =>
      rw [hallowed] at h
      cases h
    | ok u =>
      rw [hallowed] at h
      exact deleteMembers_cases h

theorem removeTeamMembers_cases {actor : Text} {usernames : List Text}
    (h : removeTeamMembers env t actor usernames = .ok t') :
    ∃ users : List Text, (∀ u, u ∈ users ↔ u ∈ usernames) ∧ Removable t.members users ∧
      t' = { t with members := users.foldl GoMap.delete t.members } := by
  unfold removeTeamMembers at h
  split_ifs at h with hbatch
  cases hunique : uniqueUsernames (userIDForUsername env) .resourceNotFound [] usernames with
  | error err =>
    rw [hunique] at h
    cases h
  | ok users =>
    simp only [hunique] at h
    refine ⟨users, fun u => ?_, removeMembers_cases h⟩
    rw [uniqueUsernames_cases hunique u]
    simp only [List.not_mem_nil, false_or]

theorem removeTeamMembers_owner {actor : Text} {usernames : List Text}
    (ho : Owned t.members owner) (h : removeTeamMembers env t actor usernames = .ok t') :
    owner ∉ usernames := by
  obtain ⟨users, hmem, ⟨-, hlast⟩, -⟩ := removeTeamMembers_cases h
  intro howner
  apply hlast
  have hcount : ownerCount t.members = 1 := (ownerCount_eq_one_iff _).mpr ⟨owner, ho⟩
  have hpos : 0 < users.countP fun u => decide (t.members.load u = some permissionOwner) := by
    apply List.countP_pos_iff.mpr
    exact ⟨owner, (hmem owner).mpr howner, decide_eq_true ((ho owner).mpr rfl)⟩
  omega

theorem removeTeamMembers_load {actor : Text} {usernames : List Text}
    (h : removeTeamMembers env t actor usernames = .ok t') (user : Text) :
    t'.members.load user = if user ∈ usernames then none else t.members.load user := by
  obtain ⟨users, hmem, -, rfl⟩ := removeTeamMembers_cases h
  show (users.foldl GoMap.delete t.members).load user = _
  rw [GoMap.load_foldl_delete]
  simp only [hmem]

theorem removeTeamMembers_owned {actor : Text} {usernames : List Text}
    (ho : Owned t.members owner) (h : removeTeamMembers env t actor usernames = .ok t') :
    Owned t'.members owner := by
  have howner := removeTeamMembers_owner ho h
  intro user
  rw [removeTeamMembers_load h]
  split_ifs with huser
  · refine iff_of_false (fun heq => ?_) fun heq => ?_
    · cases heq
    · rw [heq] at huser
      exact howner huser
  · exact ho user

theorem invitationOf_none {recipient : Text} (h : t.invitationOf recipient = none) {id : Text}
    {i : Invitation} (hload : t.invitations.load id = some i) : i.recipient ≠ recipient := by
  unfold TeamTables.invitationOf at h
  rw [Option.map_eq_none_iff, List.find?_eq_none] at h
  have := h ⟨id, i⟩ ((GoMap.mem_entries_iff _ _ _).mpr hload)
  simpa using this

theorem insertInvitation_cases {r : InvitationRequest} (h : insertInvitation t r = .ok t') :
    t.invitationOf r.invitation.recipient = none ∧ t.invitations.has r.id = false ∧
      t' = { t with
        messages := t.messages.store r.id r.message
        invitations := t.invitations.store r.id r.invitation } := by
  unfold insertInvitation at h
  split_ifs at h with hdup
  simp only [Bool.or_eq_true, not_or, Bool.not_eq_true, Option.isSome_eq_false_iff,
    Option.isNone_iff_eq_none] at hdup
  exact ⟨hdup.2, hdup.1.2, (Except.ok.inj h).symm⟩

theorem createInvitation_cases {inviter : Text} {inviterLevel : ℤ} {r : InvitationRequest}
    (h : createInvitation format t inviter inviterLevel r = .ok t') :
    t'.members = t.members ∧ t'.roles = t.roles ∧
      t.members.has r.invitation.recipient = false ∧
      ∀ id i, t'.invitations.load id = some i → (id = r.id ∧ i = r.invitation) ∨
        (t.invitations.load id = some i ∧ i.recipient ≠ r.invitation.recipient) := by
  unfold createInvitation at h
  split_ifs at h with hinviter hlevel hmember
  have hnew := Bool.eq_false_iff.mpr hmember
  cases hold : t.invitationOf r.invitation.recipient with
  | none =>
    simp only [hold] at h
    obtain ⟨-, -, rfl⟩ := insertInvitation_cases h
    refine ⟨rfl, rfl, hnew, ?_⟩
    intro id i hload
    rw [GoMap.load_store] at hload
    split_ifs at hload with hid
    · exact Or.inl ⟨hid, (Option.some.inj hload).symm⟩
    · exact Or.inr ⟨hload, invitationOf_none hold hload⟩
  | some e =>
    simp only [hold] at h
    split_ifs at h
    obtain ⟨-, -, rfl⟩ := insertInvitation_cases h
    refine ⟨rfl, rfl, hnew, ?_⟩
    intro id i hload
    rw [GoMap.load_store] at hload
    split_ifs at hload with hid
    · exact Or.inl ⟨hid, (Option.some.inj hload).symm⟩
    · have hload' : (t.invitations.deleteWhere
          fun _ i => decide (i.recipient = r.invitation.recipient)).load id = some i := hload
      rw [GoMap.load_deleteWhere, Option.filter_eq_some_iff] at hload'
      refine Or.inr ⟨hload'.1, ?_⟩
      simpa using hload'.2

theorem createInvitations_members {inviter : Text} {inviterLevel : ℤ}
    {rs : List InvitationRequest} :
    ∀ {t t' : TeamTables}, createInvitations format inviter inviterLevel t rs = .ok t' →
      t'.members = t.members ∧ t'.roles = t.roles := by
  induction rs with
  | nil =>
    intro t t' h
    cases h
    exact ⟨rfl, rfl⟩
  | cons r rs ih =>
    intro t t' h
    unfold createInvitations at h
    cases hr : createInvitation format t inviter inviterLevel r with
    | error err =>
      rw [hr] at h
      cases h
    | ok t₁ =>
      simp only [hr] at h
      obtain ⟨hmembers, hroles, -, -⟩ := createInvitation_cases hr
      obtain ⟨hmembers', hroles'⟩ := ih h
      exact ⟨hmembers'.trans hmembers, hroles'.trans hroles⟩

theorem ownerCount_pos_iff (members : GoMap Text ℤ) :
    0 < ownerCount members ↔ ∃ user, members.load user = some permissionOwner := by
  constructor
  · intro h
    obtain ⟨user, level, hload, hlevel⟩ := GoMap.exists_of_count_pos h
    rw [of_decide_eq_true hlevel] at hload
    exact ⟨user, hload⟩
  · intro ⟨user, hload⟩
    exact GoMap.count_pos hload (decide_eq_true rfl)

theorem setMemberLevel_staffed {actor username : Text} {level : ℤ} (ho : 0 < ownerCount t.members)
    (h : setMemberLevel env t actor username level = .ok t') : 0 < ownerCount t'.members := by
  obtain ⟨current, hload, hle, -, hcases⟩ := setMemberLevel_cases h
  obtain ⟨owner, howner⟩ := (ownerCount_pos_iff _).mp ho
  rw [ownerCount_pos_iff]
  rcases hcases with ⟨-, hlast, rfl⟩ | ⟨htransfer, -, rfl⟩ | ⟨hex, rfl⟩
  · by_cases hlevel : level = permissionOwner
    · refine ⟨username, ?_⟩
      rw [load_setLevel, if_pos rfl, hload, hlevel]
      rfl
    · have hother : ∃ other, other ≠ username ∧ t.members.load other = some permissionOwner := by
        by_cases hself : owner = username
        · have hcurrent : current = permissionOwner := by
            rw [← hself, howner] at hload
            exact (Option.some.inj hload).symm
          have hpos : 0 < otherOwners t.members username := Nat.pos_of_ne_zero fun hzero =>
            hlast ⟨hcurrent, lt_of_le_of_ne hle hlevel, hzero⟩
          obtain ⟨other, value, hvalue, hand⟩ := GoMap.exists_of_count_pos hpos
          simp only [Bool.and_eq_true, decide_eq_true_eq] at hand
          exact ⟨other, hand.2, hand.1 ▸ hvalue⟩
        · exact ⟨owner, hself, howner⟩
      obtain ⟨other, hne, hother⟩ := hother
      refine ⟨other, ?_⟩
      rw [load_setLevel, if_neg hne]
      exact hother
  · simp only [TeamTables.transfers, Bool.and_eq_true, decide_eq_true_eq] at htransfer
    refine ⟨username, ?_⟩
    rw [load_setLevel, if_pos rfl, load_demoteOwners, hload, htransfer.1]
    rfl
  · simp only [TeamTables.exchanges, TeamTables.transfers, Bool.and_eq_true,
      decide_eq_true_eq] at hex
    refine ⟨username, ?_⟩
    rw [load_setLevel, if_pos rfl, load_setLevel, if_neg hex.1.1.1.1.1.1.2.symm, hload,
      hex.1.1.1.1.1.1.1.1.1.1]
    rfl

theorem respondInvitation_staffed {id recipient : Text} {accept : Bool} {actedAt : ℤ}
    (ho : 0 < ownerCount t.members)
    (h : respondInvitation format env t id recipient accept actedAt = .ok t') :
    0 < ownerCount t'.members := by
  obtain ⟨i, -, -, -, -, hcases⟩ := respondInvitation_cases h
  rcases hcases with ⟨-, hmembers⟩ | ⟨-, -, -, hnew, hmembers⟩
  · rw [hmembers]
    exact ho
  · rw [hmembers, ownerCount_pos_iff]
    by_cases hlevel : i.level = permissionOwner
    · exact ⟨recipient, by rw [hlevel, GoMap.load_store_self]⟩
    · obtain ⟨owner, howner⟩ := (ownerCount_pos_iff _).mp ho
      have hne : owner ≠ recipient := by
        intro heq
        rw [heq, (GoMap.has_eq_false _ _).mp hnew] at howner
        cases howner
      refine ⟨owner, ?_⟩
      rw [if_neg hlevel, GoMap.load_store_ne _ _ hne]
      exact howner

theorem forceAddMembers_staffed {usernames : List Text} {level : ℤ}
    (ho : 0 < ownerCount t.members)
    (h : forceAddMembers format env t usernames level = .ok t') : 0 < ownerCount t'.members := by
  obtain ⟨users, -, hone, hnew, rfl⟩ := forceAddMembers_cases h
  rw [ownerCount_pos_iff]
  by_cases hlevel : level = permissionOwner
  · obtain ⟨user, rfl⟩ := List.length_eq_one_iff.mp (hone hlevel)
    refine ⟨user, ?_⟩
    rw [(foldl_addMember [user] _).1 user, if_pos (List.mem_singleton.mpr rfl), hlevel]
  · obtain ⟨owner, howner⟩ := (ownerCount_pos_iff _).mp ho
    have hout : owner ∉ users := by
      intro hmem
      rw [(GoMap.has_eq_false _ _).mp (hnew owner hmem)] at howner
      cases howner
    refine ⟨owner, ?_⟩
    rw [(foldl_addMember users _).1 owner, if_neg hout, rowsBefore, if_neg hlevel]
    exact howner

theorem removeTeamMembers_staffed {actor : Text} {usernames : List Text}
    (ho : 0 < ownerCount t.members)
    (h : removeTeamMembers env t actor usernames = .ok t') : 0 < ownerCount t'.members := by
  obtain ⟨users, -, ⟨-, hlast⟩, rfl⟩ := removeTeamMembers_cases h
  rw [ownerCount_pos_iff]
  by_contra hnone
  -- where every owner is among the users, as many owners are removed as there are
  have hall : ∀ user, t.members.load user = some permissionOwner → user ∈ users := by
    intro user howner
    by_contra hout
    refine hnone ⟨user, ?_⟩
    rw [GoMap.load_foldl_delete, if_neg hout]
    exact howner
  have hle : ownerCount t.members ≤
      users.countP fun u => decide (t.members.load u = some permissionOwner) := by
    have hkeys : ((t.members.entries.filter fun e => decide (e.2 = permissionOwner)).map
        Sigma.fst).Nodup := t.members.nodupKeys.sublist List.filter_sublist
    unfold ownerCount GoMap.count
    rw [List.countP_eq_length_filter, List.countP_eq_length_filter, ← List.length_map Sigma.fst]
    refine (List.subperm_of_subset hkeys fun user huser => ?_).length_le
    obtain ⟨e, he, rfl⟩ := List.mem_map.mp huser
    obtain ⟨hmem, hlevel⟩ := List.mem_filter.mp he
    have hload := (GoMap.mem_entries_iff t.members e.1 e.2).mp hmem
    rw [of_decide_eq_true hlevel] at hload
    exact List.mem_filter.mpr ⟨hall e.1 hload, decide_eq_true hload⟩
  exact hlast ⟨lt_of_lt_of_le ho hle, hle⟩

end RenoP.Team
