import RenoP.Docker.Tables
import RenoP.Review.Tasks
import RenoP.Team.TeamMembers

/-!
# Access to Docker images

`ParseRepositoryAndImage`, `CanReadDocker` and `CanWriteDocker` of `internal/service/docker/auth.go`
with what they ask of `internal/config/permissions.go` and of the database. The image of a request
is looked up under two keys: rows under `sanitizeDockerKey`, locks under the key of
`normalizeResourceLockTarget`, which neither drops control bytes nor cuts the name.
-/

namespace RenoP.Docker

open RenoP.Database (Text trimSpace)
open RenoP.Review (trimSlashes)
open RenoP.Team (effectiveBoundPermission)

structure User where
  username : Text
  roles : List Text
  deriving DecidableEq

def guest : Text := ['g', 'u', 'e', 's', 't']

def roleManager : Text := ['m', 'a', 'n', 'a', 'g', 'e', 'r']
def roleAdmin : Text := ['a', 'd', 'm', 'i', 'n']
def roleAllView : Text := ['a', 'l', 'l', 'v', 'i', 'e', 'w']
def roleProView : Text := ['p', 'r', 'o', 'v', 'i', 'e', 'w']
def canUpdate : Text := ['c', 'a', 'n', 'u', 'p', 'd', 'a', 't', 'e', ':']
def canModerate : Text := ['c', 'a', 'n', 'm', 'o', 'd', 'e', 'r', 'a', 't', 'e', ':']
def canView : Text := ['c', 'a', 'n', 'v', 'i', 'e', 'w', ':']

def User.holds (u : User) (role repository : Text) : Bool :=
  decide (role ++ ['*'] ∈ u.roles) || (decide (repository ≠ []) && decide (role ++ repository ∈ u.roles))

/-- `IsManager`; `isAdmin` is set with it. -/
def User.isManager (u : User) : Bool := decide (roleManager ∈ u.roles) || decide (roleAdmin ∈ u.roles)

def User.checkUpdatePermission (u : User) (repository : Text) : Bool :=
  u.isManager || u.holds canUpdate repository

def User.checkModeratePermission (u : User) (repository : Text) : Bool :=
  u.isManager || u.holds canModerate repository

def visPublic : Text := ['P', 'U', 'B', 'L', 'I', 'C']
def visHidden : Text := ['H', 'I', 'D', 'D', 'E', 'N']
def visPrivate : Text := ['P', 'R', 'I', 'V', 'A', 'T', 'E']

/-- `equalFoldASCII` against letters. -/
def equalFoldASCII (s t : Text) : Bool := decide (s.map Char.toLower = t.map Char.toLower)

/-- The ASCII letter of a character's `unicode.SimpleFold` orbit. -/
def foldASCII (c : Char) : Char :=
  if c = 'ſ' then 's' else if c.val = 0x212A then 'k' else c.toLower

/-- `strings.EqualFold` against ASCII. -/
def equalFold (s t : Text) : Bool := decide (s.map foldASCII = t.map foldASCII)

/-- `CheckReadPermission` without `isRoot`. -/
def User.checkReadPermission (u : User) (repository path visibility : Text) : Bool :=
  let allView := decide (roleAllView ∈ u.roles) || decide (roleProView ∈ u.roles)
  if !equalFoldASCII visibility visPublic && !equalFoldASCII visibility visHidden &&
      !equalFoldASCII visibility visPrivate then false
  else if u.isManager || u.holds canUpdate repository || u.holds canModerate repository then true
  else if u.holds canView repository then true
  else if equalFoldASCII visibility visPublic then true
  else if equalFoldASCII visibility visHidden then
    if path.getLast? = some '/' ∨ path = [] then
      allView || decide (['s', 'h', 'o', 'w', 'i', 'n', 'g'] ∈ u.roles)
    else true
  else allView

def parseRepositoryAndImage (fullName : Text) : Text × Text :=
  match (trimSlashes fullName).splitOn '/' with
  | [] => ([], [])
  | [part] => (part, part)
  | part :: rest => if part = [] then ([], []) else (part, ['/'].intercalate rest)

variable (toLower : Char → Char)

def sanitizeDockerKey (repository imageName : Text) : ImageKey :=
  ⟨sanitizeLower toLower repository 64, sanitizeLower toLower imageName 255⟩

def lockImage (repository imageName : Text) : Option ImageKey :=
  let repository := (trimSpace repository).map toLower
  let imageName := trimSpace imageName
  if repository = [] ∨ utf8Length repository > 255 ∨ imageName = [] ∨ utf8Length imageName > 8192 then
    none
  else some ⟨repository, imageName.map toLower⟩

structure ImageStore where
  tables : Tables
  privateImages : ImageKey → Bool
  /-- `docker_members`: the level of an image's member, by user id -/
  members : GoMap (ImageKey × Text) ℤ
  /-- `super_team_members`: the role of a team's member, by user id -/
  superTeamMembers : GoMap (Text × Text) ℤ
  profiles : GoMap Text Text
  deprecated : ImageKey → Bool
  members_named : ∀ image, members.load (image, []) = none
  superTeamMembers_named : ∀ team, superTeamMembers.load (team, []) = none

theorem members_of_empty (image : ImageKey) :
    (∅ : GoMap (ImageKey × Text) ℤ).load (image, []) = none := rfl

theorem superTeamMembers_of_empty (team : Text) :
    (∅ : GoMap (Text × Text) ℤ).load (team, []) = none := rfl

structure ImageAccess where
  found : Bool
  isPrivate : Bool
  pushEnabled : Bool
  member : Bool
  level : ℤ

def ImageStore.userIDForUsername (s : ImageStore) (username : Text) : Option Text :=
  let username := (trimSpace username).map toLower
  if username = [] then none
  else match s.profiles.load username with
  | none => none
  | some userID => if userID = [] then none else some userID

/-- The user id that the access queries of `docker.go` join with. -/
def ImageStore.viewerID (s : ImageStore) (username : Text) : Text :=
  let username := sanitizeLower toLower username 255
  if username = [] ∨ username = guest then []
  else (s.userIDForUsername toLower username).getD []

def ImageStore.getDockerImageAccess (s : ImageStore) (repository imageName username : Text) :
    ImageAccess :=
  let image := sanitizeDockerKey toLower repository imageName
  let userID := s.viewerID toLower username
  match s.tables.images.load image with
  | none => ⟨false, false, false, false, 0⟩
  | some row =>
    let explicit := s.members.load (image, userID)
    let role := s.superTeamMembers.load (row.superTeamPrefix, userID)
    let (level, member) := effectiveBoundPermission (explicit.getD 0) explicit.isSome
      (role.getD 0) role.isSome
    ⟨true, s.privateImages image, row.pushEnabled, member, level⟩

def ImageStore.hasDockerMembership (s : ImageStore) (repository username : Text) : Bool :=
  let repository := sanitizeLower toLower repository 64
  let username := sanitizeLower toLower username 255
  if username = [] then false
  else match s.userIDForUsername toLower username with
  | none => false
  | some userID => s.tables.images.entries.any fun i =>
      decide (i.1.repository = repository) && (s.members.has (i.1, userID) ||
        s.superTeamMembers.has (i.2.superTeamPrefix, userID))

/-- `GetResourceLocks` of an image, or of one version with its image. -/
def ImageStore.getResourceLocks (s : ImageStore) (repository imageName version : Text) :
    Except DockerError (List LockView) :=
  match lockImage toLower repository imageName with
  | none => .error .resourceLockInvalid
  | some image =>
    let version := version.map toLower
    if !validLockVersion version then .error .resourceLockInvalid
    else .ok ((resourceLocksQuery s.tables).filter fun l => l.covers image version)

def anyReadLock (locks : List LockView) : Bool := locks.any fun l => decide (l.mode = .read)

def ImageStore.ensurePackageMutable (s : ImageStore) (repository imageName : Text) :
    Except DockerError Unit :=
  match lockImage toLower repository imageName with
  | none => .error .resourceLockInvalid
  | some image =>
    -- a deprecated image and a locked one are refused alike
    if s.deprecated image then .error .resourceLocked
    else ensureResourceMutable toLower s.tables image []

/-- The end of `CanReadDocker`, which asks about the repository only. -/
def ImageStore.canReadRepository (s : ImageStore) (user : Option User)
    (repository visibility path : Text) : Bool :=
  if equalFold visibility visPublic || equalFold visibility visHidden then true
  else match user with
  | none => false
  | some user =>
    if user.checkReadPermission repository path visibility then true
    else if user.username = [] ∨ equalFold user.username guest then false
    else s.hasDockerMembership toLower repository user.username

def viewerName (user : Option User) : Text := user.elim [] User.username

def ImageStore.canReadDocker (s : ImageStore) (user : Option User)
    (repository visibility path : Text) : Bool :=
  if '/' ∈ trimSlashes path then
    let imageName := (parseRepositoryAndImage path).2
    let access := s.getDockerImageAccess toLower repository imageName (viewerName user)
    match s.getResourceLocks toLower repository imageName [] with
    | .error _ => false
    | .ok locks =>
      if anyReadLock locks then access.member || user.any fun u => u.checkModeratePermission repository
      else if access.found && access.isPrivate then
        (user.any fun u => u.isManager || u.checkUpdatePermission repository) || access.member
      else s.canReadRepository toLower user repository visibility path
  else s.canReadRepository toLower user repository visibility path

def permissionPublish : ℤ := 1

def ImageStore.canWriteDocker (s : ImageStore) (user : User) (repository repoFullName : Text) :
    Bool :=
  if user.username = [] ∨ equalFold user.username guest then false
  else if '/' ∉ trimSlashes repoFullName then false
  else
    let imageName := (parseRepositoryAndImage repoFullName).2
    match s.ensurePackageMutable toLower repository imageName with
    | .error _ => false
    | .ok () =>
      let access := s.getDockerImageAccess toLower repository imageName user.username
      if !access.found || !access.pushEnabled then false
      else if user.isManager || user.checkUpdatePermission repository then true
      else access.member && decide (permissionPublish ≤ access.level)

variable {toLower}

def ImageStore.IsMember (toLower : Char → Char) (s : ImageStore) (image : ImageKey)
    (username : Text) : Prop :=
  ∃ row userID, s.tables.images.load image = some row ∧ s.viewerID toLower username = userID ∧
    userID ≠ [] ∧
    (s.members.has (image, userID) = true ∨
      s.superTeamMembers.has (row.superTeamPrefix, userID) = true)

theorem effectiveBoundPermission_member (explicitLevel role : ℤ) (explicit super : Bool) :
    (effectiveBoundPermission explicitLevel explicit role super).2 = (explicit || super) := rfl

theorem ImageStore.getDockerImageAccess_member (s : ImageStore) (repository imageName username : Text) :
    (s.getDockerImageAccess toLower repository imageName username).member = true ↔
      s.IsMember toLower (sanitizeDockerKey toLower repository imageName) username := by
  unfold ImageStore.getDockerImageAccess ImageStore.IsMember
  cases hrow : s.tables.images.load (sanitizeDockerKey toLower repository imageName) with
  | none => simp [hrow]
  | some row =>
    simp only [hrow, effectiveBoundPermission_member, Bool.or_eq_true, GoMap.has,
      Option.some.injEq, exists_eq_left', exists_and_left]
    constructor
    · intro hmember
      refine ⟨?_, hmember⟩
      intro hnone
      rw [hnone] at hmember
      simp [s.members_named, s.superTeamMembers_named] at hmember
    · rintro ⟨-, hmember⟩
      exact hmember

def ImageStore.IsPrivate (s : ImageStore) (image : ImageKey) : Prop :=
  s.tables.images.has image = true ∧ s.privateImages image = true

theorem ImageStore.getDockerImageAccess_private (s : ImageStore)
    (repository imageName username : Text) :
    ((s.getDockerImageAccess toLower repository imageName username).found &&
        (s.getDockerImageAccess toLower repository imageName username).isPrivate) = true ↔
      s.IsPrivate (sanitizeDockerKey toLower repository imageName) := by
  unfold ImageStore.getDockerImageAccess ImageStore.IsPrivate
  cases hrow : s.tables.images.load (sanitizeDockerKey toLower repository imageName) with
  | none => simp [GoMap.has, hrow]
  | some row => simp [GoMap.has, hrow]

theorem ImageStore.IsMember.membership {s : ImageStore} {repository imageName username : Text}
    (h : s.IsMember toLower (sanitizeDockerKey toLower repository imageName) username) :
    s.hasDockerMembership toLower repository username = true := by
  obtain ⟨row, userID, hrow, hviewer, hne, hmember⟩ := h
  unfold ImageStore.viewerID at hviewer
  dsimp only at hviewer
  split_ifs at hviewer with hname
  · exact absurd hviewer.symm hne
  · unfold ImageStore.hasDockerMembership
    dsimp only
    rw [if_neg fun h => hname (Or.inl h)]
    cases hid : s.userIDForUsername toLower (sanitizeLower toLower username 255) with
    | none =>
      rw [hid] at hviewer
      exact absurd hviewer.symm hne
    | some id =>
      rw [hid, Option.getD_some] at hviewer
      subst hviewer
      refine List.any_eq_true.mpr ⟨⟨_, row⟩, (GoMap.mem_entries_iff _ _ _).mpr hrow, ?_⟩
      rw [Bool.and_eq_true, Bool.or_eq_true]
      exact ⟨decide_eq_true rfl, hmember⟩

theorem ImageStore.unlocked_of_mutable {s : ImageStore} {repository imageName : Text}
    (h : s.ensurePackageMutable toLower repository imageName = .ok ()) :
    ∃ locks, s.getResourceLocks toLower repository imageName [] = .ok locks ∧
      anyReadLock locks = false := by
  unfold ImageStore.ensurePackageMutable at h
  unfold ImageStore.getResourceLocks
  cases himage : lockImage toLower repository imageName with
  | none =>
    rw [himage] at h
    cases h
  | some image =>
    rw [himage] at h
    simp only [ensureResourceMutable] at h
    split_ifs at h with hdeprecated hvalid hlocked
    dsimp only
    rw [if_neg hvalid]
    refine ⟨_, rfl, ?_⟩
    simp only [anyReadLock, List.any_eq_true, not_exists, not_and, List.mem_filter,
      Bool.not_eq_true, List.any_eq_false, and_imp] at hlocked ⊢
    intro l hl hcovers
    exact absurd hcovers (by rw [hlocked l hl]; decide)

theorem ImageStore.canReadRepository_granted {s : ImageStore} {user : User}
    {repository visibility path : Text}
    (hvisibility : (equalFoldASCII visibility visPublic || equalFoldASCII visibility visHidden ||
      equalFoldASCII visibility visPrivate) = true)
    (hguest : ¬(user.username = [] ∨ equalFold user.username guest = true))
    (h : (user.isManager || user.checkUpdatePermission repository) = true ∨
      s.hasDockerMembership toLower repository user.username = true) :
    s.canReadRepository toLower (some user) repository visibility path = true := by
  unfold ImageStore.canReadRepository
  by_cases hopen : (equalFold visibility visPublic || equalFold visibility visHidden) = true
  · rw [if_pos hopen]
  · rw [if_neg hopen]
    dsimp only
    rw [if_neg hguest]
    rcases h with hmanager | hmember
    · rw [if_pos]
      unfold User.checkUpdatePermission at hmanager
      rw [← Bool.or_assoc, Bool.or_self] at hmanager
      unfold User.checkReadPermission
      dsimp only
      rw [if_neg, if_pos]
      · rw [hmanager, Bool.true_or]
      · rw [← Bool.not_or, ← Bool.not_or, hvisibility]
        decide
    · rw [hmember]
      exact ite_self _

end RenoP.Docker
