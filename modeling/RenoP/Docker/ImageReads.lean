import Mathlib.Data.Char
import Mathlib.Data.List.Lex
import RenoP.Docker.BlobDeletion

/-!
# Reads of Docker images

`HandleGetManifest`, `HandleTagsList` and `HandleGetBlob` of `internal/service/docker/handler.go`
with `ManifestLocks` of `locks.go`. The mirrors and the bytes of stored manifests come from outside.
An answer is what a response of status 200 carries.
-/

namespace RenoP.Docker

open RenoP.Database (Text trimSpace)
open RenoP.Review (trimSlashes)

variable (toLower : Char → Char)

def clampLimit (limit : ℤ) : ℕ := if limit < 1 ∨ limit > 100 then 50 else limit.toNat

/-- The user id that the listings of `docker.go` join with. -/
def ImageStore.listViewerID (s : ImageStore) (username : Text) : Text :=
  if username = [] ∨ equalFold username guest then []
  else (s.userIDForUsername toLower username).getD []

def ImageStore.listMember (s : ImageStore) (image : ImageKey) (userID : Text) : Bool :=
  match s.tables.images.load image with
  | none => false
  | some row => s.members.has (image, userID) || s.superTeamMembers.has (row.superTeamPrefix, userID)

def ImageStore.tagVisible (s : ImageStore) (image : ImageKey) (userID : Text) (moderator : Bool)
    (row : TagRow) : Bool :=
  moderator || (s.tables.images.has image && (s.listMember image userID ||
    !(resourceLocksQuery s.tables).any fun l => decide (l.mode = .read) && l.covers image row.digest))

def ImageStore.visibleTags (s : ImageStore) (image : ImageKey) (userID : Text) (moderator : Bool) :
    List Text :=
  ((s.tables.tags.entries.filter fun e =>
      decide (e.1.1 = image) && s.tagVisible image userID moderator e.2).map fun e => e.1.2).mergeSort
    fun a b => decide (a ≤ b)

def ImageStore.listDockerTagsForViewer (s : ImageStore) (repository imageName last : Text)
    (limit : ℤ) (username : Text) (moderator : Bool) : List Text :=
  let image := sanitizeDockerKey toLower repository imageName
  let last := sanitize last 128
  let tags := s.visibleTags image (s.listViewerID toLower username) moderator
  (tags.filter fun tag => decide (last = []) || decide (last < tag)).take (clampLimit limit)

/-- A manifest of a mirror; `none` under `parsed` is one that `ParseManifest` refuses. -/
structure UpstreamManifest where
  digest : Text
  raw : Text
  parsed : Option ParsedManifest

structure Outside where
  upstreamManifest : Text → Text → Text → Option UpstreamManifest
  upstreamBlob : Text → Text → Text → Option ℤ
  /-- `OpenManifest`, which may fail or find nothing -/
  openManifest : Text → Text → Text → Except Unit (Option Text)
  /-- `BlobFilePath`: the blobs are files of the machine -/
  isLocalDisk : Bool

inductive Answer where
  | manifest (raw : Text)
  | tags (names : List Text)
  | blob (size : ℤ)
  deriving DecidableEq

inductive ReadTarget where
  | manifest (reference : Text)
  | tags (last : Text) (n : ℤ)
  | blob (digest : Text)

structure ReadRequest where
  user : User
  /-- the scope of the credential, or the access entry of the bearer token, has the action -/
  granted : Bool
  name : Text

def ReadRequest.repository (r : ReadRequest) : Text := (parseRepositoryAndImage r.name).1

def ReadRequest.imageName (r : ReadRequest) : Text := (parseRepositoryAndImage r.name).2

def ReadRequest.image (r : ReadRequest) : ImageKey :=
  sanitizeDockerKey toLower r.repository r.imageName

/-- `getRepo`, then `authenticateAndAuthorize` of a read. -/
def BlobStore.authorisesRead (st : BlobStore) (r : ReadRequest) : Bool :=
  match st.repositories.load r.repository with
  | none => false
  | some visibility => r.granted &&
      st.images.canReadDocker toLower (some r.user) r.repository visibility r.name

def ImageStore.manifestLocks (s : ImageStore) (user : User) (repository imageName digest : Text) :
    Except DockerError (List LockView) :=
  match s.getResourceLocks toLower repository imageName digest with
  | .error err => .error err
  | .ok locks =>
    if !anyReadLock locks || user.checkModeratePermission repository then .ok locks
    else if (s.getDockerImageAccess toLower repository imageName user.username).member then .ok locks
    else .error .manifestNotFound

def BlobStore.getManifestByDigest (st : BlobStore) (o : Outside) (r : ReadRequest) (digest : Text) :
    Option Text :=
  let access := st.images.getDockerImageAccess toLower r.repository r.imageName []
  match st.images.manifestLocks toLower r.user r.repository r.imageName digest with
  | .error _ => none
  | .ok locks =>
    match st.images.tables.manifests.load (r.image toLower, rowDigest toLower digest) with
    | some row =>
      if row.rawJSON ≠ [] then some row.rawJSON
      else match o.openManifest r.repository r.imageName digest with
      | .error _ => none
      | .ok raw => some (raw.getD [])
    | none =>
      if access.found && access.pushEnabled then none
      else match o.openManifest r.repository r.imageName digest with
      | .error _ => none
      | .ok (some raw) => some raw
      | .ok none =>
        if locks ≠ [] then none
        else (o.upstreamManifest r.repository r.imageName digest).map UpstreamManifest.raw

/-- The part of `HandleGetManifest` for a tag that no row has. -/
def BlobStore.getManifestUpstream (st : BlobStore) (o : Outside) (r : ReadRequest)
    (reference : Text) : Option Text :=
  let t := st.images.tables
  let access := st.images.getDockerImageAccess toLower r.repository r.imageName []
  if access.found && access.pushEnabled then none
  else match lockImage toLower r.repository r.imageName with
  | none => none
  | some locked =>
    if (ensureResourceMutable toLower t locked []).isOk = false then none
    else match o.upstreamManifest r.repository r.imageName reference with
    | none => none
    | some m =>
      if (ensureDockerManifestMutable toLower t locked m.digest reference).isOk = false then none
      else match m.parsed with
      | none => none
      | some parsed =>
        match cacheDockerManifest toLower t (parsed.record (r.image toLower)) reference with
        | .error _ => none
        | .ok _ => some m.raw

def BlobStore.handleGetManifest (st : BlobStore) (o : Outside) (r : ReadRequest) (reference : Text) :
    Option Text :=
  if r.name = [] ∨ reference = [] ∨ st.authorisesRead toLower r = false then none
  else if digestPrefix.isPrefixOf reference then st.getManifestByDigest toLower o r reference
  else match st.images.tables.tags.load (r.image toLower, sanitize reference 128) with
  | some tag => st.getManifestByDigest toLower o r tag.digest
  | none => st.getManifestUpstream toLower o r reference

def BlobStore.handleTagsList (st : BlobStore) (r : ReadRequest) (last : Text) (n : ℤ) :
    Option (List Text) :=
  if st.authorisesRead toLower r = false then none
  else some (st.images.listDockerTagsForViewer toLower r.repository r.imageName last n
    r.user.username (r.user.checkModeratePermission r.repository))

def BlobStore.handleGetBlob (st : BlobStore) (o : Outside) (r : ReadRequest) (digest : Text) :
    Option ℤ :=
  if st.authorisesRead toLower r = false then none
  else match st.images.getResourceLocks toLower r.repository r.imageName digest with
  | .error _ => none
  | .ok locks =>
    if anyReadLock locks then none
    else
      let found := (st.images.getDockerImageAccess toLower r.repository r.imageName []).found
      let referenced := dockerImageReferencesBlob toLower st.images.tables (r.image toLower) digest
      let file := st.files.load (blobFile toLower r.repository digest)
      if found && !referenced then none
      else if found && (o.isLocalDisk || file.isSome) then file
      else if locks ≠ [] then none
      else o.upstreamBlob r.repository r.imageName digest

def BlobStore.read (st : BlobStore) (o : Outside) (r : ReadRequest) : ReadTarget → Option Answer
  | .manifest reference => (st.handleGetManifest toLower o r reference).map .manifest
  | .tags last n => (st.handleTagsList toLower r last n).map .tags
  | .blob digest => (st.handleGetBlob toLower o r digest).map .blob

variable {toLower}

theorem BlobStore.read_authorised {st : BlobStore} {o : Outside} {r : ReadRequest}
    {target : ReadTarget} {answer : Answer} (h : st.read toLower o r target = some answer) :
    st.authorisesRead toLower r = true := by
  by_contra hrefused
  rw [Bool.not_eq_true] at hrefused
  cases target with
  | manifest reference =>
    simp [BlobStore.read, BlobStore.handleGetManifest, hrefused] at h
  | tags last n => simp [BlobStore.read, BlobStore.handleTagsList, hrefused] at h
  | blob digest => simp [BlobStore.read, BlobStore.handleGetBlob, hrefused] at h

theorem BlobStore.read_tags {st : BlobStore} {r : ReadRequest}
    (h : st.authorisesRead toLower r = true) (o : Outside) (last : Text) (n : ℤ) :
    ∃ answer, st.read toLower o r (.tags last n) = some answer := by
  simp [BlobStore.read, BlobStore.handleTagsList, h]

def ImageStore.IsReadLocked (s : ImageStore) (image : ImageKey) : Prop :=
  anyReadLock ((resourceLocksQuery s.tables).filter fun l => l.covers image []) = true

def ImageStore.MayRead (toLower : Char → Char) (s : ImageStore) (r : ReadRequest) : Prop :=
  r.user.isManager = true ∨
    (s.IsPrivate (r.image toLower) ∧ r.user.checkUpdatePermission r.repository = true) ∨
    (s.IsReadLocked (r.image toLower) ∧ r.user.checkModeratePermission r.repository = true) ∨
    s.IsMember toLower (r.image toLower) r.user.username

def BlobStore.ReadsCovered (toLower : Char → Char) (st : BlobStore) (o : Outside) (r : ReadRequest) :
    Prop :=
  ∀ target answer, st.read toLower o r target = some answer →
    st.images.IsPrivate (r.image toLower) ∨ st.images.IsReadLocked (r.image toLower) →
    st.images.MayRead toLower r

def ImageStore.SpelledLock (toLower : Char → Char) (s : ImageStore) (r : ReadRequest)
    (found : Bool) : Prop :=
  ∃ locks, s.getResourceLocks toLower r.repository r.imageName [] = .ok locks ∧
    anyReadLock locks = found

/-- The protection of the image is not looked at: the name has no slash and the repository is open
to the user, or the spelling of the name leads to the locks of another image. -/
def BlobStore.Overlooked (toLower : Char → Char) (st : BlobStore) (r : ReadRequest)
    (visibility : Text) : Prop :=
  ('/' ∉ trimSlashes r.name ∧
    st.images.canReadRepository toLower (some r.user) r.repository visibility r.name = true) ∨
  ('/' ∈ trimSlashes r.name ∧ st.images.SpelledLock toLower r true ∧
    ¬st.images.IsReadLocked (r.image toLower) ∧
    r.user.checkModeratePermission r.repository = true) ∨
  ('/' ∈ trimSlashes r.name ∧ st.images.SpelledLock toLower r false ∧
    st.images.IsReadLocked (r.image toLower) ∧ ¬st.images.IsPrivate (r.image toLower) ∧
    st.images.canReadRepository toLower (some r.user) r.repository visibility r.name = true)

/-- No request that reaches a protected image is one for which its protection is overlooked, unless
the user is among those it is for. -/
def BlobStore.Attended (toLower : Char → Char) (st : BlobStore) (r : ReadRequest) : Prop :=
  ∀ visibility, st.repositories.load r.repository = some visibility → r.granted = true →
    st.images.IsPrivate (r.image toLower) ∨ st.images.IsReadLocked (r.image toLower) →
    st.Overlooked toLower r visibility → st.images.MayRead toLower r

theorem overlooked_iff {st : BlobStore} {r : ReadRequest} {visibility : Text}
    (hprotected : st.images.IsPrivate (r.image toLower) ∨ st.images.IsReadLocked (r.image toLower))
    (hnot : ¬st.images.MayRead toLower r) :
    st.images.canReadDocker toLower (some r.user) r.repository visibility r.name = true ↔
      st.Overlooked toLower r visibility := by
  unfold ImageStore.MayRead at hnot
  push Not at hnot
  obtain ⟨hmanager, hupdate, hmoderate, hmember⟩ := hnot
  have hno : (st.images.getDockerImageAccess toLower r.repository
      (parseRepositoryAndImage r.name).2 r.user.username).member = false := by
    rw [Bool.eq_false_iff, ne_eq, ImageStore.getDockerImageAccess_member]
    exact hmember
  have hprivate := @ImageStore.getDockerImageAccess_private toLower st.images r.repository
    (parseRepositoryAndImage r.name).2 r.user.username
  unfold ImageStore.canReadDocker BlobStore.Overlooked ImageStore.SpelledLock ReadRequest.imageName
  by_cases hslash : '/' ∈ trimSlashes r.name
  · simp only [hslash, if_true, not_true_eq_false, false_and, true_and, false_or, viewerName,
      Option.elim_some, Option.any_some, hno, Bool.false_or, Bool.or_false]
    cases st.images.getResourceLocks toLower r.repository (parseRepositoryAndImage r.name).2 [] with
    | error err => simp
    | ok locks =>
      simp only [Except.ok.injEq, exists_eq_left']
      cases hread : anyReadLock locks with
      | true =>
        simp only [if_true, Bool.true_eq_false, false_and, or_false, true_and]
        exact ⟨fun hm => ⟨fun hl => hmoderate hl hm, hm⟩, And.right⟩
      | false =>
        simp only [Bool.false_eq_true, if_false, false_and, false_or, true_and]
        by_cases hp : st.images.IsPrivate (r.image toLower)
        · simp [hprivate.mpr hp, hp, hmanager, hupdate hp]
        · have hopen := mt hprivate.mp hp
          simp only [hopen, hp, hprotected.resolve_left hp, Bool.false_eq_true, if_false,
            not_false_eq_true, true_and]
  · simp [hslash]

/-- Reads of protected images stay among those the images are for exactly where the protection is
not overlooked. -/
theorem reads_covered_iff (toLower : Char → Char) (st : BlobStore) (o : Outside) (r : ReadRequest) :
    st.ReadsCovered toLower o r ↔ st.Attended toLower r := by
  constructor
  · intro hcovered visibility hrepository hgranted hprotected hoverlooked
    by_contra hnot
    have hread := (overlooked_iff hprotected hnot).mpr hoverlooked
    have hauth : st.authorisesRead toLower r = true := by
      unfold BlobStore.authorisesRead
      simp only [hrepository, hgranted, hread, Bool.and_self]
    obtain ⟨answer, hanswer⟩ := BlobStore.read_tags hauth o [] 50
    exact hnot (hcovered _ answer hanswer hprotected)
  · intro hattended target answer hanswer hprotected
    by_contra hnot
    have hauth := BlobStore.read_authorised hanswer
    unfold BlobStore.authorisesRead at hauth
    cases hrepository : st.repositories.load r.repository with
    | none =>
      rw [hrepository] at hauth
      cases hauth
    | some visibility =>
      simp only [hrepository, Bool.and_eq_true] at hauth
      have hoverlooked := (overlooked_iff hprotected hnot).mp hauth.2
      exact hnot (hattended visibility hrepository hauth.1 hprotected hoverlooked)

def privateStore : BlobStore where
  images := {
    tables := {
      images := GoMap.store ∅ ⟨['r'], ['r']⟩ ⟨['v'], [], true⟩
      manifests := GoMap.store ∅ (⟨['r'], ['r']⟩, sharedLayer) ⟨[], 2, [], ['v'], ['{', '}']⟩
      tags := ∅
      blobs := ∅
      imageBlobs := ∅
      locks := ∅
      lockVersions := ∅ }
    privateImages := fun _ => true
    members := ∅
    superTeamMembers := ∅
    profiles := ∅
    deprecated := fun _ => false
    members_named := members_of_empty
    superTeamMembers_named := superTeamMembers_of_empty }
  repositories := GoMap.store ∅ ['r'] visPublic
  files := ∅

def noMirrors : Outside := ⟨fun _ _ _ => none, fun _ _ _ => none, fun _ _ _ => .ok none, true⟩

def guestRequest : ReadRequest := ⟨⟨guest, []⟩, true, ['r']⟩

theorem guest_reads_private : ¬privateStore.ReadsCovered Char.toLower noMirrors guestRequest := by
  intro hcovered
  have hserved : privateStore.read Char.toLower noMirrors guestRequest (.manifest sharedLayer) =
      some (.manifest ['{', '}']) := by decide +kernel
  have hprivate : privateStore.images.IsPrivate (guestRequest.image Char.toLower) :=
    ⟨by decide +kernel, rfl⟩
  obtain hmanager | ⟨-, hupdate⟩ | ⟨-, hmoderate⟩ | ⟨row, userID, -, hid, hne, -⟩ :=
    hcovered _ _ hserved (.inl hprivate)
  · exact absurd hmanager (by decide +kernel)
  · exact absurd hupdate (by decide +kernel)
  · exact absurd hmoderate (by decide +kernel)
  · exact hne (hid.symm.trans (by decide +kernel))

/-- Who may push an image may pull it. -/
theorem writable_readable (s : ImageStore) (user : User) (repository visibility path : Text)
    (hvisibility : (equalFoldASCII visibility visPublic || equalFoldASCII visibility visHidden ||
      equalFoldASCII visibility visPrivate) = true)
    (hwrite : s.canWriteDocker toLower user repository path = true) :
    s.canReadDocker toLower (some user) repository visibility path = true := by
  unfold ImageStore.canWriteDocker at hwrite
  dsimp only at hwrite
  split at hwrite
  · cases hwrite
  · rename_i hguest
    split at hwrite
    · cases hwrite
    · rename_i hslash
      split at hwrite
      · cases hwrite
      rename_i hmutable
      obtain ⟨locks, hlocks, hread⟩ := ImageStore.unlocked_of_mutable hmutable
      have hgranted : (user.isManager || user.checkUpdatePermission repository) = true ∨
          (s.getDockerImageAccess toLower repository (parseRepositoryAndImage path).2
            user.username).member = true := by
        split_ifs at hwrite with hfound hmanager
        · exact Or.inl hmanager
        · exact Or.inr (Bool.and_eq_true_iff.mp hwrite).1
      unfold ImageStore.canReadDocker
      dsimp only [viewerName, Option.elim_some, Option.any_some]
      rw [if_pos (not_not.mp hslash), hlocks]
      dsimp only
      rw [hread, if_neg Bool.false_ne_true]
      split_ifs
      · rw [Bool.or_eq_true]
        exact hgranted
      · apply ImageStore.canReadRepository_granted hvisibility hguest
        exact hgranted.imp_right fun h => ((s.getDockerImageAccess_member ..).mp h).membership

theorem managed_image_readable : privateStore.images.canReadDocker Char.toLower
    (some ⟨['m'], [roleManager]⟩) ['r'] visPrivate ['r', '/', 'r'] = true :=
  writable_readable _ _ _ _ _ (by decide +kernel) (by decide +kernel)

end RenoP.Docker
