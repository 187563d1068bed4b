import RenoP.Database.PublicationQuota

/-!
# Docker tables

`internal/database/docker.go`, `docker_locks.go` and `resource_lock.go`: manifests, tags, blob
rows, the links between images and blobs, and the resource locks that guard them. Repository and
image names are what `sanitizeDockerKey` leaves of a request. `toLower` is `unicode.ToLower`. A
lock's id is a digest of its target, here the target itself.
-/

namespace RenoP.Docker

open RenoP.Database (Text trimSpace sanitizeControlBytes truncateUTF8)

structure ImageKey where
  repository : Text
  name : Text
  deriving DecidableEq

structure ImageRow where
  publisher : Text
  superTeamPrefix : Text
  pushEnabled : Bool
  deriving DecidableEq

structure ManifestRow where
  mediaType : Text
  size : ℤ
  configDigest : Text
  publisher : Text
  rawJSON : Text
  deriving DecidableEq

structure TagRow where
  digest : Text
  mediaType : Text
  size : ℤ
  configDigest : Text
  publisher : Text
  deriving DecidableEq

/-- A row of `docker_image_blobs`; an upload or a mount has no manifest yet. -/
structure BlobLink where
  image : ImageKey
  manifestDigest : Text
  blobDigest : Text
  deriving DecidableEq

inductive LockMode where
  | write
  | read
  deriving DecidableEq

inductive LockSource where
  | manual
  | system
  deriving DecidableEq

/-- `ResourceLockTarget` of the formats `docker` and `superteam`. -/
inductive LockTarget where
  | docker (image : ImageKey) (version : Text)
  | superteam (team : Text)
  deriving DecidableEq

structure Tables where
  images : GoMap ImageKey ImageRow
  manifests : GoMap (ImageKey × Text) ManifestRow
  tags : GoMap (ImageKey × Text) TagRow
  blobs : GoMap (Text × Text) ℤ
  imageBlobs : GoMap BlobLink Unit
  locks : GoMap (LockTarget × LockSource) LockMode
  lockVersions : GoMap ((LockTarget × LockSource) × Text) Unit

inductive DockerError where
  | imageNotFound
  | imageExists
  | manifestNotFound
  | manifestInvalid
  | tagNotFound
  | invalidDigest
  | resourceLocked
  | resourceLockInvalid
  deriving DecidableEq

def sanitizeLower (toLower : Char → Char) (s : Text) (maxLen : ℕ) : Text :=
  (truncateUTF8 (sanitizeControlBytes (trimSpace s)) maxLen).map toLower

def rowDigest (toLower : Char → Char) (digest : Text) : Text := sanitizeLower toLower digest 128

/-- A row of `resourceLocksQuery("docker")`. -/
structure LockView where
  image : ImageKey
  version : Text
  mode : LockMode

def directLock : LockTarget → LockMode → Option LockView
  | .docker image version, mode => some ⟨image, version, mode⟩
  | .superteam _, _ => none

def capturedLock (t : Tables) (lock : LockTarget × LockSource) (version : Text) : Option LockView :=
  match lock.1, t.locks.load lock with
  | .docker image _, some mode => some ⟨image, version, mode⟩
  | _, _ => none

def inheritedLock (image : ImageKey) (row : ImageRow) : LockTarget → LockMode → Option LockView
  | .superteam team, mode => if row.superTeamPrefix = team then some ⟨image, [], mode⟩ else none
  | .docker _ _, _ => none

def resourceLocksQuery (t : Tables) : List LockView :=
  (t.locks.entries.filterMap fun e => directLock e.1.1 e.2) ++
    (t.lockVersions.entries.filterMap fun e => capturedLock t e.1.1 e.1.2) ++
    t.images.entries.flatMap fun i =>
      t.locks.entries.filterMap fun e => inheritedLock i.1 i.2 e.1.1 e.2

def isControl (c : Char) : Bool := c.val < 32 || (127 ≤ c.val && c.val < 0xA0)

def utf8Length (s : Text) : ℕ := (s.map Char.utf8Size).sum

/-- What `normalizeResourceLockTarget` asks of a version. -/
def validLockVersion (version : Text) : Bool :=
  decide (utf8Length version ≤ 255) && !version.any isControl && decide (trimSpace version = version)

def LockView.covers (l : LockView) (image : ImageKey) (version : Text) : Bool :=
  decide (l.image = image) && (decide (l.version = []) || decide (l.version = version))

/-- `ensureResourceMutableQuery` without `allVersions`. -/
def ensureResourceMutable (toLower : Char → Char) (t : Tables) (image : ImageKey) (version : Text) :
    Except DockerError Unit :=
  let version := version.map toLower
  if !validLockVersion version then .error .resourceLockInvalid
  else if (resourceLocksQuery t).any fun l => l.covers image version then .error .resourceLocked
  else .ok ()

def ensureDockerTagMutable (toLower : Char → Char) (t : Tables) (image : ImageKey) (tag : Text) :
    Except DockerError Unit :=
  let digest := match t.tags.load (image, tag) with
    | some row => row.digest
    | none => []
  ensureResourceMutable toLower t image digest

/-- `EnsureDockerBlobMutable`: bytes that a locked image or version of the repository refers to. -/
def ensureDockerBlobMutable (t : Tables) (repository digest : Text) : Except DockerError Unit :=
  let locked := (resourceLocksQuery t).any fun l =>
    decide (l.image.repository = repository) && (decide (l.version = digest) ||
      t.imageBlobs.entries.any fun b =>
        decide (b.1.image = l.image) && decide (b.1.blobDigest = digest) &&
          (decide (l.version = []) || decide (l.version = b.1.manifestDigest)))
  if locked then .error .resourceLocked else .ok ()

def readLocked (toLower : Char → Char) (t : Tables) (image : ImageKey) (version : Text) :
    Except DockerError Bool :=
  let version := version.map toLower
  if !validLockVersion version then .error .resourceLockInvalid
  else .ok ((resourceLocksQuery t).any fun l => l.covers image version && decide (l.mode = .read))

def recordDockerBlob (toLower : Char → Char) (t : Tables) (repository digest : Text) (size : ℤ) :
    Tables :=
  let digest := rowDigest toLower digest
  if t.blobs.has (repository, digest) then t
  else { t with blobs := t.blobs.store (repository, digest) size }

def recordDockerImageBlob (toLower : Char → Char) (t : Tables) (image : ImageKey) (digest : Text) :
    Except DockerError Tables :=
  let digest := rowDigest toLower digest
  if image.repository = [] ∨ image.name = [] ∨ digest = [] then .error .invalidDigest
  else match ensureResourceMutable toLower t image digest with
  | .error err => .error err
  | .ok () => .ok { t with imageBlobs := t.imageBlobs.store ⟨image, [], digest⟩ () }

def dockerImageReferencesBlob (toLower : Char → Char) (t : Tables) (image : ImageKey)
    (digest : Text) : Bool :=
  t.imageBlobs.entries.any fun b =>
    decide (b.1.image = image) && decide (b.1.blobDigest = rowDigest toLower digest)

def deleteDockerBlob (toLower : Char → Char) (t : Tables) (repository digest : Text) :
    Except DockerError Tables :=
  let digest := rowDigest toLower digest
  match ensureDockerBlobMutable t repository digest with
  | .error err => .error err
  | .ok () => .ok { t with
      imageBlobs := t.imageBlobs.deleteWhere fun b _ =>
        decide (b.image.repository = repository) && decide (b.blobDigest = digest)
      blobs := t.blobs.delete (repository, digest) }

structure DockerManifest where
  image : ImageKey
  digest : Text
  mediaType : Text
  size : ℤ
  configDigest : Text
  blobDigests : List Text
  rawJSON : Text

structure DockerManifestWrite where
  image : ImageKey
  digest : Text
  mediaType : Text
  size : ℤ
  configDigest : Text
  blobDigests : List Text
  rawJSON : Text
  tag : Text
  username : Text
  allowMirrorCreate : Bool

def sanitize (s : Text) (maxLen : ℕ) : Text := truncateUTF8 (sanitizeControlBytes (trimSpace s)) maxLen

def normalizeDockerManifestWrite (toLower : Char → Char) (manifest : DockerManifest)
    (tag username : Text) (allowMirrorCreate : Bool) : Except DockerError DockerManifestWrite :=
  let write : DockerManifestWrite := {
    image := manifest.image
    digest := rowDigest toLower manifest.digest
    mediaType := sanitize manifest.mediaType 128
    size := manifest.size
    configDigest := rowDigest toLower manifest.configDigest
    blobDigests := manifest.blobDigests
    rawJSON := manifest.rawJSON
    tag := sanitize tag 128
    username := sanitizeLower toLower username 255
    allowMirrorCreate := allowMirrorCreate }
  if write.image.repository = [] ∨ write.image.name = [] ∨ write.digest = [] ∨
      write.mediaType = [] ∨ write.username = [] then .error .manifestInvalid
  else .ok write

/-- The image row of a write, made by a mirror when it is missing. -/
def upsertImage (t : Tables) (w : DockerManifestWrite) : Except DockerError Tables :=
  match t.images.load w.image with
  | none =>
    if !w.allowMirrorCreate then .error .imageNotFound
    else .ok { t with images := t.images.store w.image ⟨w.username, [], false⟩ }
  | some row =>
    if w.allowMirrorCreate && row.pushEnabled then .error .imageExists
    else if !w.allowMirrorCreate && !row.pushEnabled then .error .imageNotFound
    else
      let publisher := if row.publisher = [] then w.username else row.publisher
      .ok { t with images := t.images.store w.image { row with publisher := publisher } }

def upsertManifest (t : Tables) (w : DockerManifestWrite) : Tables :=
  let row : ManifestRow := ⟨w.mediaType, w.size, w.configDigest, w.username, w.rawJSON⟩
  { t with manifests := t.manifests.store (w.image, w.digest) row }

def digestPrefix : Text := ['s', 'h', 'a', '2', '5', '6', ':']

def upsertTag (t : Tables) (w : DockerManifestWrite) : Tables :=
  if w.tag = [] ∨ digestPrefix.isPrefixOf w.tag then t
  else
    let row : TagRow := ⟨w.digest, w.mediaType, w.size, w.configDigest, w.username⟩
    { t with tags := t.tags.store (w.image, w.tag) row }

def linkBlob (image : ImageKey) (manifestDigest : Text) (links : GoMap BlobLink Unit)
    (blobDigest : Text) : GoMap BlobLink Unit :=
  (links.delete ⟨image, [], blobDigest⟩).store ⟨image, manifestDigest, blobDigest⟩ ()

def manifestBlobs (toLower : Char → Char) (w : DockerManifestWrite) : List Text :=
  (w.blobDigests.map (rowDigest toLower)).filter fun d => d ≠ []

def linkManifestBlobs (toLower : Char → Char) (t : Tables) (w : DockerManifestWrite) : Tables :=
  let cleared := t.imageBlobs.deleteWhere fun b _ =>
    decide (b.image = w.image) && decide (b.manifestDigest = w.digest)
  { t with imageBlobs := (manifestBlobs toLower w).dedup.foldl (linkBlob w.image w.digest) cleared }

def putDockerManifestTx (toLower : Char → Char) (t : Tables) (w : DockerManifestWrite) :
    Except DockerError Tables :=
  match upsertImage t w with
  | .error err => .error err
  | .ok t =>
    match ensureResourceMutable toLower t w.image w.digest with
    | .error err => .error err
    | .ok () =>
      match if w.tag = [] then .ok () else ensureDockerTagMutable toLower t w.image w.tag with
      | .error err => .error err
      | .ok () => .ok (linkManifestBlobs toLower (upsertTag (upsertManifest t w) w) w)

def putDockerManifest (toLower : Char → Char) (t : Tables) (manifest : DockerManifest)
    (tag username : Text) (allowMirrorCreate : Bool) : Except DockerError Tables :=
  match normalizeDockerManifestWrite toLower manifest tag username allowMirrorCreate with
  | .error err => .error err
  | .ok w => putDockerManifestTx toLower t w

def cacheDockerManifest (toLower : Char → Char) (t : Tables) (manifest : DockerManifest)
    (tag : Text) : Except DockerError Tables :=
  putDockerManifest toLower t manifest tag ['m', 'i', 'r', 'r', 'o', 'r'] true

def lockDockerImageRow (t : Tables) (image : ImageKey) : Except DockerError Unit :=
  if t.images.has image then .ok () else .error .imageNotFound

def deleteDockerTag (toLower : Char → Char) (t : Tables) (image : ImageKey) (tag : Text) :
    Except DockerError Tables :=
  let tag := sanitize tag 128
  match lockDockerImageRow t image with
  | .error err => .error err
  | .ok () =>
    match ensureResourceMutable toLower t image [] with
    | .error err => .error err
    | .ok () =>
      match ensureDockerTagMutable toLower t image tag with
      | .error err => .error err
      | .ok () =>
        if t.tags.has (image, tag) then .ok { t with tags := t.tags.delete (image, tag) }
        else .error .tagNotFound

def deleteDockerManifest (toLower : Char → Char) (t : Tables) (image : ImageKey) (digest : Text) :
    Except DockerError Tables :=
  let digest := rowDigest toLower digest
  match lockDockerImageRow t image with
  | .error err => .error err
  | .ok () =>
    match ensureResourceMutable toLower t image digest with
    | .error err => .error err
    | .ok () =>
      if t.manifests.has (image, digest) then
        .ok { t with
          tags := t.tags.deleteWhere fun k row =>
            decide (k.1 = image) && decide (row.digest = digest)
          imageBlobs := t.imageBlobs.deleteWhere fun b _ =>
            decide (b.image = image) && decide (b.manifestDigest = digest)
          manifests := t.manifests.delete (image, digest) }
      else .error .manifestNotFound

variable {toLower : Char → Char} {t t' : Tables}

theorem upsertImage_cases {w : DockerManifestWrite} (h : upsertImage t w = .ok t') :
    ∃ row, t' = { t with images := t.images.store w.image row } := by
  unfold upsertImage at h
  cases hrow : t.images.load w.image with
  | none =>
    simp only [hrow] at h
    split_ifs at h
    exact ⟨_, (Except.ok.inj h).symm⟩
  | some row =>
    simp only [hrow] at h
    split_ifs at h
    · exact ⟨_, (Except.ok.inj h).symm⟩
    · exact ⟨_, (Except.ok.inj h).symm⟩

theorem putDockerManifestTx_cases {w : DockerManifestWrite}
    (h : putDockerManifestTx toLower t w = .ok t') :
    ∃ row, ensureResourceMutable toLower { t with images := t.images.store w.image row } w.image
        w.digest = .ok () ∧
      t' = linkManifestBlobs toLower
        (upsertTag (upsertManifest { t with images := t.images.store w.image row } w) w) w := by
  unfold putDockerManifestTx at h
  cases himage : upsertImage t w with
  | error err =>
    rw [himage] at h
    cases h
  | ok t₁ =>
    obtain ⟨row, rfl⟩ := upsertImage_cases himage
    simp only [himage] at h
    cases hlock : ensureResourceMutable toLower { t with images := t.images.store w.image row }
        w.image w.digest with
    | error err =>
      rw [hlock] at h
      cases h
    | ok u =>
      simp only [hlock] at h
      split at h
      · cases h
      · exact ⟨row, hlock, (Except.ok.inj h).symm⟩

theorem upsertTag_imageBlobs (t : Tables) (w : DockerManifestWrite) :
    (upsertTag t w).imageBlobs = t.imageBlobs := by
  unfold upsertTag
  split_ifs <;> rfl

theorem upsertTag_blobs (t : Tables) (w : DockerManifestWrite) :
    (upsertTag t w).blobs = t.blobs := by
  unfold upsertTag
  split_ifs <;> rfl

theorem putDockerManifest_cases {m : DockerManifest} {tag user : Text}
    {mirror : Bool} (h : putDockerManifest toLower t m tag user mirror = .ok t') :
    ∃ w, normalizeDockerManifestWrite toLower m tag user mirror = .ok w ∧
      putDockerManifestTx toLower t w = .ok t' := by
  unfold putDockerManifest at h
  cases hw : normalizeDockerManifestWrite toLower m tag user mirror with
  | error err =>
    rw [hw] at h
    cases h
  | ok w =>
    simp only [hw] at h
    exact ⟨w, rfl, h⟩

theorem normalize_fields {m : DockerManifest} {tag user : Text} {mirror : Bool}
    {w : DockerManifestWrite} (h : normalizeDockerManifestWrite toLower m tag user mirror = .ok w) :
    w.image = m.image ∧ w.digest = rowDigest toLower m.digest ∧ w.digest ≠ [] ∧
      w.blobDigests = m.blobDigests ∧ w.rawJSON = m.rawJSON := by
  simp only [normalizeDockerManifestWrite] at h
  split_ifs at h with hbad
  cases h
  push Not at hbad
  exact ⟨rfl, rfl, hbad.2.2.1, rfl, rfl⟩

theorem recordDockerBlob_imageBlobs (t : Tables) (repository digest : Text) (size : ℤ) :
    (recordDockerBlob toLower t repository digest size).imageBlobs = t.imageBlobs := by
  simp only [recordDockerBlob]
  split_ifs <;> rfl

theorem recordDockerImageBlob_cases {image : ImageKey} {digest : Text}
    (h : recordDockerImageBlob toLower t image digest = .ok t') :
    t' = { t with imageBlobs := t.imageBlobs.store ⟨image, [], rowDigest toLower digest⟩ () } := by
  simp only [recordDockerImageBlob] at h
  split_ifs at h
  split at h
  · cases h
  · exact (Except.ok.inj h).symm

theorem deleteDockerTag_cases {image : ImageKey} {tag : Text}
    (h : deleteDockerTag toLower t image tag = .ok t') :
    t' = { t with tags := t.tags.delete (image, sanitize tag 128) } := by
  simp only [deleteDockerTag] at h
  cases himage : lockDockerImageRow t image with
  | error err =>
    rw [himage] at h
    cases h
  | ok u =>
    simp only [himage] at h
    cases hlock : ensureResourceMutable toLower t image [] with
    | error err =>
      rw [hlock] at h
      cases h
    | ok u =>
      simp only [hlock] at h
      cases htag : ensureDockerTagMutable toLower t image (sanitize tag 128) with
      | error err =>
        rw [htag] at h
        cases h
      | ok u =>
        simp only [htag] at h
        split_ifs at h
        exact (Except.ok.inj h).symm

theorem deleteDockerManifest_cases {image : ImageKey} {digest : Text}
    (h : deleteDockerManifest toLower t image digest = .ok t') :
    ensureResourceMutable toLower t image (rowDigest toLower digest) = .ok () ∧
      t' = { t with
        tags := t.tags.deleteWhere fun k row =>
          decide (k.1 = image) && decide (row.digest = rowDigest toLower digest)
        imageBlobs := t.imageBlobs.deleteWhere fun b _ =>
          decide (b.image = image) && decide (b.manifestDigest = rowDigest toLower digest)
        manifests := t.manifests.delete (image, rowDigest toLower digest) } := by
  simp only [deleteDockerManifest] at h
  cases himage : lockDockerImageRow t image with
  | error err =>
    rw [himage] at h
    cases h
  | ok u =>
    simp only [himage] at h
    cases hlock : ensureResourceMutable toLower t image (rowDigest toLower digest) with
    | error err =>
      rw [hlock] at h
      cases h
    | ok u =>
      simp only [hlock] at h
      split_ifs at h
      exact ⟨rfl, (Except.ok.inj h).symm⟩

theorem deleteDockerBlob_cases {repository digest : Text}
    (h : deleteDockerBlob toLower t repository digest = .ok t') :
    t' = { t with
      imageBlobs := t.imageBlobs.deleteWhere fun b _ =>
        decide (b.image.repository = repository) && decide (b.blobDigest = rowDigest toLower digest)
      blobs := t.blobs.delete (repository, rowDigest toLower digest) } := by
  simp only [deleteDockerBlob] at h
  cases hlock : ensureDockerBlobMutable t repository (rowDigest toLower digest) with
  | error err =>
    rw [hlock] at h
    cases h
  | ok u =>
    simp only [hlock] at h
    exact (Except.ok.inj h).symm

end RenoP.Docker
