import RenoP.Docker.ImageAccess
import RenoP.Docker.Registry

/-!
# Deletion of a blob through one image

`HandleDeleteBlob` of `internal/service/docker/handler.go` from the name in its path on.
-/

namespace RenoP.Docker

open RenoP.Database (Text)

structure BlobStore where
  images : ImageStore
  /-- the repositories of the format `docker`, with their visibility -/
  repositories : GoMap Text Text
  /-- the sizes of the files `blobs/sha256/<hash>` of each repository -/
  files : GoMap (Text × Text) ℤ

structure BlobRequest where
  user : User
  /-- the scope of the credential, or the access entry of the bearer token, has the action -/
  granted : Bool
  name : Text
  digest : Text
  storeFails : Bool

def BlobRequest.repository (r : BlobRequest) : Text := (parseRepositoryAndImage r.name).1

variable (toLower : Char → Char)

def BlobRequest.image (r : BlobRequest) : ImageKey :=
  sanitizeDockerKey toLower r.repository (parseRepositoryAndImage r.name).2

/-- `getRepo`, then `authenticateAndAuthorize` of a write; `CanWriteDocker` asks once more what
`mutateImage` has asked. -/
def BlobStore.authorises (st : BlobStore) (r : BlobRequest) : Bool :=
  st.repositories.has r.repository && r.granted &&
    st.images.canWriteDocker toLower r.user r.repository r.name

/-- The blob that `BlobExists` and `OpenBlob` look for. -/
def blobFile (repository digest : Text) : Text × Text := (repository, cleanDigestHash toLower digest)

def BlobStore.setTables (st : BlobStore) (tables : Tables) : BlobStore :=
  { st with images := { st.images with tables := tables } }

def BlobStore.deleteFile (st : BlobStore) (repository digest : Text) : BlobStore :=
  { st with files := st.files.delete (blobFile toLower repository digest) }

def BlobStore.handleDeleteBlob (st : BlobStore) (r : BlobRequest) : BlobStore :=
  if !st.authorises toLower r then st
  else match deleteDockerBlob toLower st.images.tables (r.image toLower).repository r.digest with
  | .error _ => st
  | .ok tables =>
    if r.storeFails then st.setTables tables
    else (st.setTables tables).deleteFile toLower r.repository r.digest

variable {toLower}

/-- An image of the request's repository, other than the request's, that the caller may not write. -/
def BlobStore.Foreign (toLower : Char → Char) (st : BlobStore) (r : BlobRequest) (b : ImageKey) :
    Prop :=
  b.repository = (r.image toLower).repository ∧ b ≠ r.image toLower ∧
    st.images.tables.images.has b = true ∧
    st.images.canWriteDocker toLower r.user r.repository (r.repository ++ '/' :: b.name) = false

def BlobStore.OthersKept (toLower : Char → Char) (st : BlobStore) (r : BlobRequest) : Prop :=
  st.authorises toLower r = true → ∀ b, st.Foreign toLower r b →
    dockerImageReferencesBlob toLower st.images.tables b r.digest = true →
    dockerImageReferencesBlob toLower (st.handleDeleteBlob toLower r).images.tables b r.digest = true ∧
    (st.handleDeleteBlob toLower r).files.load (blobFile toLower r.repository r.digest) =
      st.files.load (blobFile toLower r.repository r.digest)

def BlobStore.Unshared (toLower : Char → Char) (st : BlobStore) (r : BlobRequest) : Prop :=
  st.authorises toLower r = true →
    ensureDockerBlobMutable st.images.tables (r.image toLower).repository
      (rowDigest toLower r.digest) = .ok () →
    ∀ b, st.Foreign toLower r b →
      dockerImageReferencesBlob toLower st.images.tables b r.digest = false

theorem not_references_of_deleteDockerBlob {t t' : Tables} {repository digest : Text}
    (h : deleteDockerBlob toLower t repository digest = .ok t') {b : ImageKey}
    (hb : b.repository = repository) : dockerImageReferencesBlob toLower t' b digest = false := by
  obtain rfl := deleteDockerBlob_cases h
  rw [Bool.eq_false_iff]
  intro href
  simp only [dockerImageReferencesBlob, GoMap.deleteWhere, List.any_eq_true, List.mem_filter,
    Bool.and_eq_true, decide_eq_true_eq, Bool.not_eq_true', Bool.and_eq_false_iff,
    decide_eq_false_iff_not] at href
  obtain ⟨link, ⟨-, hkept⟩, himage, hdigest⟩ := href
  rcases hkept with hrepository | hblob
  · exact hrepository (by rw [himage, hb])
  · exact hblob hdigest

theorem deleteDockerBlob_of_mutable {t : Tables} {repository digest : Text}
    (h : ensureDockerBlobMutable t repository (rowDigest toLower digest) = .ok ()) :
    ∃ t', deleteDockerBlob toLower t repository digest = .ok t' := by
  unfold deleteDockerBlob
  simp only [h]
  exact ⟨_, rfl⟩

theorem deleteDockerBlob_of_locked {t : Tables} {repository digest : Text} {err : DockerError}
    (h : ensureDockerBlobMutable t repository (rowDigest toLower digest) = .error err) :
    deleteDockerBlob toLower t repository digest = .error err := by
  unfold deleteDockerBlob
  simp only [h]

theorem BlobStore.handleDeleteBlob_of_locked {st : BlobStore} {r : BlobRequest} {err : DockerError}
    (h : ensureDockerBlobMutable st.images.tables (r.image toLower).repository
      (rowDigest toLower r.digest) = .error err) : st.handleDeleteBlob toLower r = st := by
  unfold BlobStore.handleDeleteBlob
  rw [deleteDockerBlob_of_locked h]
  split_ifs <;> rfl

theorem BlobStore.handleDeleteBlob_of_mutable {st : BlobStore} {r : BlobRequest}
    (hauth : st.authorises toLower r = true)
    (h : ensureDockerBlobMutable st.images.tables (r.image toLower).repository
      (rowDigest toLower r.digest) = .ok ()) {b : ImageKey}
    (hb : b.repository = (r.image toLower).repository) :
    dockerImageReferencesBlob toLower (st.handleDeleteBlob toLower r).images.tables b r.digest =
      false := by
  obtain ⟨t, ht⟩ := deleteDockerBlob_of_mutable h
  have htables : (st.handleDeleteBlob toLower r).images.tables = t := by
    unfold BlobStore.handleDeleteBlob
    simp only [hauth, ht, Bool.not_true, Bool.false_eq_true, if_false]
    split_ifs <;> rfl
  rw [htables]
  exact not_references_of_deleteDockerBlob ht hb

/-- A deletion spares the other images exactly where none of them shares the blob or a lock
covers it. -/
theorem others_kept_iff_unshared (toLower : Char → Char) (st : BlobStore) (r : BlobRequest) :
    st.OthersKept toLower r ↔ st.Unshared toLower r := by
  constructor
  · intro hkept hauth hmutable b hb
    rw [Bool.eq_false_iff]
    intro href
    have hlost := BlobStore.handleDeleteBlob_of_mutable hauth hmutable hb.1
    rw [(hkept hauth b hb href).1] at hlost
    cases hlost
  · intro hunshared hauth b hb href
    cases hmutable : ensureDockerBlobMutable st.images.tables (r.image toLower).repository
        (rowDigest toLower r.digest) with
    | error err =>
      rw [BlobStore.handleDeleteBlob_of_locked hmutable]
      exact ⟨href, rfl⟩
    | ok u =>
      have hnone := hunshared hauth hmutable b hb
      rw [href] at hnone
      cases hnone

def sharedLayer : Text := digestPrefix ++ ['0', '0']

def imageA : ImageKey := ⟨['r'], ['a']⟩
def imageB : ImageKey := ⟨['r'], ['b']⟩

def sharedTables : Tables where
  images := (GoMap.store ∅ imageA ⟨['u'], [], true⟩).store imageB ⟨['v'], [], true⟩
  manifests := ∅
  tags := ∅
  blobs := GoMap.store ∅ (['r'], sharedLayer) 4
  imageBlobs := (GoMap.store ∅ ⟨imageA, [], sharedLayer⟩ ()).store ⟨imageB, [], sharedLayer⟩ ()
  locks := ∅
  lockVersions := ∅

def sharedStore : BlobStore where
  images := {
    tables := sharedTables
    privateImages := fun _ => false
    members := GoMap.store ∅ (imageA, ['1']) 1
    superTeamMembers := ∅
    profiles := GoMap.store ∅ ['u'] ['1']
    deprecated := fun _ => false
    members_named := by
      intro image
      rw [GoMap.load_store_ne _ _ (by simp), GoMap.load_empty]
    superTeamMembers_named := superTeamMembers_of_empty }
  repositories := GoMap.store ∅ ['r'] visPublic
  files := GoMap.store ∅ (['r'], ['0', '0']) 4

/-- A publisher of `r/a` deletes the layer that `r/b` shares. -/
def sharedRequest : BlobRequest := ⟨⟨['u'], []⟩, true, ['r', '/', 'a'], sharedLayer, false⟩

theorem deletion_breaks_other : ¬ sharedStore.OthersKept Char.toLower sharedRequest := by
  intro hkept
  have hauth : sharedStore.authorises Char.toLower sharedRequest = true := by decide +kernel
  have hforeign : sharedStore.Foreign Char.toLower sharedRequest imageB := by
    refine ⟨rfl, ?_, ?_, ?_⟩
    · decide +kernel
    · decide +kernel
    · decide +kernel
  obtain ⟨hreference, -⟩ := hkept hauth imageB hforeign (by decide +kernel)
  have hlost : dockerImageReferencesBlob Char.toLower
      (sharedStore.handleDeleteBlob Char.toLower sharedRequest).images.tables imageB
      sharedLayer = false := by decide +kernel
  rw [show sharedRequest.digest = sharedLayer from rfl, hlost] at hreference
  cases hreference

end RenoP.Docker
