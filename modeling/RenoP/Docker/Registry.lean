import RenoP.Docker.Tables
import RenoP.Lib.Runs

/-!
# Blob and manifest requests of a registry

The handlers of `internal/service/docker/handler.go` over the Docker tables and the blob files of
`internal/service/storage/docker_store.go`. A request is one step. `sum256` is SHA-256,
`unicode.ToLower` and the answers of `CanReadDocker` and `CanWriteDocker` come from outside; the
access of users, the images and the locks may change at any time between two requests.
-/

namespace RenoP.Docker

open RenoP.Database (Text trimSpace)

def hexDigits : Text :=
  ['0', '1', '2', '3', '4', '5', '6', '7', '8', '9', 'a', 'b', 'c', 'd', 'e', 'f']

def hexDigit (n : ℕ) : Char := hexDigits.getD n '0'

def hexEncode (bytes : List UInt8) : Text :=
  bytes.flatMap fun b => [hexDigit (b.toNat / 16), hexDigit (b.toNat % 16)]

def calculateDigest (sum256 : List UInt8 → Fin 32 → UInt8) (body : List UInt8) : Text :=
  digestPrefix ++ hexEncode (List.ofFn (sum256 body))

/-- `cleanDigestHash`, the name of a blob's file in its repository. -/
def cleanDigestHash (toLower : Char → Char) (digest : Text) : Text :=
  let digest := trimSpace digest
  let hash := if ':' ∈ digest then (digest.dropWhile fun c => c ≠ ':').drop 1 else digest
  hash.map toLower

structure Access where
  canRead : Text → ImageKey → Bool
  canWrite : Text → ImageKey → Bool

structure ParsedManifest where
  digest : Text
  mediaType : Text
  size : ℤ
  configDigest : Text
  layers : List Text
  isIndex : Bool
  rawJSON : Text

def referencedBlobDigests (m : ParsedManifest) : List Text :=
  if m.isIndex then []
  else (if m.configDigest = [] then [] else [m.configDigest]) ++ m.layers.filter fun d => d ≠ []

structure Registry where
  tables : Tables
  /-- the sizes of the files `blobs/sha256/<hash>` of each repository -/
  files : GoMap (Text × Text) ℤ
  access : Access

inductive Request where
  /-- other parts of the program change images, access and locks -/
  | environment (access : Access) (images : GoMap ImageKey ImageRow)
      (locks : GoMap (LockTarget × LockSource) LockMode)
      (lockVersions : GoMap ((LockTarget × LockSource) × Text) Unit)
  /-- POST with a digest, or the PUT after its PATCHes; `body` is what was staged -/
  | upload (user : Text) (image : ImageKey) (digest : Text) (body : List UInt8)
  | mount (user : Text) (image : ImageKey) (digest : Text) (source : ImageKey)
  /-- `refused`: the quota, a review or the capacity stands in the way -/
  | putManifest (user : Text) (image : ImageKey) (parsed : ParsedManifest) (tag : Text)
      (refused : Bool)
  | deleteManifest (user : Text) (image : ImageKey) (reference : Text)
  | deleteBlob (user : Text) (image : ImageKey) (digest : Text) (storeFails : Bool)

variable (toLower : Char → Char) (sum256 : List UInt8 → Fin 32 → UInt8)

def Registry.blobExists (reg : Registry) (repository digest : Text) : Bool :=
  reg.files.has (repository, cleanDigestHash toLower digest)

/-- An upload that passes the checks before `CommitBlob`. -/
def Registry.commits (reg : Registry) (user : Text) (image : ImageKey) (digest : Text)
    (body : List UInt8) : Bool :=
  reg.access.canWrite user image && decide (calculateDigest sum256 body = digest) &&
    (ensureDockerBlobMutable reg.tables image.repository digest).isOk

def handleUpload (reg : Registry) (user : Text) (image : ImageKey) (digest : Text)
    (body : List UInt8) : Registry :=
  if !reg.commits sum256 user image digest body then reg
  else
    let files := reg.files.store (image.repository, cleanDigestHash toLower digest) body.length
    let tables := recordDockerBlob toLower reg.tables image.repository digest body.length
    match recordDockerImageBlob toLower tables image digest with
    | .error _ => { reg with files := files, tables := tables }
    | .ok tables => { reg with files := files, tables := tables }

def Registry.mountable (reg : Registry) (user : Text) (image : ImageKey) (digest : Text)
    (source : ImageKey) : Bool :=
  reg.access.canWrite user image && reg.access.canRead user source &&
    (match readLocked toLower reg.tables source digest with
      | .error _ => false
      | .ok locked => !locked) &&
    dockerImageReferencesBlob toLower reg.tables source digest &&
    reg.blobExists toLower source.repository digest

def handleMount (reg : Registry) (user : Text) (image : ImageKey) (digest : Text)
    (source : ImageKey) : Registry :=
  if !reg.mountable toLower user image digest source then reg
  else
    let size := (reg.files.load (source.repository, cleanDigestHash toLower digest)).getD 0
    let tables := recordDockerBlob toLower reg.tables image.repository digest size
    match recordDockerImageBlob toLower tables image digest with
    | .error _ => { reg with tables := tables }
    | .ok tables => { reg with tables := tables }

def ParsedManifest.record (image : ImageKey) (m : ParsedManifest) : DockerManifest where
  image := image
  digest := m.digest
  mediaType := m.mediaType
  size := m.size
  configDigest := m.configDigest
  blobDigests := referencedBlobDigests m
  rawJSON := m.rawJSON

def ensureDockerManifestMutable (t : Tables) (image : ImageKey) (digest tag : Text) :
    Except DockerError Unit :=
  match ensureResourceMutable toLower t image digest with
  | .error err => .error err
  | .ok () => if tag = [] then .ok () else ensureDockerTagMutable toLower t image tag

/-- The tables that a manifest put leaves, `none` when it is refused. -/
def Registry.putManifest (reg : Registry) (user : Text) (image : ImageKey) (parsed : ParsedManifest)
    (tag : Text) (refused : Bool) : Option Tables :=
  if !reg.access.canWrite user image || refused then none
  else match ensureDockerManifestMutable toLower reg.tables image parsed.digest tag with
  | .error _ => none
  | .ok () => (putDockerManifest toLower reg.tables (parsed.record image) tag user false).toOption

def handlePutManifest (reg : Registry) (user : Text) (image : ImageKey) (parsed : ParsedManifest)
    (tag : Text) (refused : Bool) : Registry :=
  match reg.putManifest toLower user image parsed tag refused with
  | none => reg
  | some tables => { reg with tables := tables }

def handleDeleteManifest (reg : Registry) (user : Text) (image : ImageKey) (reference : Text) :
    Registry :=
  if !reg.access.canWrite user image then reg
  else
    let deleted :=
      if digestPrefix.isPrefixOf reference then
        deleteDockerManifest toLower reg.tables image reference
      else deleteDockerTag toLower reg.tables image reference
    match deleted with
    | .error _ => reg
    | .ok tables => { reg with tables := tables }

def handleDeleteBlob (reg : Registry) (user : Text) (image : ImageKey) (digest : Text)
    (storeFails : Bool) : Registry :=
  if !reg.access.canWrite user image then reg
  else match deleteDockerBlob toLower reg.tables image.repository digest with
  | .error _ => reg
  | .ok tables =>
    let reg := { reg with tables := tables }
    if storeFails then reg
    else { reg with
      files := reg.files.delete (image.repository, cleanDigestHash toLower digest) }

def Registry.next (reg : Registry) : Request → Registry
  | .environment access images locks lockVersions => { reg with
      access := access
      tables := { reg.tables with images := images, locks := locks, lockVersions := lockVersions } }
  | .upload user image digest body => handleUpload toLower sum256 reg user image digest body
  | .mount user image digest source => handleMount toLower reg user image digest source
  | .putManifest user image parsed tag refused =>
    handlePutManifest toLower reg user image parsed tag refused
  | .deleteManifest user image reference => handleDeleteManifest toLower reg user image reference
  | .deleteBlob user image digest storeFails =>
    handleDeleteBlob toLower reg user image digest storeFails

end RenoP.Docker
