import Mathlib.Data.Char
import Mathlib.Data.List.Lex
import RenoP.Index.Frame
import RenoP.Native.Artifacts

/-!
# An upload of a native artifact (internal/service/storage/native_publication.go)

`processNativePublication` checks an upload, saves its row as unpublished, hides the path, replaces
the stored file, and publishes the row at last. One step of it may fail.
-/

namespace RenoP.Native

open RenoP.Database (Text)
open RenoP.Index (FileIndex FileInfo)
open SlashPath (Path)
open Fallible (refuse)

inductive Step where
  | arguments
  | demo
  | context
  | config
  | repositoryMissing
  | formatChanged
  | nativeDB
  | relativePath
  | openTemp
  | statTemp
  | inspect
  | getResource
  | resourceMutable
  | getArtifact
  | checkPermission
  | sameContent
  | removeTemp
  | verifySignature
  | publicationState
  | publicKey
  | reserveQuota
  | commitQuota
  | saveArtifact
  | commitFile
  | rollback
  | versionArtifacts
  | verifyConan
  | createReview
  | publishArtifacts
deriving DecidableEq

inductive PublicationError where
  | failed (step : Step)
  | native (err : NativeError)
  | packageDeprecated
  | redeploymentDenied
  | publicationSealed
  | reviewPermissionDenied
deriving DecidableEq

inductive ReviewPolicy where
  | off
  | newPackages
  | everyVersion
deriving DecidableEq

/-- What `NativePublicationState` finds. -/
structure PublicationReview where
  approved : Bool
  requestedBy : Text

structure NativeUpload where
  repository : Text
  protocol : Text
  username : Text
  relative : Text
  content : List UInt8
  /-- What `Inspect` reads from the content. -/
  name : Text
  version : Text
  policy : ReviewPolicy
  canReplace : Bool
  s3 : Bool
  deprecated : Bool
  review : Option PublicationReview
  /-- `verifyConanFiles` finds all files of the package. -/
  complete : Bool
  /-- The review of the publication waits for a decision. -/
  pending : Bool
  now : ℤ
  modTime : ℤ

structure PublicationResult where
  pending : Bool := false
  nativePending : Bool := false
  reviewPending : Bool := false
deriving DecidableEq

structure PublicationStore where
  tables : Tables
  files : GoMap Path (List UInt8)
  index : FileIndex

section Process

variable (texts : Texts) (env : Accounts) (localPath : Text → Path) (statTime : Path → ℤ)
  (fault : Option Step)

def liftNative {α : Type} : Except NativeError α → Except PublicationError α
  | .ok a => .ok a
  | .error err => .error (.native err)

def step (s : Step) : Except PublicationError Unit := refuse (fault = some s) (.failed s)

def conan : Text := ['c', 'o', 'n', 'a', 'n']

def signedProtocols : List Text := [['a', 'p', 't'], ['a', 'p', 'k'], ['r', 'p', 'm']]

/-- `GetNativeArtifact`: the row and the name of its resource -/
def getNativeArtifact (t : Tables) (repository path : Text) : Option (NativeArtifact × Text) :=
  match t.artifacts.load (texts.nativeID repository path) with
  | none => none
  | some a => (t.resources.load a.resourceID).map fun r => (a, r.name)

def getNativeResource (t : Tables) (repository name : Text) : Except NativeError NativeResource := do
  let id ← nativeKey texts repository name
  match t.resources.load id with
  | none => .error .notFound
  | some r => return r

def pathExistsForUpload (st : PublicationStore) (u : NativeUpload) : Bool :=
  if u.s3 then st.index.hasFile (localPath u.relative) || st.index.hasDir (localPath u.relative)
  else st.files.has (localPath u.relative)

def publishedOrAbsent (previous : Option (NativeArtifact × Text)) : Bool :=
  previous.all fun p => p.1.published

inductive Admission where
  | retried
  | replaces (resource : NativeResource) (previous : Option (NativeArtifact × Text))

def admitPublication (st : PublicationStore) (u : NativeUpload) :
    Except PublicationError Admission := do
  step fault .arguments
  step fault .demo
  step fault .context
  step fault .config
  step fault .repositoryMissing
  step fault .formatChanged
  step fault .nativeDB
  step fault .relativePath
  step fault .openTemp
  step fault .statTemp
  step fault .inspect
  step fault .getResource
  let resource ← liftNative (getNativeResource texts st.tables u.repository u.name)
  refuse (resource.format ≠ u.protocol) (.native .invalid)
  refuse (resource.archived = true ∨ u.deprecated = true) .packageDeprecated
  step fault .resourceMutable
  step fault .getArtifact
  let previous := getNativeArtifact texts st.tables u.repository u.relative
  let existed := pathExistsForUpload localPath st u
  refuse (existed = true ∧ u.canReplace = false ∧ publishedOrAbsent previous = true ∧
    u.protocol ≠ conan) .redeploymentDenied
  let level := if existed = true ∧ publishedOrAbsent previous = true ∧ u.protocol ≠ conan then
    permissionVersion else permissionPublish
  step fault .checkPermission
  let _ ← liftNative (nativePermissionTx texts env st.tables u.repository u.name u.username level)
  if (previous.any fun p => p.1.published) = true ∧ u.protocol = conan then
    step fault .sameContent
    refuse (st.files.load (localPath u.relative) ≠ some u.content) .redeploymentDenied
    step fault .removeTemp
    return .retried
  else
    step fault .verifySignature
    step fault .publicationState
    refuse (u.review.any fun r => r.approved) .publicationSealed
    refuse (u.review.any fun r => !texts.equalFold r.requestedBy u.username) .reviewPermissionDenied
    refuse (signedProtocols.contains u.protocol = true ∧ fault = some .publicKey)
      (.failed .publicKey)
    let needsReview := decide (u.policy = .everyVersion) ||
      (decide (u.policy = .newPackages) && decide (resource.publishedAt = 0))
    refuse (existed = true ∧ needsReview = true ∧ publishedOrAbsent previous = true)
      .publicationSealed
    refuse ((previous.any fun p => decide (p.2 ≠ u.name)) = true) (.native .permission)
    refuse (previous.isNone = true ∧ existed = true) (.native .busy)
    step fault .reserveQuota
    step fault .commitQuota
    return .replaces resource previous

def NativeUpload.artifact (u : NativeUpload) : Upload where
  repository := u.repository
  name := u.name
  version := u.version
  path := u.relative
  size := u.content.length
  createdAt := u.now

/-- A row as the argument of `SaveNativeArtifact`. -/
def NativeArtifact.upload (a : NativeArtifact) (name : Text) : Upload where
  repository := a.repository
  name := name
  version := a.version
  path := a.path
  size := a.size
  createdAt := a.createdAt

def reindexPathIfPresent (st : PublicationStore) (p : Path) : PublicationStore :=
  if st.index.isBlocked p then st
  else
    match st.files.load p with
    | none => st
    | some file =>
      { st with index :=
        (st.index.ensureParentDirs p).insertFile p { size := file.length, modTime := statTime p } }

def release (st : PublicationStore) (p : Path) : PublicationStore :=
  reindexPathIfPresent statTime { st with index := st.index.unblockFile p } p

/-- The row goes back to what it was when the file is not committed. -/
def rollbackPublication (st : PublicationStore) (u : NativeUpload)
    (previous : Option (NativeArtifact × Text)) : PublicationStore :=
  let rolled : Except PublicationError Tables :=
    match step fault .rollback with
    | .error err => .error err
    | .ok () =>
      match previous with
      | some (a, name) =>
        liftNative (saveNativeArtifact texts env st.tables (a.upload name) u.username a.published)
      | none => liftNative (deleteNativeArtifact texts env st.tables u.repository u.relative [])
  match rolled with
  | .error _ => st
  | .ok tables =>
    if publishedOrAbsent previous then release statTime { st with tables } (localPath u.relative)
    else { st with tables }

def nativeVersionArtifacts (t : Tables) (repository name version : Text) :
    Except NativeError (List NativeArtifact) := do
  let id ← nativeKey texts repository name
  let rows := (t.artifacts.entries.map Sigma.snd).filter fun a =>
    decide (a.resourceID = id) && decide (a.version = version) && t.resources.has a.resourceID
  refuse (rows.length > 256) .busy
  return rows.mergeSort fun a b => decide (a.path ≤ b.path)

def publishedPaths (st : PublicationStore) (u : NativeUpload) :
    Except PublicationError (Option (List Text)) := do
  if u.protocol = conan then
    step fault .versionArtifacts
    let artifacts ← liftNative (nativeVersionArtifacts texts st.tables u.repository u.name u.version)
    step fault .verifyConan
    if u.complete then return some (artifacts.map fun a => a.path) else return none
  else return some [u.relative]

def finishPublication (st : PublicationStore) (u : NativeUpload) :
    Except PublicationError PublicationResult × PublicationStore :=
  match publishedPaths texts fault st u with
  | .error err => (.error err, st)
  | .ok none => (.ok { pending := true, nativePending := true }, st)
  | .ok (some paths) =>
    if fault = some .createReview then (.error (.failed .createReview), st)
    else if u.pending then (.ok { pending := true, reviewPending := true }, st)
    else if fault = some .publishArtifacts then (.error (.failed .publishArtifacts), st)
    else
      match publishNativeArtifacts texts env st.tables u.repository u.name u.version u.username paths
        u.now with
      | .error err => (.error (.native err), st)
      | .ok tables =>
        (.ok {}, (paths.map localPath).foldl (release statTime) { st with tables })

def processNativePublication (st : PublicationStore) (u : NativeUpload) :
    Except PublicationError PublicationResult × PublicationStore :=
  match admitPublication texts env localPath fault st u with
  | .error err => (.error err, st)
  | .ok .retried => (.ok {}, st)
  | .ok (.replaces _ previous) =>
    if fault = some .saveArtifact then (.error (.failed .saveArtifact), st)
    else
      match saveNativeArtifact texts env st.tables u.artifact u.username false with
      | .error err => (.error (.native err), st)
      | .ok tables =>
        let path := localPath u.relative
        let st := { st with tables, index := st.index.blockFile path }
        if fault = some .commitFile then
          (.error (.failed .commitFile),
            rollbackPublication texts env localPath statTime fault st u previous)
        else
          let index := (st.index.ensureParentDirs path).insertFile path
            { size := u.content.length, modTime := u.modTime }
          finishPublication texts env localPath statTime fault
            { st with files := st.files.store path u.content, index } u

end Process

end RenoP.Native
