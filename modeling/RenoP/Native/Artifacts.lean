import RenoP.Lib.Fallible
import RenoP.Database.PublicationQuota

/-!
# Native resources

The tables of `internal/database/native_schema.go` and the calls of `native.go` on resources and
their members. Every call runs in one transaction under the native mutation lock, so a call that
fails changes nothing.
-/

namespace RenoP.Native

open RenoP.Database (Text)
open Fallible (refuse)

def permissionPublish : ℤ := 1
def permissionVersion : ℤ := 2
def permissionManage : ℤ := 3
def permissionOwner : ℤ := 4

inductive NativeError where
  | invalid
  | notFound
  | exists
  | permission
  | lastOwner
  | busy
  | accountDeleted
  | profileNotFound
  | duplicateRow
  | reviewResourceConflict
  | reviewInvalidRequest
  deriving DecidableEq

structure NativeResource where
  repository : Text
  format : Text
  name : Text
  description : Text
  signingKey : Text
  createdAt : ℤ
  publishedAt : ℤ
  archived : Bool
  deriving DecidableEq

structure NativeArtifact where
  resourceID : Text
  repository : Text
  path : Text
  version : Text
  size : ℤ
  createdAt : ℤ
  published : Bool
  deriving DecidableEq

structure Tables where
  resources : GoMap Text NativeResource
  members : GoMap (Text × Text) ℤ
  artifacts : GoMap Text NativeArtifact

def Tables.empty : Tables := ⟨∅, ∅, ∅⟩

structure Texts where
  /-- `nativeID`, a SHA-256 digest -/
  nativeID : Text → Text → Text
  validRepository : Text → Bool
  validName : Text → Bool
  sanitizePath : Text → Option Text
  toLower : Text → Text
  equalFold : Text → Text → Bool
  /-- The protocol of a repository engine whose resources are managed here. -/
  managedProtocol : Text → Option Text
  /-- `text LIKE prefix%` in the database, where the prefix is escaped -/
  likePrefix : Text → Text → Bool

structure AccountToken where
  deletedAt : ℤ
  banned : Bool
  expiresAt : Option ℤ
  isManager : Bool
  canUpdate : Text → Bool

/-- What a call finds in `user_profiles` and `tokens`, and the clock. -/
structure Accounts where
  profile : Text → Option Text
  token : Text → Option AccountToken
  now : ℤ

variable (texts : Texts) (env : Accounts)

def Texts.normalize (username : Text) : Text :=
  texts.toLower (RenoP.Database.trimSpace username)

def nativeKey (repository name : Text) : Except NativeError Text :=
  if texts.validRepository repository && texts.validName name then
    .ok (texts.nativeID repository name)
  else .error .invalid

def lockAccountByUsernameTx (username : Text) : Except NativeError Unit :=
  match env.profile (texts.toLower username), env.token (texts.toLower username) with
  | some _, some token => refuse (token.deletedAt > 0) .accountDeleted
  | _, _ => .ok ()

def userIDForUsernameTx (username : Text) : Except NativeError Text :=
  match env.profile (texts.normalize username) with
  | none => .error .profileNotFound
  | some userID =>
    match env.token (texts.normalize username) with
    | none => .ok userID
    | some token => if token.deletedAt > 0 then .error .profileNotFound else .ok userID

def AccountToken.inactive (token : AccountToken) (now : ℤ) : Bool :=
  token.deletedAt != 0 || token.banned || token.expiresAt.any fun expiresAt => decide (expiresAt ≤ now)

def nativeActorTx (actor : Text) : Except NativeError (Text × AccountToken) := do
  let actor := texts.normalize actor
  refuse (actor = [] ∨ actor = ['g', 'u', 'e', 's', 't']) .permission
  lockAccountByUsernameTx texts env actor
  match env.token actor with
  | none => .error .permission
  | some token =>
    if token.inactive env.now then .error .permission
    else
      match userIDForUsernameTx texts env actor with
      | .error _ => .error .permission
      | .ok userID => .ok (userID, token)

/-- `nativePermissionTx`: the user and the level that the user has on the resource -/
def nativePermissionTx (t : Tables) (repository name actor : Text) (required : ℤ) :
    Except NativeError (Text × ℤ) := do
  let id ← nativeKey texts repository name
  let (userID, user) ← nativeActorTx texts env actor
  refuse (t.resources.has id = false) .notFound
  if user.isManager then return (userID, permissionOwner)
  else
    match t.members.load (id, userID) with
    | none => .error .permission
    | some level => if level < required then .error .permission else return (userID, level)

def createNativeResource (t : Tables) (repository format name actor : Text) (now : ℤ) :
    Except NativeError Tables := do
  let id ← nativeKey texts repository name
  match texts.managedProtocol format with
  | none => .error .invalid
  | some protocol =>
    refuse (now ≤ 0) .invalid
    let (userID, user) ← nativeActorTx texts env actor
    refuse (user.canUpdate repository = false) .permission
    refuse (t.resources.has id = true) .exists
    refuse (t.resources.count (fun _ r => decide (r.repository = repository)) ≥ 10000) .busy
    refuse (t.members.has (id, userID) = true) .duplicateRow
    return { t with
      resources := t.resources.store id ⟨repository, protocol, name, [], [], now, 0, false⟩
      members := t.members.store (id, userID) permissionOwner }

/-- The locks on the accounts of `SetNativeMember`. A deleted target does not stop a removal here. -/
def lockMemberAccounts (actor target : Text) (level : ℤ) : List Text → Except NativeError Unit
  | [] => .ok ()
  | username :: usernames =>
    match lockAccountByUsernameTx texts env username with
    | .ok () => lockMemberAccounts actor target level usernames
    | .error err =>
      if level = -1 ∧ username ≠ texts.toLower actor ∧ err = .accountDeleted then
        lockMemberAccounts actor target level usernames
      else .error err

def Tables.otherOwners (t : Tables) (id userID : Text) : ℕ :=
  t.members.count fun k level =>
    decide (k.1 = id) && decide (level = permissionOwner) && decide (k.2 ≠ userID)

def Tables.memberCount (t : Tables) (id : Text) : ℕ :=
  t.members.count fun k _ => decide (k.1 = id)

def writeMember (t : Tables) (id targetID : Text) (old level : ℤ) : Except NativeError Tables := do
  if old = -1 ∧ level ≥ 0 then
    refuse (t.memberCount id ≥ 100) .busy
    refuse (t.members.has (id, targetID) = true) .duplicateRow
    return { t with members := t.members.store (id, targetID) level }
  else if level = -1 then return { t with members := t.members.delete (id, targetID) }
  else
    return { t with
      members := t.members.updateWhere (fun k _ => decide (k = (id, targetID))) fun _ _ => level }

def checkTarget (target : Text) (level : ℤ) : Except NativeError Unit :=
  if level ≥ 0 then (nativeActorTx texts env target).map fun _ => () else .ok ()

def setNativeMember (t : Tables) (repository name actor target : Text) (level now : ℤ) :
    Except NativeError Tables := do
  refuse (level < -1 ∨ level > permissionOwner ∨ now ≤ 0) .invalid
  refuse (texts.equalFold actor target = true ∧ level ≥ 0) .permission
  lockMemberAccounts texts env actor target level
    [texts.normalize actor, texts.normalize target].dedup
  let (_, actorLevel) ← nativePermissionTx texts env t repository name actor permissionManage
  let targetID ← userIDForUsernameTx texts env target
  checkTarget texts env target level
  let id := texts.nativeID repository name
  let old := (t.members.load (id, targetID)).getD (-1)
  refuse ((level = permissionOwner ∨ old = permissionOwner) ∧ actorLevel < permissionOwner) .permission
  refuse (old = permissionOwner ∧ level ≠ old ∧ t.otherOwners id targetID = 0) .lastOwner
  writeMember t id targetID old level

/-- `DeleteNativeResource`, where `pending` is what `hasPendingPackageReviewTx` finds -/
def deleteNativeResource (t : Tables) (repository name actor : Text) (pending : Bool) :
    Except NativeError Tables := do
  let (_, user) ← nativeActorTx texts env actor
  let _ ← nativePermissionTx texts env t repository name actor permissionOwner
  let id := texts.nativeID repository name
  refuse (t.artifacts.count (fun _ a => decide (a.resourceID = id)) ≠ 0 ∧ user.isManager = false) .busy
  refuse (pending = true) .busy
  return {
    artifacts := t.artifacts.deleteWhere fun _ a => decide (a.resourceID = id)
    members := t.members.deleteWhere fun k _ => decide (k.1 = id)
    resources := t.resources.delete id }

def deleteNativeRepository (t : Tables) (repository : Text) : Except NativeError Tables := do
  refuse (texts.validRepository repository = false) .invalid
  refuse (t.resources.count (fun _ r => decide (r.repository = repository)) > 10000) .busy
  return {
    members := t.members.deleteWhere fun k _ =>
      (t.resources.load k.1).any fun r => decide (r.repository = repository)
    artifacts := t.artifacts.deleteWhere fun _ a => decide (a.repository = repository)
    resources := t.resources.deleteWhere fun _ r => decide (r.repository = repository) }

def updateNativeResource (t : Tables) (repository name actor description signingKey : Text) :
    Except NativeError Tables := do
  refuse ((description.map Char.utf8Size).sum > 4096 ∨ '\x00' ∈ description ∨
    (signingKey.map Char.utf8Size).sum > 65536) .invalid
  let _ ← nativePermissionTx texts env t repository name actor permissionManage
  let id := texts.nativeID repository name
  return { t with
    resources := t.resources.updateWhere (fun k _ => decide (k = id)) fun _ r =>
      { r with description := description, signingKey := signingKey } }

def setNativeResourceArchived (t : Tables) (repository name actor : Text) (archived : Bool) :
    Except NativeError Tables := do
  let _ ← nativePermissionTx texts env t repository name actor permissionManage
  let id := texts.nativeID repository name
  return { t with
    resources := t.resources.updateWhere (fun k _ => decide (k = id)) fun _ r =>
      { r with archived := archived } }

end RenoP.Native

/-!
## Native artifacts

The calls of `internal/database/native.go` on artifacts, and all calls on the tables. The approval
of a review brings the repository, the resource, the version and the file paths of its task.
-/

namespace RenoP.Native

open RenoP.Database (Text)
open Fallible (refuse)

variable (texts : Texts) (env : Accounts)

def byteLength (text : Text) : ℕ := (text.map Char.utf8Size).sum

structure Upload where
  repository : Text
  name : Text
  version : Text
  path : Text
  size : ℤ
  createdAt : ℤ

def validNativeArtifact (artifact : Upload) : Bool :=
  texts.sanitizePath artifact.path == some artifact.path && decide (0 < byteLength artifact.path) &&
    decide (byteLength artifact.path ≤ 1024) && decide (0 < byteLength artifact.version) &&
    decide (byteLength artifact.version ≤ 255) &&
    !artifact.version.any (fun c => c == '\x00' || c == '\r' || c == '\n') &&
    decide (0 ≤ artifact.size) && decide (0 < artifact.createdAt)

def setPublishedAt (resources : GoMap Text NativeResource) (id : Text) (now : ℤ) :
    GoMap Text NativeResource :=
  resources.updateWhere (fun k r => decide (k = id) && decide (r.publishedAt = 0)) fun _ r =>
    { r with publishedAt := now }

def saveRow (t : Tables) (resourceID : Text) (artifact : Upload) (published : Bool) :
    Except NativeError Tables := do
  let id := texts.nativeID artifact.repository artifact.path
  match t.artifacts.load id with
  | some old =>
    refuse (old.resourceID ≠ resourceID) .permission
    return { t with artifacts := t.artifacts.store id { old with
      version := artifact.version, size := artifact.size, createdAt := artifact.createdAt,
      published := published } }
  | none =>
    refuse (published = false ∧ t.artifacts.count (fun _ a =>
      decide (a.resourceID = resourceID) && !a.published) ≥ 256) .busy
    refuse (published = false ∧ t.artifacts.count (fun _ a => !a.published) ≥ 16384) .busy
    return { t with artifacts := t.artifacts.store id ⟨resourceID, artifact.repository, artifact.path,
      artifact.version, artifact.size, artifact.createdAt, published⟩ }

def saveNativeArtifact (t : Tables) (artifact : Upload) (actor : Text) (published : Bool) :
    Except NativeError Tables := do
  refuse (validNativeArtifact texts artifact = false) .invalid
  let _ ← nativePermissionTx texts env t artifact.repository artifact.name actor permissionPublish
  let resourceID := texts.nativeID artifact.repository artifact.name
  let t ← saveRow texts t resourceID artifact published
  if published then
    return { t with resources := setPublishedAt t.resources resourceID artifact.createdAt }
  else return t

/-- `UPDATE native_artifacts SET published = 1 WHERE id = ? AND resource_id = ?` -/
def markPublished (artifacts : GoMap Text NativeArtifact) (id resourceID : Text) :
    GoMap Text NativeArtifact :=
  artifacts.updateWhere (fun k a => decide (k = id) && decide (a.resourceID = resourceID)) fun _ a =>
    { a with published := true }

/-- The turn of a path in the loops of `PublishNativeArtifacts` and `publishNativeReviewTx`, which
fail differently where the path is not an artifact of the resource and version. -/
def publishPath (repository resourceID version : Text) (err : NativeError)
    (artifacts : GoMap Text NativeArtifact) (path : Text) :
    Except NativeError (GoMap Text NativeArtifact) := do
  let id := texts.nativeID repository path
  match artifacts.load id with
  | none => .error err
  | some a =>
    refuse (a.resourceID ≠ resourceID ∨ a.version ≠ version) err
    return markPublished artifacts id resourceID

def publishNativeArtifacts (t : Tables) (repository name version actor : Text) (paths : List Text)
    (now : ℤ) : Except NativeError Tables := do
  refuse (paths.length = 0 ∨ paths.length > 256) .invalid
  let _ ← nativePermissionTx texts env t repository name actor permissionPublish
  let id := texts.nativeID repository name
  let artifacts ← paths.foldlM (publishPath texts repository id version .invalid) t.artifacts
  return { t with artifacts := artifacts, resources := setPublishedAt t.resources id now }

structure ReviewedVersion where
  repository : Text
  resourceKey : Text
  resourceVersion : Text
  requestedBy : Text
  paths : List Text

def publishNativeReviewTx (t : Tables) (task : ReviewedVersion) (now : ℤ) :
    Except NativeError Tables := do
  let id ← nativeKey texts task.repository task.resourceKey
  refuse (task.paths.length = 0) .reviewInvalidRequest
  let artifacts ← task.paths.foldlM (publishPath texts task.repository id task.resourceVersion
    .reviewResourceConflict) t.artifacts
  return { t with artifacts := artifacts, resources := setPublishedAt t.resources id now }

/-- The approval in `DecideReviewTask`, from the requester's permission on. -/
def approveNativeReview (t : Tables) (task : ReviewedVersion) (now : ℤ) :
    Except NativeError Tables := do
  let _ ← nativePermissionTx texts env t task.repository task.resourceKey task.requestedBy
    permissionPublish
  publishNativeReviewTx texts t task now

/-- `DeleteNativeArtifact`; no permission is asked of the empty actor. An artifact without its
resource counts as absent. -/
def deleteNativeArtifact (t : Tables) (repository path actor : Text) : Except NativeError Tables :=
  let id := texts.nativeID repository path
  match t.artifacts.load id with
  | none => .ok t
  | some a =>
    match t.resources.load a.resourceID with
    | none => .ok t
    | some r =>
      if actor = [] then .ok { t with artifacts := t.artifacts.delete id }
      else do
        let _ ← nativePermissionTx texts env t repository r.name actor permissionVersion
        return { t with artifacts := t.artifacts.delete id }

def trimSuffixSlash (text : Text) : Text :=
  if text.getLast? = some '/' then text.dropLast else text

def deleteNativeArtifactsUnder (t : Tables) (repository pre : Text) :
    Except NativeError Tables := do
  refuse (texts.validRepository repository = false ∨ pre = [] ∨ pre = ['/']) .invalid
  return { t with
    artifacts := t.artifacts.deleteWhere fun _ a => decide (a.repository = repository) &&
      (decide (a.path = pre) || texts.likePrefix a.path (trimSuffixSlash pre ++ ['/'])) }

/-- The condition of `DeleteNativeVersionArtifacts` on a row. -/
def ofVersion (t : Tables) (id version : Text) (a : NativeArtifact) : Bool :=
  decide (a.resourceID = id) && t.resources.has a.resourceID && (decide (a.version = version) ||
    texts.likePrefix a.version (version ++ ['/']) || texts.likePrefix a.version (version ++ ['#']))

/-- `DeleteNativeVersionArtifacts`; its rows are deleted by the ids of their paths, and no
transaction undoes the deletions before a failure, so that any of them may be made. -/
def deleteNativeVersionArtifacts (t : Tables) (repository name version : Text) (made : ℕ) :
    Except NativeError Tables := do
  let id ← nativeKey texts repository name
  refuse (version = [] ∨ byteLength version > 255) .invalid
  let rows := t.artifacts.entries.filter fun e => ofVersion texts t id version e.2
  let ids := rows.map fun e => texts.nativeID repository e.2.path
  return { t with artifacts := (ids.take made).foldl GoMap.delete t.artifacts }

inductive ResourceCall where
  | createNativeResource (repository format name actor : Text) (now : ℤ)
  | setNativeMember (repository name actor target : Text) (level now : ℤ)
  | deleteNativeResource (repository name actor : Text) (pending : Bool)

inductive Call where
  | resource (call : ResourceCall)
  | updateNativeResource (repository name actor description signingKey : Text)
  | setNativeResourceArchived (repository name actor : Text) (archived : Bool)
  | deleteNativeRepository (repository : Text)
  | saveNativeArtifact (artifact : Upload) (actor : Text) (published : Bool)
  | publishNativeArtifacts (repository name version actor : Text) (paths : List Text) (now : ℤ)
  | approveNativeReview (task : ReviewedVersion) (now : ℤ)
  | deleteNativeArtifact (repository path actor : Text)
  | deleteNativeArtifactsUnder (repository pre : Text)
  | deleteNativeVersionArtifacts (repository name version : Text) (made : ℕ)

def resourceCall (t : Tables) : ResourceCall → Except NativeError Tables
  | .createNativeResource repository format name actor now =>
    createNativeResource texts env t repository format name actor now
  | .setNativeMember repository name actor target level now =>
    setNativeMember texts env t repository name actor target level now
  | .deleteNativeResource repository name actor pending =>
    deleteNativeResource texts env t repository name actor pending

def nativeCall (t : Tables) : Call → Except NativeError Tables
  | .resource call => resourceCall texts env t call
  | .updateNativeResource repository name actor description signingKey =>
    updateNativeResource texts env t repository name actor description signingKey
  | .setNativeResourceArchived repository name actor archived =>
    setNativeResourceArchived texts env t repository name actor archived
  | .deleteNativeRepository repository => deleteNativeRepository texts t repository
  | .saveNativeArtifact artifact actor published =>
    saveNativeArtifact texts env t artifact actor published
  | .publishNativeArtifacts repository name version actor paths now =>
    publishNativeArtifacts texts env t repository name version actor paths now
  | .approveNativeReview task now => approveNativeReview texts env t task now
  | .deleteNativeArtifact repository path actor =>
    deleteNativeArtifact texts env t repository path actor
  | .deleteNativeArtifactsUnder repository pre => deleteNativeArtifactsUnder texts t repository pre
  | .deleteNativeVersionArtifacts repository name version made =>
    deleteNativeVersionArtifacts texts t repository name version made

def next (t : Tables) (call : Accounts × Call) : Tables :=
  match nativeCall texts call.1 t call.2 with
  | .error _ => t
  | .ok t => t

end RenoP.Native
