import RenoP.Database.PublicationQuota

/-!
# Review tasks

The tables of `internal/database/review_schema.go` and the calls of `review.go`,
`review_publication.go`, `maven_restore.go` and `git_repo_review.go` that write them. A call runs
in one transaction under the review mutation lock, so it returns tables only where the source
commits. The texts of a request are trimmed, sanitized and folded; what tables of accounts, teams,
tickets, native artifacts and locks answer is an `Outside`.
-/

namespace RenoP.Review

open RenoP.Database (Text trimSpace normalizeSuperTeamPrefix)

inductive ReviewKind where
  | superTeamTransfer
  | publication
  | mavenRestore
  | gitRepoRegistration
  | gitRepoQuota
  | feedback
  | suggestion
  | report
  deriving DecidableEq

inductive ResourceType where
  | dockerImage
  | npmPackage
  | cargoPackage
  | mavenArtifact
  | mavenDomain
  | nativePackage
  | gitRepo
  deriving DecidableEq

inductive ReviewStatus where
  | pending
  | approved
  | rejected
  | cancelled
  deriving DecidableEq

inductive ReviewPolicy where
  | off
  | newPackages
  | everyVersion
  deriving DecidableEq

inductive ReviewError where
  | invalidRequest
  | permissionDenied
  | publicationSealed
  | publicationActive
  | fileLimit
  | taskNotFound
  | taskExists
  | taskConflict
  | claimRequired
  | resourceConflict
  | transferRestricted
  | bindingPermission
  | bindingMismatch
  | dockerImageNotFound
  | dockerImageExists
  | npmPackageNotFound
  | npmPackageExists
  | cargoPackageNotFound
  | mavenArtifactNotFound
  | mavenDomainNotFound
  | mavenDomainClosed
  | packageDeprecated
  | resourceLocked
  | duplicateRow
  | databaseUnavailable
  deriving DecidableEq

structure ResourceID where
  resourceType : ResourceType
  repository : Text
  resourceKey : Text
  deriving DecidableEq

/-- A row of `docker_images`, `npm_packages`, `cargo_packages`, `maven_artifacts` or
`maven_domains`. -/
structure Resource where
  name : Text
  /-- `super_team_prefix` -/
  binding : Text
  isLocal : Bool
  domain : Text
  reclaimHoldAt : ℤ
  verificationCode : Text
  verified : Bool
  createdAt : ℤ
  closedAt : ℤ
  deriving DecidableEq

structure ReviewTask where
  kind : ReviewKind
  resourceType : ResourceType
  repository : Text
  resourceKey : Text
  resourceName : Text
  sourceTeamPrefix : Text
  targetTeamPrefix : Text
  reviewTeamPrefix : Text
  requestedByID : Text
  requestedBy : Text
  status : ReviewStatus
  decisionReason : Text
  decidedByID : Text
  decidedBy : Text
  createdAt : ℤ
  decidedAt : ℤ
  activeKey : Option Text
  deriving DecidableEq

def ReviewTask.resource (task : ReviewTask) : ResourceID :=
  ⟨task.resourceType, task.repository, task.resourceKey⟩

structure ReviewFile where
  path : Text
  size : ℤ
  critical : Bool
  addedAt : ℤ
  deriving DecidableEq

structure ReviewTables where
  tasks : GoMap Text ReviewTask
  /-- `review_task_files` by task and file id -/
  files : GoMap (Text × Text) ReviewFile
  payloads : GoMap Text Text
  resources : GoMap ResourceID Resource

structure MavenRestoreSnapshot where
  domain : Text
  code : Text
  createdAt : ℤ
  holdAt : ℤ
  deriving DecidableEq

structure Coding where
  /-- of texts with a zero byte between them, which no sanitized text has in it -/
  sha256Hex : List Text → Text
  rawURLEncoding : Text → Text
  toLower : Text → Text
  marshal : MavenRestoreSnapshot → Text
  unmarshal : Text → Option MavenRestoreSnapshot

structure Outside where
  userIDForExistingAccount : Text → Option Text
  userIDForUsernameTx : Text → Option Text
  accountEmailSessionTx : Text → Option Text
  nativePermissionTx : Text → Text → Text → Option ReviewError
  nativeActorTx : Text → Option ReviewError
  publishNativeReviewTx : ReviewTask → Option ReviewError
  superTeamRoleTx : Text → Text → Except ReviewError (Option ℤ)
  requireSuperTeamRoleTx : Text → Text → ℤ → Option ReviewError
  requireTicketAssigneeTx : ReviewTask → Text → Option ReviewError
  reviewUserTx : Text → Option ReviewError
  isManager : Text → Bool
  checkModeratePermission : Text → Text → Bool
  requireTransferRequesterPermissionTx : ResourceID → Resource → Text → Option ReviewError
  ensureMutable : ResourceID → Option ReviewError
  lockMavenDomain : Text → Option ReviewError
  /-- the requester of a restore has a live account -/
  liveAccount : Text → Option ReviewError
  requireMavenMemberPermission : Text → Text → Option ReviewError
  /-- of an artifact, apart from the lock of its reclamation -/
  deprecatedOrLocked : Text → Text → Option ReviewError

def maxReviewResourceKey : ℕ := 1024
def maxPublicationReviewFiles : ℕ := 256
def maxPendingPublicationReviews : ℕ := 4096
def maxPendingPublicationPerAccount : ℕ := 64
def maxPublicationReviewPayload : ℕ := 6 * 2 ^ 20
def publicationReviewSettleMillis : ℤ := 5000

def reviewVersionPackageCreation : Text := ['@', 'c', 'r', 'e', 'a', 't', 'e']
def superTeamRoleRead : ℤ := 1
def superTeamRoleWrite : ℤ := 2
def superTeamRoleManage : ℤ := 3

def byteLength (s : Text) : ℕ := (s.map Char.utf8Size).sum

def trimSlashes (s : Text) : Text :=
  ((s.dropWhile (· == '/')).reverse.dropWhile (· == '/')).reverse

def normalizePublicationReviewFile (createdAt : ℤ) (file : ReviewFile) : Option ReviewFile :=
  let path := trimSlashes ((trimSpace file.path).map fun ch => if ch = '\\' then '/' else ch)
  if path = [] ∨ byteLength path > maxReviewResourceKey ∨
      path.any (fun ch => ch == '\x00' || ch == '\r' || ch == '\n') then none
  else if (path.splitOn '/').any fun segment =>
      segment == [] || segment == ['.'] || segment == ['.', '.'] then none
  else if file.size < 0 then none
  else some { file with
    path := path
    addedAt := if file.addedAt ≤ 0 then createdAt else file.addedAt }

def ReviewTask.publishes (repository : Text) (task : ReviewTask) : Bool :=
  task.kind == .publication && task.status == .pending && task.repository == repository

def priorTask (tasks : GoMap Text ReviewTask) (taskID repository fileID : Text)
    (files : GoMap (Text × Text) ReviewFile) : Option Text :=
  (files.keys.find? fun k =>
    k.2 == fileID && k.1 != taskID && (tasks.load k.1).any (·.publishes repository)).map Prod.fst

/-- The first loop of `savePublicationReviewFileTx`. Every round deletes a row. -/
def moveFile (tasks : GoMap Text ReviewTask) (taskID repository fileID : Text) :
    ℕ → GoMap (Text × Text) ReviewFile → GoMap (Text × Text) ReviewFile
  | 0, files => files
  | n + 1, files =>
    match priorTask tasks taskID repository fileID files with
    | none => files
    | some otherTaskID =>
      moveFile tasks taskID repository fileID n (files.delete (otherTaskID, fileID))

def fileCount (taskID : Text) (files : GoMap (Text × Text) ReviewFile) : ℕ :=
  files.count fun k _ => decide (k.1 = taskID)

variable (code : Coding)

def savePublicationReviewFileTx (t : ReviewTables) (taskID repository : Text) (file : ReviewFile) :
    Except ReviewError ReviewTables :=
  let fileID := code.sha256Hex [file.path]
  let files := moveFile t.tasks taskID repository fileID t.files.size t.files
  if files.has (taskID, fileID) then .ok { t with files := files.store (taskID, fileID) file }
  else if fileCount taskID files ≥ maxPublicationReviewFiles then .error .fileLimit
  else .ok { t with files := files.store (taskID, fileID) file }

def savePublicationReviewFiles (taskID repository : Text) :
    ReviewTables → List ReviewFile → Except ReviewError ReviewTables
  | t, [] => .ok t
  | t, file :: files =>
    match savePublicationReviewFileTx code t taskID repository file with
    | .error err => .error err
    | .ok t => savePublicationReviewFiles taskID repository t files

def savePublicationReviewPayloadTx (t : ReviewTables) (taskID payload : Text) :
    Except ReviewError ReviewTables :=
  if payload = [] then .ok t
  else if byteLength payload > maxPublicationReviewPayload then .error .invalidRequest
  else .ok { t with payloads := t.payloads.store taskID payload }

/-- `SELECT … FROM review_tasks WHERE active_key = ? AND status = 'pending'` -/
def pendingTask (t : ReviewTables) (activeKey : Text) : Option Text :=
  t.tasks.keys.find? fun id => (t.tasks.load id).any fun task =>
    task.activeKey == some activeKey && task.status == .pending

/-- `INSERT INTO review_tasks`, with `PRIMARY KEY (id)` and `UNIQUE (active_key)` -/
def insertReviewTask (t : ReviewTables) (id : Text) (task : ReviewTask) :
    Except ReviewError ReviewTables :=
  if t.tasks.has id ∨ 0 < t.tasks.count (fun _ other =>
      decide (other.activeKey = task.activeKey) && other.activeKey.isSome) then
    .error .duplicateRow
  else .ok { t with tasks := t.tasks.store id task }

def pendingCount (t : ReviewTables) (kind : ReviewKind) : ℕ :=
  t.tasks.count fun _ task => task.kind == kind && task.status == .pending

def pendingCountFor (t : ReviewTables) (kind : ReviewKind) (requestedByID : Text) : ℕ :=
  t.tasks.count fun _ task =>
    task.kind == kind && task.status == .pending && task.requestedByID == requestedByID

def ReviewKind.text : ReviewKind → Text
  | .superTeamTransfer => "super_team_transfer".toList
  | .publication => "publication".toList
  | .mavenRestore => "maven_restore".toList
  | .gitRepoRegistration => "git_repo_registration".toList
  | .gitRepoQuota => "git_repo_quota".toList
  | .feedback => "feedback".toList
  | .suggestion => "suggestion".toList
  | .report => "report".toList

def ResourceType.text : ResourceType → Text
  | .dockerImage => "docker_image".toList
  | .npmPackage => "npm_package".toList
  | .cargoPackage => "cargo_package".toList
  | .mavenArtifact => "maven_artifact".toList
  | .mavenDomain => "maven_domain".toList
  | .nativePackage => "native_package".toList
  | .gitRepo => "git_repo".toList

def ResourceType.reviewed : ResourceType → Bool
  | .gitRepo => false
  | _ => true

def publicationReviewKey (resourceKey version : Text) : Text :=
  ['v', '1', '.'] ++ code.rawURLEncoding resourceKey ++ ['.'] ++ code.rawURLEncoding version

def publicationReviewParts (resourceType : ResourceType) (repository storedResourceKey : Text) :
    List Text :=
  [ReviewKind.publication.text, resourceType.text, repository, storedResourceKey]

def publicationReviewActiveKey (resourceType : ResourceType) (repository storedResourceKey : Text) :
    Text :=
  code.sha256Hex (publicationReviewParts resourceType repository storedResourceKey)

structure PublicationReviewRequest where
  /-- none when the text is no policy -/
  policy : Option ReviewPolicy
  resourceType : ResourceType
  repository : Text
  resourceKey : Text
  resourceName : Text
  version : Text
  requestedBy : Text
  /-- none when the text is no prefix -/
  reviewTeamPrefix : Option Text
  targetTeamPrefix : Option Text
  packageExists : Bool
  createdAt : ℤ
  files : List ReviewFile
  payload : Text

/-- The end of `CreateOrUpdatePublicationReview`: the files and the payload of the task. -/
def savePublicationReview (t : ReviewTables) (taskID repository : Text) (files : List ReviewFile)
    (payload : Text) : Except ReviewError (ReviewTables × Option Text) :=
  match savePublicationReviewFiles code taskID repository t files with
  | .error err => .error err
  | .ok t =>
    match savePublicationReviewPayloadTx t taskID payload with
    | .error err => .error err
    | .ok t => .ok (t, some taskID)

def requireTeamWriter (env : Outside) (teamCreationReview : Bool) (reviewTeam actorID : Text) :
    Option ReviewError :=
  if !teamCreationReview then none
  else match env.superTeamRoleTx reviewTeam actorID with
  | .error err => some err
  | .ok role => if role = some superTeamRoleWrite then none else some .permissionDenied

/-- `CreateOrUpdatePublicationReview` where no task is pending. -/
def createPublicationReview (env : Outside) (t : ReviewTables) (newID : Text)
    (request : PublicationReviewRequest) (policy : ReviewPolicy) (reviewTeam targetTeam : Text)
    (files : List ReviewFile) : Except ReviewError (ReviewTables × Option Text) :=
  let storedResourceKey := publicationReviewKey code request.resourceKey request.version
  let creation := decide (request.version = reviewVersionPackageCreation)
  let approved := t.tasks.count fun _ task =>
    task.kind == .publication && task.resourceType == request.resourceType &&
      task.repository == request.repository && task.resourceKey == storedResourceKey &&
      task.status == .approved
  if policy = .off then .ok (t, none)
  else if 0 < approved ∧ !creation then .error .publicationSealed
  else if policy = .newPackages ∧ request.packageExists then .ok (t, none)
  else match env.userIDForUsernameTx request.requestedBy with
  | none => .error .permissionDenied
  | some actorID =>
    match requireTeamWriter env (reviewTeam != [] && targetTeam == reviewTeam && creation)
        reviewTeam actorID with
    | some err => .error err
    | none =>
      if pendingCount t .publication ≥ maxPendingPublicationReviews ∨
          pendingCountFor t .publication actorID ≥ maxPendingPublicationPerAccount then
        .error .fileLimit
      else match insertReviewTask t newID {
          kind := .publication, resourceType := request.resourceType
          repository := request.repository, resourceKey := storedResourceKey
          resourceName := request.resourceName, sourceTeamPrefix := []
          targetTeamPrefix := targetTeam, reviewTeamPrefix := reviewTeam
          requestedByID := actorID, requestedBy := request.requestedBy, status := .pending
          decisionReason := [], decidedByID := [], decidedBy := []
          createdAt := request.createdAt, decidedAt := 0
          activeKey := some (publicationReviewActiveKey code request.resourceType
            request.repository storedResourceKey) } with
        | .error err => .error err
        | .ok t => savePublicationReview code t newID request.repository files request.payload

/-- `CreateOrUpdatePublicationReview` where a task is pending. -/
def updatePublicationReview (env : Outside) (t : ReviewTables) (taskID : Text) (task : ReviewTask)
    (request : PublicationReviewRequest) (reviewTeam targetTeam : Text) (files : List ReviewFile) :
    Except ReviewError (ReviewTables × Option Text) :=
  if env.userIDForUsernameTx request.requestedBy ≠ some task.requestedByID then
    .error .permissionDenied
  else if task.reviewTeamPrefix = [] ∧ task.targetTeamPrefix = targetTeam ∧
      reviewTeam = targetTeam ∧ targetTeam ≠ [] then .ok (t, some taskID)
  else if task.reviewTeamPrefix ≠ reviewTeam ∨ task.targetTeamPrefix ≠ targetTeam then
    .error .permissionDenied
  else savePublicationReview code t taskID request.repository files request.payload

def validPublicationReview (request : PublicationReviewRequest) :
    Option (ReviewPolicy × Text × Text × List ReviewFile) :=
  match request.policy, request.reviewTeamPrefix, request.targetTeamPrefix with
  | some policy, some reviewTeam, some targetTeam =>
    let creation := reviewTeam != [] && targetTeam == reviewTeam &&
      request.version == reviewVersionPackageCreation
    if !request.resourceType.reviewed ∨ request.repository = [] ∨ request.resourceKey = [] ∨
        request.resourceName = [] ∨ request.version = [] ∨ request.requestedBy = [] ∨
        request.createdAt ≤ 0 ∨ request.files = [] ∨
        request.files.length > maxPublicationReviewFiles ∨
        (decide (reviewTeam = []) ≠ decide (targetTeam = [])) ∨
        (reviewTeam ≠ [] ∧ (!creation ∨ policy = .off)) then none
    else match request.files.mapM (normalizePublicationReviewFile request.createdAt) with
    | none => none
    | some files =>
      if byteLength (publicationReviewKey code request.resourceKey request.version) >
        maxReviewResourceKey then none
      else some (policy, reviewTeam, targetTeam, files)
  | _, _, _ => none

/-- `CreateOrUpdatePublicationReview`, with the pending task of the result -/
def createOrUpdatePublicationReview (env : Outside) (t : ReviewTables) (newID : Text)
    (request : PublicationReviewRequest) : Except ReviewError (ReviewTables × Option Text) :=
  match validPublicationReview code request with
  | none => .error .invalidRequest
  | some (policy, reviewTeam, targetTeam, files) =>
    let denied := if request.resourceType = .nativePackage then
      env.nativePermissionTx request.repository request.resourceKey request.requestedBy else none
    match denied with
    | some err => .error err
    | none =>
      match pendingTask t (publicationReviewActiveKey code request.resourceType request.repository
          (publicationReviewKey code request.resourceKey request.version)) with
      | none => createPublicationReview code env t newID request policy reviewTeam targetTeam files
      | some taskID =>
        match t.tasks.load taskID with
        | none => .error .databaseUnavailable
        | some task =>
          updatePublicationReview code env t taskID task request reviewTeam targetTeam files

end RenoP.Review
