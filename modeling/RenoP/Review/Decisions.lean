import Mathlib.Data.Char
import Mathlib.Data.List.Lex
import RenoP.Review.Tasks
import RenoP.Lib.Runs

/-!
# Transfers and decisions

The resources that a review can move between teams, the requests for such moves, and
`DecideReviewTask` and `CancelReviewTask` of `internal/database/review.go`.
-/

namespace RenoP.Review

open RenoP.Database (Text normalizeSuperTeamPrefix)

def splitMavenArtifactReviewKey (value : Text) : Option (Text × Text) :=
  let artifactID := (value.reverse.takeWhile (· != ':')).reverse
  let groupID := ((value.reverse.dropWhile (· != ':')).drop 1).reverse
  if groupID = [] ∨ artifactID = [] then none else some (groupID, artifactID)

def dockerImageSuperTeamPrefix (imageName : Text) : Option Text :=
  let imageName := trimSlashes imageName
  if '/' ∉ imageName then none
  else normalizeSuperTeamPrefix (imageName.takeWhile (· != '/'))

def npmPackageSuperTeamPrefix (packageName : Text) : Option Text :=
  match packageName with
  | '@' :: name =>
    if '/' ∉ name ∨ name.takeWhile (· != '/') = [] then none
    else normalizeSuperTeamPrefix (name.takeWhile (· != '/'))
  | _ => none

def validateTransferNamespace (resourceType : ResourceType) (resourceKey teamPrefix : Text)
    (transferOut : Bool) : Option ReviewError :=
  match resourceType with
  | .dockerImage =>
    if transferOut ∧ '/' ∈ resourceKey then some .transferRestricted
    else if !transferOut ∧ '/' ∈ resourceKey ∧
        dockerImageSuperTeamPrefix resourceKey ≠ some teamPrefix then some .bindingMismatch
    else none
  | .npmPackage =>
    let required := npmPackageSuperTeamPrefix resourceKey
    if transferOut ∧ required.isSome then some .transferRestricted
    else if !transferOut ∧ required.isSome ∧ required ≠ some teamPrefix then some .bindingMismatch
    else none
  | _ => none

def domainID (domain : Text) : ResourceID := ⟨.mavenDomain, [], domain⟩

def openMavenDomain (env : Outside) (resources : GoMap ResourceID Resource) (domain : Text) :
    Except ReviewError Resource :=
  match resources.load (domainID domain) with
  | none => .error .mavenDomainNotFound
  | some row =>
    match env.lockMavenDomain domain with
    | some err => .error err
    | none => if row.closedAt ≠ 0 then .error .mavenDomainClosed else .ok row

def loadReviewResourceTx (env : Outside) (resources : GoMap ResourceID Resource) (id : ResourceID) :
    Except ReviewError Resource :=
  match id.resourceType with
  | .dockerImage | .npmPackage | .cargoPackage =>
    match resources.load id with
    | none => .error .resourceConflict
    | some resource => .ok resource
  | .mavenArtifact =>
    match splitMavenArtifactReviewKey id.resourceKey, resources.load id with
    | none, _ => .error .resourceConflict
    | _, none => .error .resourceConflict
    | some _, some resource =>
      match openMavenDomain env resources resource.domain with
      | .error err => .error err
      | .ok _ => .ok resource
  | .mavenDomain =>
    (openMavenDomain env resources id.resourceKey).map fun row => { row with isLocal := true }
  | .nativePackage | .gitRepo => .error .resourceConflict

def requestedResource (resourceType : ResourceType) (repository resourceKey : Text) : ResourceID :=
  ⟨resourceType, if resourceType = .mavenDomain then [] else repository, resourceKey⟩

/-- `UPDATE … SET super_team_prefix = ? WHERE … AND super_team_prefix = ?` of one table -/
def updateBinding (resources : GoMap ResourceID Resource) (id : ResourceID) (source target : Text) :
    Except ReviewError (GoMap ResourceID Resource) :=
  let rows := fun key (row : Resource) => decide (key = id) &&
    (row.binding == source && (id.resourceType != .mavenDomain || row.closedAt == 0))
  if resources.count rows ≠ 1 then .error .resourceConflict
  else .ok (resources.updateWhere rows fun _ row => { row with binding := target })

def requireTargetMember (env : Outside) (task : ReviewTask) : Option ReviewError :=
  if task.targetTeamPrefix ≠ [] then
    env.requireSuperTeamRoleTx task.targetTeamPrefix task.requestedByID superTeamRoleRead
  else none

def transferLocked (env : Outside) (task : ReviewTask) : Option ReviewError :=
  if task.resourceType = .mavenDomain then none else env.ensureMutable task.resource

def applySuperTeamTransferTx (env : Outside) (resources : GoMap ResourceID Resource)
    (task : ReviewTask) : Except ReviewError (GoMap ResourceID Resource) :=
  match loadReviewResourceTx env resources task.resource with
  | .error err => .error err
  | .ok resource =>
    if !resource.isLocal ∨ resource.binding ≠ task.sourceTeamPrefix then .error .resourceConflict
    else match env.requireTransferRequesterPermissionTx task.resource resource
        task.requestedByID with
    | some err => .error err
    | none =>
      match requireTargetMember env task with
      | some err => .error err
      | none =>
        match validateTransferNamespace task.resourceType task.resourceKey task.reviewTeamPrefix
            (decide (task.targetTeamPrefix = [])) with
        | some err => .error err
        | none =>
          match transferLocked env task with
          | some err => .error err
          | none =>
            updateBinding resources task.resource task.sourceTeamPrefix task.targetTeamPrefix

/-- `mavenRestoreStateTx`: the snapshot, the team of the artifact and the team of its domain -/
def mavenRestoreStateTx (env : Outside) (resources : GoMap ResourceID Resource)
    (repository resourceKey actorID : Text) :
    Except ReviewError (MavenRestoreSnapshot × Text × Text) :=
  match env.liveAccount actorID with
  | some err => .error err
  | none =>
    match resources.load ⟨.mavenArtifact, repository, resourceKey⟩ with
    | none => .error .resourceConflict
    | some artifact =>
      match resources.load (domainID artifact.domain), env.lockMavenDomain artifact.domain with
      | none, _ => .error .mavenDomainNotFound
      | some _, some err => .error err
      | some domain, none =>
        if (env.requireMavenMemberPermission artifact.domain actorID).isSome then
          .error .permissionDenied
        else if artifact.reclaimHoldAt = 0 ∨ !artifact.isLocal ∨ !domain.verified ∨
            domain.closedAt ≠ 0 then .error .resourceConflict
        else match env.deprecatedOrLocked repository resourceKey with
        | some err => .error err
        | none =>
          .ok (⟨artifact.domain, domain.verificationCode, domain.createdAt, artifact.reclaimHoldAt⟩,
            artifact.binding, domain.binding)

/-- `UPDATE maven_artifacts SET reclaim_hold_at = 0, super_team_prefix = ? WHERE …` -/
def updateHold (resources : GoMap ResourceID Resource) (id : ResourceID)
    (expected : MavenRestoreSnapshot) (target : Text) :
    Except ReviewError (GoMap ResourceID Resource) :=
  let rows := fun key (row : Resource) => decide (key = id) &&
    (row.domain == expected.domain && row.reclaimHoldAt == expected.holdAt)
  if resources.count rows ≠ 1 then .error .resourceConflict
  else .ok (resources.updateWhere rows fun _ row =>
    { row with reclaimHoldAt := 0, binding := target })

variable (code : Coding)

def applyMavenRestoreTx (env : Outside) (t : ReviewTables) (id : Text) (task : ReviewTask) :
    Except ReviewError (GoMap ResourceID Resource) :=
  match splitMavenArtifactReviewKey task.resourceKey, t.payloads.load id with
  | none, _ => .error .resourceConflict
  | _, none => .error .resourceConflict
  | some _, some encoded =>
    match code.unmarshal encoded with
    | none => .error .resourceConflict
    | some expected =>
      if byteLength encoded > 2048 then .error .resourceConflict
      else match mavenRestoreStateTx env t.resources task.repository task.resourceKey
          task.requestedByID with
      | .error err => .error err
      | .ok (current, sourceTeam, targetTeam) =>
        if current ≠ expected ∨ sourceTeam ≠ task.sourceTeamPrefix ∨
            targetTeam ≠ task.targetTeamPrefix then .error .resourceConflict
        else updateHold t.resources ⟨.mavenArtifact, task.repository, task.resourceKey⟩ expected
          targetTeam

def reviewResourceStateChanged : ReviewError → Bool
  | .resourceConflict | .permissionDenied | .transferRestricted | .bindingPermission
  | .bindingMismatch | .dockerImageNotFound | .dockerImageExists | .npmPackageNotFound
  | .npmPackageExists | .cargoPackageNotFound | .mavenArtifactNotFound | .mavenDomainNotFound
  | .mavenDomainClosed => true
  | _ => false

def transferReviewParts (id : ResourceID) : List Text :=
  [ReviewKind.superTeamTransfer.text, id.resourceType.text, id.repository, id.resourceKey]

def mavenRestoreParts (repository key : Text) : List Text :=
  [ReviewKind.mavenRestore.text, repository, key]

def gitRepoParts (kind : ReviewKind) (repository targetRepo : Text) : List Text :=
  [kind.text, repository, targetRepo]

def transferReviewActiveKey (id : ResourceID) : Text := code.sha256Hex (transferReviewParts id)

/-- The review team of a transfer: one of the binding and the target is empty. -/
def transferReviewTeam (env : Outside) (id : ResourceID) (binding target actorID : Text) :
    Except ReviewError Text :=
  if binding = [] ∧ target ≠ [] then
    if (env.requireSuperTeamRoleTx target actorID superTeamRoleRead).isSome then
      .error .permissionDenied
    else match validateTransferNamespace id.resourceType id.resourceKey target false with
    | some err => .error err
    | none => .ok target
  else if binding ≠ [] ∧ target = [] then
    match validateTransferNamespace id.resourceType id.resourceKey binding true with
    | some err => .error err
    | none => .ok binding
  else .error .resourceConflict

def createSuperTeamTransferReview (env : Outside) (t : ReviewTables) (newID : Text)
    (resourceType : ResourceType) (repository resourceKey : Text) (targetTeam : Option Text)
    (actor : Text) (createdAt : ℤ) : Except ReviewError ReviewTables :=
  let id := requestedResource resourceType repository resourceKey
  match targetTeam with
  | none => .error .resourceConflict
  | some target =>
    if !resourceType.reviewed ∨ createdAt ≤ 0 then .error .resourceConflict
    else match env.userIDForExistingAccount actor with
    | none => .error .permissionDenied
    | some actorID =>
      match loadReviewResourceTx env t.resources id with
      | .error err => .error err
      | .ok resource =>
        if !resource.isLocal then .error .resourceConflict
        else match env.requireTransferRequesterPermissionTx id resource actorID with
        | some err => .error err
        | none =>
          match transferReviewTeam env id resource.binding target actorID with
          | .error err => .error err
          | .ok reviewTeam =>
            if (pendingTask t (transferReviewActiveKey code id)).isSome then .error .taskExists
            else insertReviewTask t newID {
              kind := .superTeamTransfer, resourceType := resourceType
              repository := id.repository, resourceKey := resourceKey
              resourceName := resource.name, sourceTeamPrefix := resource.binding
              targetTeamPrefix := target, reviewTeamPrefix := reviewTeam
              requestedByID := actorID, requestedBy := actor, status := .pending
              decisionReason := [], decidedByID := [], decidedBy := []
              createdAt := createdAt, decidedAt := 0
              activeKey := some (transferReviewActiveKey code id) }

def createMavenRestoreReview (env : Outside) (t : ReviewTables) (newID repository groupID artifactID
    actor : Text) (createdAt : ℤ) : Except ReviewError ReviewTables :=
  let key := groupID ++ [':'] ++ artifactID
  let activeKey := code.sha256Hex (mavenRestoreParts repository key)
  if repository = [] ∨ groupID = [] ∨ artifactID = [] ∨ createdAt ≤ 0 then .error .invalidRequest
  else match env.accountEmailSessionTx actor with
  | none => .error .permissionDenied
  | some actorID =>
    match mavenRestoreStateTx env t.resources repository key actorID with
    | .error err => .error err
    | .ok (snapshot, sourceTeam, targetTeam) =>
      if (pendingTask t activeKey).isSome then .error .taskExists
      else if pendingCount t .mavenRestore ≥ maxPendingPublicationReviews ∨
          pendingCountFor t .mavenRestore actorID ≥ maxPendingPublicationPerAccount then
        .error .fileLimit
      else match insertReviewTask t newID {
          kind := .mavenRestore, resourceType := .mavenArtifact
          repository := repository, resourceKey := key, resourceName := key
          sourceTeamPrefix := sourceTeam, targetTeamPrefix := targetTeam, reviewTeamPrefix := []
          requestedByID := actorID, requestedBy := actor, status := .pending
          decisionReason := [], decidedByID := [], decidedBy := []
          createdAt := createdAt, decidedAt := 0, activeKey := some activeKey } with
      | .error err => .error err
      | .ok t => savePublicationReviewPayloadTx t newID (code.marshal snapshot)

def gitRepoTask (kind : ReviewKind) (repository targetRepo superTeamPrefix actorID actor : Text)
    (createdAt : ℤ) (activeKey : Text) : ReviewTask where
  kind := kind
  resourceType := .gitRepo
  repository := repository
  resourceKey := targetRepo
  resourceName := targetRepo
  sourceTeamPrefix := []
  targetTeamPrefix := superTeamPrefix
  reviewTeamPrefix := []
  requestedByID := actorID
  requestedBy := actor
  status := .pending
  decisionReason := []
  decidedByID := []
  decidedBy := []
  createdAt := createdAt
  decidedAt := 0
  activeKey := some activeKey

def createGitRepoRegistrationTask (env : Outside) (t : ReviewTables) (newID repository targetRepo
    superTeamPrefix actor : Text) (createdAt : ℤ) : Except ReviewError ReviewTables :=
  let activeKey := code.sha256Hex
    (gitRepoParts .gitRepoRegistration repository (code.toLower targetRepo))
  if repository = [] ∨ targetRepo = [] ∨ actor = [] ∨ createdAt ≤ 0 then .error .invalidRequest
  else match env.accountEmailSessionTx actor with
  | none => .error .permissionDenied
  | some actorID =>
    if (pendingTask t activeKey).isSome then .error .taskExists
    else insertReviewTask t newID (gitRepoTask .gitRepoRegistration repository targetRepo
      superTeamPrefix actorID actor createdAt activeKey)

def coolingDown (t : ReviewTables) (repository targetRepo : Text) (cooldownHours createdAt : ℤ) :
    Bool :=
  decide (0 < cooldownHours) && decide (0 < t.tasks.count fun _ task =>
    task.kind == .gitRepoQuota && task.repository == repository &&
      task.resourceKey == targetRepo &&
      decide (createdAt - task.createdAt < cooldownHours * 3600 * 1000))

def createGitRepoQuotaTask (env : Outside) (t : ReviewTables) (newID repository targetRepo
    superTeamPrefix actor payload : Text) (cooldownHours createdAt : ℤ) :
    Except ReviewError ReviewTables :=
  let activeKey := code.sha256Hex (gitRepoParts .gitRepoQuota repository targetRepo)
  if repository = [] ∨ targetRepo = [] ∨ actor = [] ∨ createdAt ≤ 0 ∨ payload = [] then
    .error .invalidRequest
  else match env.accountEmailSessionTx actor with
  | none => .error .permissionDenied
  | some actorID =>
    if (pendingTask t activeKey).isSome then .error .taskExists
    else if coolingDown t repository targetRepo cooldownHours createdAt then .error .taskConflict
    else match insertReviewTask t newID (gitRepoTask .gitRepoQuota repository targetRepo
        superTeamPrefix actorID actor createdAt activeKey) with
    | .error err => .error err
    | .ok t => savePublicationReviewPayloadTx t newID payload

def supportTicket (task : ReviewTask) : Bool :=
  task.kind == .feedback || task.kind == .suggestion || task.kind == .report

/-- `SELECT COALESCE(MAX(added_at), created_at) FROM review_task_files WHERE task_id = ?` -/
def lastActivity (t : ReviewTables) (id : Text) (task : ReviewTask) : ℤ :=
  ((t.files.entries.filter fun e => decide (e.1.1 = id)).map fun e => e.2.addedAt).max?.getD
    task.createdAt

/-- The reviewer's permission of `DecideReviewTask`, and the settling time of a publication. -/
def decisionRefused (env : Outside) (t : ReviewTables) (id : Text) (task : ReviewTask)
    (actorID : Text) (decidedAt : ℤ) : Option ReviewError :=
  if task.kind = .publication then
    if task.reviewTeamPrefix ≠ [] ∧ !env.isManager actorID ∧
        (env.requireSuperTeamRoleTx task.reviewTeamPrefix actorID superTeamRoleManage).isSome then
      some .permissionDenied
    else if task.reviewTeamPrefix = [] ∧ !env.checkModeratePermission actorID task.repository then
      some .permissionDenied
    else if decidedAt - lastActivity t id task < publicationReviewSettleMillis then
      some .publicationActive
    else none
  else if task.kind = .mavenRestore then
    if !env.checkModeratePermission actorID task.repository then some .permissionDenied else none
  else if !env.isManager actorID ∧
      (env.requireSuperTeamRoleTx task.reviewTeamPrefix actorID superTeamRoleManage).isSome then
    some .permissionDenied
  else none

def nativeActors (task : ReviewTask) (actor : Text) (decision : ReviewStatus) : List Text :=
  ((if decision = .approved then [actor, task.requestedBy] else [actor]).mergeSort
    fun a b => decide (a ≤ b)).dedup

def nativeReviewRefused (env : Outside) (task : ReviewTask) (actorID actor : Text)
    (decision : ReviewStatus) : Option ReviewError :=
  if task.kind = .publication ∧ task.resourceType = .nativePackage then
    let denied := (nativeActors task actor decision).findSome? fun username =>
      (env.nativeActorTx username).or
        (if username = actor ∧ !env.checkModeratePermission actorID task.repository then
          some .permissionDenied else none)
    if denied.isSome ∨ decision ≠ .approved then denied
    else (env.nativePermissionTx task.repository task.resourceKey task.requestedBy).or
      (env.publishNativeReviewTx task)
  else none

def ReviewKind.transfers : ReviewKind → Bool
  | .superTeamTransfer | .mavenRestore => true
  | _ => false

def applyReview (env : Outside) (t : ReviewTables) (id : Text) (task : ReviewTask)
    (decision : ReviewStatus) : Except ReviewError (GoMap ResourceID Resource) :=
  if decision = .approved ∧ task.kind.transfers then
    if task.kind = .mavenRestore then applyMavenRestoreTx code env t id task
    else applySuperTeamTransferTx env t.resources task
  else .ok t.resources

def resourceChanged : Text := "resource_changed".toList
def requestCancelled : Text := "request_cancelled".toList

/-- `UPDATE review_tasks SET status = ?, …, active_key = NULL WHERE id = ? AND status = 'pending'`,
of which a cancellation adds the requester -/
def completeReviewTask (t : ReviewTables) (id : Text) (allowed : ReviewTask → Bool)
    (status : ReviewStatus) (reason actorID actor : Text) (decidedAt : ℤ) :
    Except ReviewError ReviewTables :=
  let rows := fun key (task : ReviewTask) =>
    decide (key = id) && (task.status == .pending && allowed task)
  if t.tasks.count rows ≠ 1 then .error .taskConflict
  else .ok { t with tasks := t.tasks.updateWhere rows fun _ task => { task with
    status := status, decisionReason := reason, decidedByID := actorID, decidedBy := actor
    decidedAt := decidedAt, activeKey := none } }

def ReviewKind.dropsPayload : ReviewKind → Bool
  | .publication | .mavenRestore | .gitRepoRegistration | .gitRepoQuota => true
  | _ => false

/-- The end of `DecideReviewTask`. -/
def settleReviewTask (t : ReviewTables) (id : Text) (task : ReviewTask) (status : ReviewStatus)
    (reason actorID actor : Text) (decidedAt : ℤ) : Except ReviewError ReviewTables :=
  match completeReviewTask t id (fun _ => true) status reason actorID actor decidedAt with
  | .error err => .error err
  | .ok t =>
    .ok { t with
      payloads := if task.kind.dropsPayload then t.payloads.delete id else t.payloads }

def decidePendingTask (env : Outside) (t : ReviewTables) (id : Text) (task : ReviewTask)
    (decision : ReviewStatus) (reason actorID actor : Text) (decidedAt : ℤ) :
    Except ReviewError ReviewTables :=
  match applyReview code env t id task decision with
  | .ok resources =>
    settleReviewTask { t with resources := resources } id task decision reason actorID actor
      decidedAt
  | .error err =>
    if !reviewResourceStateChanged err then .error err
    else settleReviewTask t id task .cancelled resourceChanged actorID actor decidedAt

def storedReason (decision : ReviewStatus) (reason : Text) : Text :=
  if decision = .approved then [] else reason

/-- `DecideReviewTask`; the reason is none when it is no valid text -/
def decideReviewTask (env : Outside) (t : ReviewTables) (id actor : Text) (decision : ReviewStatus)
    (reason : Option Text) (decidedAt : ℤ) : Except ReviewError ReviewTables :=
  match reason with
  | none => .error .invalidRequest
  | some reason =>
    if id = [] ∨ decidedAt ≤ 0 ∨ ¬(decision = .approved ∨ decision = .rejected) ∨
        (decision = .rejected ∧ reason = []) then .error .invalidRequest
    else match env.userIDForExistingAccount actor, t.tasks.load id with
    | none, _ => .error .permissionDenied
    | some _, none => .error .taskNotFound
    | some actorID, some task =>
      if task.status ≠ .pending then .error .taskConflict
      else if supportTicket task then .error .invalidRequest
      else match ((env.requireTicketAssigneeTx task actorID).or (env.reviewUserTx actorID)).or
          ((decisionRefused env t id task actorID decidedAt).or
            (nativeReviewRefused env task actorID actor decision)) with
      | some err => .error err
      | none =>
        decidePendingTask code env t id task decision (storedReason decision reason) actorID actor
          decidedAt

def cancelReviewTask (env : Outside) (t : ReviewTables) (id actor : Text) (cancelledAt : ℤ) :
    Except ReviewError ReviewTables :=
  match env.userIDForExistingAccount actor with
  | none => .error .permissionDenied
  | some actorID =>
    if id = [] ∨ cancelledAt ≤ 0 then .error .permissionDenied
    else match t.tasks.load id with
    | none => .error .taskNotFound
    | some task =>
      if task.status ≠ .pending then .error .taskConflict
      else if task.kind = .publication then .error .invalidRequest
      else if task.requestedByID ≠ actorID then .error .permissionDenied
      else match completeReviewTask t id (·.requestedByID == actorID) .cancelled requestCancelled
          actorID actor cancelledAt with
      | .error err => .error err
      | .ok t => .ok { t with payloads := t.payloads.delete id }

inductive ReviewCall where
  | createOrUpdatePublicationReview (env : Outside) (newID : Text)
      (request : PublicationReviewRequest)
  /-- called by `CreateOrUpdatePublicationReview` for a pending task of the repository -/
  | savePublicationReviewFileTx (taskID repository : Text) (file : ReviewFile)
  | decideReviewTask (env : Outside) (id actor : Text) (decision : ReviewStatus)
      (reason : Option Text) (decidedAt : ℤ)
  | cancelReviewTask (env : Outside) (id actor : Text) (cancelledAt : ℤ)
  | createSuperTeamTransferReview (env : Outside) (newID : Text) (resourceType : ResourceType)
      (repository resourceKey : Text) (targetTeam : Option Text) (actor : Text) (createdAt : ℤ)
  | createMavenRestoreReview (env : Outside) (newID repository groupID artifactID actor : Text)
      (createdAt : ℤ)
  | createGitRepoRegistrationTask (env : Outside) (newID repository targetRepo superTeamPrefix
      actor : Text) (createdAt : ℤ)
  | createGitRepoQuotaTask (env : Outside) (newID repository targetRepo superTeamPrefix actor
      payload : Text) (cooldownHours createdAt : ℤ)
  /-- the other writers of the resource tables -/
  | writeResources (resources : GoMap ResourceID Resource)

def ReviewTables.call (t : ReviewTables) : ReviewCall → Except ReviewError ReviewTables
  | .createOrUpdatePublicationReview env newID request =>
    (createOrUpdatePublicationReview code env t newID request).map Prod.fst
  | .savePublicationReviewFileTx taskID repository file =>
    if (t.tasks.load taskID).any (·.publishes repository) then
      savePublicationReviewFileTx code t taskID repository file
    else .ok t
  | .decideReviewTask env id actor decision reason decidedAt =>
    RenoP.Review.decideReviewTask code env t id actor decision reason decidedAt
  | .cancelReviewTask env id actor cancelledAt =>
    RenoP.Review.cancelReviewTask env t id actor cancelledAt
  | .createSuperTeamTransferReview env newID resourceType repository resourceKey targetTeam actor
      createdAt =>
    RenoP.Review.createSuperTeamTransferReview code env t newID resourceType repository resourceKey
      targetTeam actor createdAt
  | .createMavenRestoreReview env newID repository groupID artifactID actor createdAt =>
    RenoP.Review.createMavenRestoreReview code env t newID repository groupID artifactID actor
      createdAt
  | .createGitRepoRegistrationTask env newID repository targetRepo superTeamPrefix actor createdAt =>
    RenoP.Review.createGitRepoRegistrationTask code env t newID repository targetRepo
      superTeamPrefix actor createdAt
  | .createGitRepoQuotaTask env newID repository targetRepo superTeamPrefix actor payload
      cooldownHours createdAt =>
    RenoP.Review.createGitRepoQuotaTask code env t newID repository targetRepo superTeamPrefix actor
      payload cooldownHours createdAt
  | .writeResources resources => .ok { t with resources := resources }

def ReviewTables.next (t : ReviewTables) (c : ReviewCall) : ReviewTables :=
  match t.call code c with
  | .ok t => t
  | .error _ => t

def ReviewTables.unused (resources : GoMap ResourceID Resource) : ReviewTables :=
  ⟨∅, ∅, ∅, resources⟩

end RenoP.Review
