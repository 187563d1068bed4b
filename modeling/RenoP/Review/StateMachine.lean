import RenoP.Review.Attachments
import RenoP.Review.Decisions

/-!
# Runs of review calls

What one call can do to the tables of the reviews.
-/

namespace RenoP.Review

open RenoP.Database (Text)

/-- What the row of every task satisfies, where `digested` has the texts that the active keys are
digests of. -/
structure Formed (code : Coding) (digested : Set (List Text)) (task : ReviewTask) : Prop where
  active : task.activeKey.isSome = true ↔ task.status = .pending
  teams : task.kind = .superTeamTransfer → task.sourceTeamPrefix ≠ task.targetTeamPrefix
  restored : task.kind = .mavenRestore → task.resourceType = .mavenArtifact
  keyed : ∀ key, task.activeKey = some key → ∃ parts, task.kind.text :: parts ∈ digested ∧
    key = code.sha256Hex (task.kind.text :: parts) ∧
    (task.kind = .publication →
      parts = [task.resourceType.text, task.repository, task.resourceKey])

/-- The resource of the task goes from the source team to the target team, and no other row
changes. A restored artifact also loses its hold. -/
structure Transferred (task : ReviewTask) (resources resources' : GoMap ResourceID Resource) :
    Prop where
  row : ∃ row row', resources.load task.resource = some row ∧
    resources'.load task.resource = some row' ∧ row.binding = task.sourceTeamPrefix ∧
    row'.binding = task.targetTeamPrefix ∧
    (task.kind = .mavenRestore → row.reclaimHoldAt ≠ 0 ∧ row'.reclaimHoldAt = 0)
  others : ∀ key, key ≠ task.resource → resources'.load key = resources.load key

variable {code : Coding} {env : Outside} {t t' : ReviewTables} {id : Text} {task : ReviewTask}
  {resources resources' : GoMap ResourceID Resource} {digested : Set (List Text)}

theorem Transferred.changes (hformed : Formed code digested task) (htransfers : task.kind.transfers = true)
    (h : Transferred task resources resources') :
    resources'.load task.resource ≠ resources.load task.resource := by
  obtain ⟨row, row', hrow, hrow', hsource, htarget, hhold⟩ := h.row
  rw [hrow, hrow']
  intro heq
  cases Option.some.inj heq
  cases hkind : task.kind with
  | superTeamTransfer => exact hformed.teams hkind (hsource.symm.trans htarget)
  | mavenRestore => exact (hhold hkind).1 (hhold hkind).2
  | publication | gitRepoRegistration | gitRepoQuota | feedback | suggestion | report =>
    rw [hkind] at htransfers
    cases htransfers

theorem updateBinding_cases {key : ResourceID} {source target : Text}
    (h : updateBinding resources key source target = .ok resources') :
    ∃ row, resources.load key = some row ∧ row.binding = source ∧
      ∀ key', resources'.load key' =
        if key' = key then some { row with binding := target } else resources.load key' := by
  unfold updateBinding at h
  dsimp only at h
  split_ifs at h with hcount
  cases h
  obtain ⟨row, hload, hrow, hothers⟩ := GoMap.load_updateRow (not_not.mp hcount)
  rw [Bool.and_eq_true, beq_iff_eq] at hrow
  exact ⟨row, hload, hrow.1, hothers⟩

theorem updateHold_cases {key : ResourceID} {expected : MavenRestoreSnapshot} {target : Text}
    (h : updateHold resources key expected target = .ok resources') :
    ∃ row, resources.load key = some row ∧
      ∀ key', resources'.load key' =
        if key' = key then some { row with reclaimHoldAt := 0, binding := target }
        else resources.load key' := by
  unfold updateHold at h
  dsimp only at h
  split_ifs at h with hcount
  cases h
  obtain ⟨row, hload, -, hothers⟩ := GoMap.load_updateRow (not_not.mp hcount)
  exact ⟨row, hload, hothers⟩

theorem applySuperTeamTransferTx_cases
    (h : applySuperTeamTransferTx env resources task = .ok resources') :
    updateBinding resources task.resource task.sourceTeamPrefix task.targetTeamPrefix =
      .ok resources' := by
  unfold applySuperTeamTransferTx at h
  split at h
  · cases h
  split_ifs at h
  split at h
  · cases h
  split at h
  · cases h
  split at h
  · cases h
  split at h
  · cases h
  exact h

theorem mavenRestoreStateTx_cases {repository resourceKey actorID sourceTeam targetTeam : Text}
    {snapshot : MavenRestoreSnapshot}
    (h : mavenRestoreStateTx env resources repository resourceKey actorID =
      .ok (snapshot, sourceTeam, targetTeam)) :
    ∃ artifact, resources.load ⟨.mavenArtifact, repository, resourceKey⟩ = some artifact ∧
      artifact.binding = sourceTeam ∧ artifact.reclaimHoldAt ≠ 0 := by
  unfold mavenRestoreStateTx at h
  split at h
  · cases h
  split at h
  · cases h
  rename_i artifact hload
  split at h
  · cases h
  · cases h
  split_ifs at h with _ hstate
  split at h
  · cases h
  cases h
  exact ⟨artifact, hload, rfl, fun hzero => hstate (Or.inl hzero)⟩

theorem applyMavenRestoreTx_cases
    (h : applyMavenRestoreTx code env t id task = .ok resources') :
    ∃ row, t.resources.load ⟨.mavenArtifact, task.repository, task.resourceKey⟩ = some row ∧
      row.binding = task.sourceTeamPrefix ∧ row.reclaimHoldAt ≠ 0 ∧
      ∀ key, resources'.load key =
        if key = ⟨.mavenArtifact, task.repository, task.resourceKey⟩ then
          some { row with reclaimHoldAt := 0, binding := task.targetTeamPrefix }
        else t.resources.load key := by
  unfold applyMavenRestoreTx at h
  split at h
  · cases h
  · cases h
  split at h
  · cases h
  split_ifs at h
  split at h
  · cases h
  rename_i hstate
  split_ifs at h with hsame
  simp only [not_or, not_not] at hsame
  obtain ⟨-, hsource, htarget⟩ := hsame
  obtain ⟨artifact, hload, hbinding, hhold⟩ := mavenRestoreStateTx_cases hstate
  obtain ⟨row, hload', hothers⟩ := updateHold_cases h
  rw [hload] at hload'
  cases hload'
  rw [htarget] at hothers
  exact ⟨artifact, hload, hbinding.trans hsource, hhold, hothers⟩

theorem transferred_of_row {row row' : Resource}
    (hload : resources.load task.resource = some row) (hsource : row.binding = task.sourceTeamPrefix)
    (htarget : row'.binding = task.targetTeamPrefix)
    (hhold : task.kind = .mavenRestore → row.reclaimHoldAt ≠ 0 ∧ row'.reclaimHoldAt = 0)
    (hothers : ∀ key, resources'.load key =
      if key = task.resource then some row' else resources.load key) :
    Transferred task resources resources' := by
  constructor
  · refine ⟨row, row', hload, ?_, hsource, htarget, hhold⟩
    rw [hothers, if_pos rfl]
  · intro key hkey
    rw [hothers, if_neg hkey]

theorem applyReview_cases {decision : ReviewStatus} (hformed : Formed code digested task)
    (h : applyReview code env t id task decision = .ok resources') :
    (decision = .approved ∧ task.kind.transfers = true ∧ Transferred task t.resources resources') ∨
      (¬(decision = .approved ∧ task.kind.transfers = true) ∧ resources' = t.resources) := by
  unfold applyReview at h
  split_ifs at h with happly hrestore
  · have hresource : task.resource = ⟨.mavenArtifact, task.repository, task.resourceKey⟩ := by
      rw [ReviewTask.resource, hformed.restored hrestore]
    obtain ⟨row, hload, hbinding, hhold, hothers⟩ := applyMavenRestoreTx_cases h
    rw [← hresource] at hload hothers
    exact Or.inl ⟨happly.1, happly.2,
      transferred_of_row hload hbinding rfl (fun _ => ⟨hhold, rfl⟩) hothers⟩
  · obtain ⟨row, hload, hbinding, hothers⟩ := updateBinding_cases (applySuperTeamTransferTx_cases h)
    exact Or.inl ⟨happly.1, happly.2,
      transferred_of_row hload hbinding rfl (fun hkind => absurd hkind hrestore) hothers⟩
  · cases h
    exact Or.inr ⟨happly, rfl⟩

structure Fresh (code : Coding) (digested : Set (List Text)) (tasks : GoMap Text ReviewTask)
    (id : Text) (task : ReviewTask) : Prop where
  absent : tasks.load id = none
  pending : task.status = .pending
  formed : Formed code digested task
  key : ∀ id' other, tasks.load id' = some other → other.activeKey.isSome = true →
    other.activeKey ≠ task.activeKey

structure Settles (tasks : GoMap Text ReviewTask) (id : Text) (task done : ReviewTask)
    (tasks' : GoMap Text ReviewTask) : Prop where
  load : tasks.load id = some task
  pending : task.status = .pending
  settled : done.status ≠ .pending
  kind : done.kind = task.kind
  formed : ∀ code digested, Formed code digested task → Formed code digested done
  others : ∀ key, tasks'.load key = if key = id then some done else tasks.load key

def ReviewCall.decides (id : Text) : ReviewCall → Bool
  | .decideReviewTask _ id' _ _ _ _ => id' == id
  | _ => false

def ReviewCall.writes : ReviewCall → Bool
  | .writeResources _ => true
  | _ => false

/-- The cases of a call: no change, a write of the resources from elsewhere, files for a pending
publication, a new task, or a settled one. -/
inductive Effect (code : Coding) (digested : Set (List Text)) (c : ReviewCall)
    (t t' : ReviewTables) : Prop where
  | same (tasks : t'.tasks = t.tasks) (files : t'.files = t.files)
      (resources : t'.resources = t.resources)
  | written (writes : c.writes = true) (tasks : t'.tasks = t.tasks) (files : t'.files = t.files)
  | attached (taskID repository : Text) (publishes : Publishes t.tasks repository taskID)
      (tasks : t'.tasks = t.tasks) (resources : t'.resources = t.resources)
      (files : Attached code t.tasks taskID repository t.files t'.files)
  | inserted (id : Text) (task : ReviewTask) (fresh : Fresh code digested t.tasks id task)
      (tasks : t'.tasks = t.tasks.store id task) (resources : t'.resources = t.resources)
      (files : t'.files = t.files ∨ Publishes t'.tasks task.repository id ∧
        Attached code t'.tasks id task.repository t.files t'.files)
  | transferred (id : Text) (task done : ReviewTask)
      (settles : Settles t.tasks id task done t'.tasks) (files : t'.files = t.files)
      (approved : done.status = .approved) (transfers : task.kind.transfers = true)
      (decides : c.decides id = true) (moved : Transferred task t.resources t'.resources)
  | settled (id : Text) (task done : ReviewTask)
      (settles : Settles t.tasks id task done t'.tasks) (files : t'.files = t.files)
      (untransferred : ¬(done.status = .approved ∧ task.kind.transfers = true))
      (resources : t'.resources = t.resources)

theorem insertReviewTask_cases (h : insertReviewTask t id task = .ok t')
    (hpending : task.status = .pending) (hformed : Formed code digested task) :
    Fresh code digested t.tasks id task ∧ t'.tasks = t.tasks.store id task ∧ t'.resources = t.resources ∧
      t'.files = t.files := by
  unfold insertReviewTask at h
  split_ifs at h with hunique
  cases h
  rw [not_or, Nat.not_lt, Nat.le_zero, GoMap.count_eq_zero_iff, Bool.not_eq_true,
    GoMap.has_eq_false] at hunique
  refine ⟨⟨hunique.1, hpending, hformed, ?_⟩, rfl, rfl, rfl⟩
  intro id' other hload hsome heq
  have hno := hunique.2 id' other hload
  rw [hsome, Bool.and_true, decide_eq_false_iff_not] at hno
  exact hno heq

theorem completeReviewTask_cases {allowed : ReviewTask → Bool} {status : ReviewStatus}
    {reason actorID actor : Text} {decidedAt : ℤ} (hstatus : status ≠ .pending)
    (h : completeReviewTask t id allowed status reason actorID actor decidedAt = .ok t') :
    ∃ task done, Settles t.tasks id task done t'.tasks ∧ done.status = status ∧
      t'.files = t.files ∧ t'.resources = t.resources := by
  unfold completeReviewTask at h
  dsimp only at h
  split_ifs at h with hcount
  cases h
  obtain ⟨task, hload, hrow, hothers⟩ := GoMap.load_updateRow (not_not.mp hcount)
  rw [Bool.and_eq_true, beq_iff_eq] at hrow
  refine ⟨task, _, ⟨hload, hrow.1, ?_, ?_, ?_, hothers⟩, ?_, rfl, rfl⟩
  · exact hstatus
  · rfl
  · intro _ _ hformed
    refine ⟨?_, hformed.teams, hformed.restored, nofun⟩
    constructor
    · intro hsome
      cases hsome
    · intro hpending
      exact absurd hpending hstatus
  · rfl

theorem settleReviewTask_cases {status : ReviewStatus} {reason actorID actor : Text}
    {decidedAt : ℤ} (hload : t.tasks.load id = some task) (hstatus : status ≠ .pending)
    (h : settleReviewTask t id task status reason actorID actor decidedAt = .ok t') :
    ∃ done, Settles t.tasks id task done t'.tasks ∧ done.status = status ∧
      t'.files = t.files ∧ t'.resources = t.resources := by
  unfold settleReviewTask at h
  split at h
  · cases h
  rename_i hcomplete
  cases h
  obtain ⟨task', done, hsettles, hdone, hkept⟩ := completeReviewTask_cases hstatus hcomplete
  have hsame : task' = task := Option.some.inj (hsettles.load.symm.trans hload)
  rw [hsame] at hsettles
  exact ⟨done, hsettles, hdone, hkept⟩

theorem decidePendingTask_effect {c : ReviewCall} {decision : ReviewStatus}
    {reason actorID actor : Text} {decidedAt : ℤ} (hdecides : c.decides id = true)
    (hload : t.tasks.load id = some task) (hformed : Formed code digested task)
    (hdecision : decision = .approved ∨ decision = .rejected)
    (h : decidePendingTask code env t id task decision reason actorID actor decidedAt = .ok t') :
    Effect code digested c t t' := by
  have hstatus : decision ≠ .pending := by
    intro heq
    rw [heq] at hdecision
    rcases hdecision with hcase | hcase
    · cases hcase
    · cases hcase
  unfold decidePendingTask at h
  split at h
  · rename_i resources hresources
    have hload' : ({ t with resources := resources } : ReviewTables).tasks.load id = some task :=
      hload
    obtain ⟨done, hsettles, hdone, hfiles, hmoved⟩ := settleReviewTask_cases hload' hstatus h
    dsimp only at hmoved
    rcases applyReview_cases hformed hresources with ⟨happroved, htransfers, htransferred⟩ | hnone
    · rw [← hmoved] at htransferred
      exact .transferred id task done hsettles hfiles (hdone.trans happroved) htransfers hdecides
        htransferred
    · rw [← hdone] at hnone
      exact .settled id task done hsettles hfiles hnone.1 (hmoved.trans hnone.2)
  · split_ifs at h
    have hcancelled : ReviewStatus.cancelled ≠ .pending := by decide
    obtain ⟨done, hsettles, hdone, hfiles, hkept⟩ := settleReviewTask_cases hload hcancelled h
    refine .settled id task done hsettles hfiles ?_ hkept
    intro happroved
    rw [hdone] at happroved
    cases happroved.1

theorem decideReviewTask_effect {actor : Text} {decision : ReviewStatus} {reason : Option Text}
    {decidedAt : ℤ} (hformed : ∀ id task, t.tasks.load id = some task → Formed code digested task)
    (h : decideReviewTask code env t id actor decision reason decidedAt = .ok t') :
    Effect code digested (.decideReviewTask env id actor decision reason decidedAt) t t' := by
  have hdecides : (ReviewCall.decideReviewTask env id actor decision reason decidedAt).decides id =
      true := beq_self_eq_true id
  unfold decideReviewTask at h
  split at h
  · cases h
  split_ifs at h with hinvalid
  have hdecision : decision = .approved ∨ decision = .rejected := by
    by_contra hnot
    exact hinvalid (Or.inr (Or.inr (Or.inl hnot)))
  split at h
  · cases h
  · cases h
  rename_i task _ hload
  split_ifs at h
  split at h
  · cases h
  exact decidePendingTask_effect hdecides hload (hformed id task hload) hdecision h

theorem cancelReviewTask_effect {c : ReviewCall} {actor : Text} {cancelledAt : ℤ}
    (h : cancelReviewTask env t id actor cancelledAt = .ok t') : Effect code digested c t t' := by
  unfold cancelReviewTask at h
  split at h
  · cases h
  split_ifs at h
  split at h
  · cases h
  split_ifs at h
  split at h
  · cases h
  rename_i hcomplete
  cases h
  have hcancelled : ReviewStatus.cancelled ≠ .pending := by decide
  obtain ⟨task, done, hsettles, hdone, hfiles, hkept⟩ :=
    completeReviewTask_cases hcancelled hcomplete
  refine .settled id task done hsettles hfiles ?_ hkept
  intro happroved
  rw [hdone] at happroved
  cases happroved.1

theorem inserted_effect {c : ReviewCall} (hpending : task.status = .pending)
    (hformed : Formed code digested task) (h : insertReviewTask t id task = .ok t') : Effect code digested c t t' := by
  obtain ⟨hfresh, htasks, hresources, hfiles⟩ := insertReviewTask_cases h hpending hformed
  exact .inserted id task hfresh htasks hresources (Or.inl hfiles)

theorem inserted_payload_effect {c : ReviewCall} {opened : ReviewTables} {payload : Text}
    (hpending : task.status = .pending) (hformed : Formed code digested task)
    (h : insertReviewTask t id task = .ok opened)
    (hpaid : savePublicationReviewPayloadTx opened id payload = .ok t') : Effect code digested c t t' := by
  obtain ⟨hfresh, htasks, hresources, hfiles⟩ := insertReviewTask_cases h hpending hformed
  obtain ⟨htasks', hresources', hfiles'⟩ := savePublicationReviewPayloadTx_cases hpaid
  exact .inserted id task hfresh (htasks'.trans htasks) (hresources'.trans hresources)
    (Or.inl (hfiles'.trans hfiles))

theorem transferReviewTeam_ne {key : ResourceID} {binding target actorID reviewTeam : Text}
    (h : transferReviewTeam env key binding target actorID = .ok reviewTeam) :
    binding ≠ target := by
  unfold transferReviewTeam at h
  split_ifs at h with hin _ hout
  · rw [hin.1]
    exact hin.2.symm
  · rw [hout.2]
    exact hout.1

theorem createSuperTeamTransferReview_effect {c : ReviewCall} {resourceType : ResourceType}
    {newID repository resourceKey actor : Text} {targetTeam : Option Text} {createdAt : ℤ}
    (hkey : transferReviewParts (requestedResource resourceType repository resourceKey) ∈ digested)
    (h : createSuperTeamTransferReview code env t newID resourceType repository resourceKey
      targetTeam actor createdAt = .ok t') : Effect code digested c t t' := by
  unfold createSuperTeamTransferReview at h
  dsimp only at h
  split at h
  · cases h
  split at h
  · cases h
  split at h
  · cases h
  split at h
  · cases h
  split at h
  · cases h
  split at h
  · cases h
  split at h
  · cases h
  rename_i hteam
  split at h
  · cases h
  refine inserted_effect rfl ⟨?_, ?_, ?_, ?_⟩ h
  · exact ⟨fun _ => rfl, fun _ => rfl⟩
  · intro _
    exact transferReviewTeam_ne hteam
  · intro hkind
    cases hkind
  · intro key heq
    cases heq
    exact ⟨_, hkey, rfl, nofun⟩

theorem createMavenRestoreReview_effect {c : ReviewCall} {newID repository groupID artifactID
    actor : Text} {createdAt : ℤ}
    (hkey : mavenRestoreParts repository (groupID ++ [':'] ++ artifactID) ∈ digested)
    (h : createMavenRestoreReview code env t newID repository groupID artifactID actor createdAt =
      .ok t') : Effect code digested c t t' := by
  unfold createMavenRestoreReview at h
  dsimp only at h
  split at h
  · cases h
  split at h
  · cases h
  split at h
  · cases h
  split_ifs at h
  split at h
  · cases h
  rename_i hinsert
  refine inserted_payload_effect rfl ⟨?_, ?_, ?_, ?_⟩ hinsert h
  · exact ⟨fun _ => rfl, fun _ => rfl⟩
  · intro hkind
    cases hkind
  · intro _
    rfl
  · intro key heq
    cases heq
    exact ⟨_, hkey, rfl, nofun⟩

theorem gitRepoTask_formed {kind : ReviewKind} {repository targetRepo team actorID actor : Text}
    {parts : List Text} {createdAt : ℤ} (hteam : kind ≠ .superTeamTransfer)
    (hrestore : kind ≠ .mavenRestore) (hpublication : kind ≠ .publication)
    (hkey : kind.text :: parts ∈ digested) :
    Formed code digested (gitRepoTask kind repository targetRepo team actorID actor createdAt
      (code.sha256Hex (kind.text :: parts))) := by
  constructor
  · exact ⟨fun _ => rfl, fun _ => rfl⟩
  · intro hkind
    exact absurd hkind hteam
  · intro hkind
    exact absurd hkind hrestore
  · intro key heq
    cases heq
    exact ⟨parts, hkey, rfl, fun hkind => absurd hkind hpublication⟩

theorem createGitRepoRegistrationTask_effect {c : ReviewCall} {newID repository targetRepo team
    actor : Text} {createdAt : ℤ}
    (hkey : gitRepoParts .gitRepoRegistration repository (code.toLower targetRepo) ∈ digested)
    (h : createGitRepoRegistrationTask code env t newID repository targetRepo team actor
      createdAt = .ok t') : Effect code digested c t t' := by
  unfold createGitRepoRegistrationTask at h
  dsimp only at h
  split at h
  · cases h
  split at h
  · cases h
  split_ifs at h
  exact inserted_effect rfl (gitRepoTask_formed (by decide) (by decide) (by decide) hkey) h

theorem createGitRepoQuotaTask_effect {c : ReviewCall} {newID repository targetRepo team actor
    payload : Text} {cooldownHours createdAt : ℤ}
    (hkey : gitRepoParts .gitRepoQuota repository targetRepo ∈ digested)
    (h : createGitRepoQuotaTask code env t newID repository targetRepo team actor payload
      cooldownHours createdAt = .ok t') : Effect code digested c t t' := by
  unfold createGitRepoQuotaTask at h
  dsimp only at h
  split at h
  · cases h
  split at h
  · cases h
  split_ifs at h
  split at h
  · cases h
  rename_i hinsert
  exact inserted_payload_effect rfl (gitRepoTask_formed (by decide) (by decide) (by decide) hkey) hinsert h

theorem createPublicationReview_effect {c : ReviewCall} {newID reviewTeam targetTeam : Text}
    {request : PublicationReviewRequest} {policy : ReviewPolicy} {rows : List ReviewFile}
    {result : Option Text}
    (hkey : publicationReviewParts request.resourceType request.repository
      (publicationReviewKey code request.resourceKey request.version) ∈ digested)
    (h : createPublicationReview code env t newID request policy reviewTeam targetTeam rows =
      .ok (t', result)) : Effect code digested c t t' := by
  unfold createPublicationReview at h
  dsimp only at h
  split_ifs at h
  · cases h
    exact .same rfl rfl rfl
  · cases h
    exact .same rfl rfl rfl
  split at h
  · cases h
  split at h
  · cases h
  split_ifs at h
  split at h
  · cases h
  rename_i opened hinsert
  have hkeyed : ∀ key, some (publicationReviewActiveKey code request.resourceType
      request.repository (publicationReviewKey code request.resourceKey request.version)) =
        some key → ∃ parts, ReviewKind.publication.text :: parts ∈ digested ∧
          key = code.sha256Hex (ReviewKind.publication.text :: parts) ∧
          (ReviewKind.publication = .publication → parts = [request.resourceType.text,
            request.repository, publicationReviewKey code request.resourceKey request.version]) := by
    intro key heq
    cases heq
    exact ⟨_, hkey, rfl, fun _ => rfl⟩
  obtain ⟨hfresh, htasks, hresources, hfiles⟩ := insertReviewTask_cases hinsert rfl
    ⟨⟨fun _ => rfl, fun _ => rfl⟩, nofun, nofun, hkeyed⟩
  obtain ⟨htasks', hresources', hattached⟩ := savePublicationReview_cases h
  refine .inserted newID _ hfresh (htasks'.trans htasks) (hresources'.trans hresources)
    (Or.inr ⟨?_, ?_⟩)
  · rw [htasks', htasks, publishes_iff]
    exact ⟨_, GoMap.load_store_self _ _ _, rfl, rfl, rfl⟩
  · rw [htasks', ← hfiles]
    exact hattached

theorem pendingTask_some {activeKey : Text} (h : pendingTask t activeKey = some id) :
    ∃ task, t.tasks.load id = some task ∧ task.activeKey = some activeKey ∧
      task.status = .pending := by
  have hfound := List.find?_some h
  rw [Option.any_eq_true_iff_get] at hfound
  obtain ⟨hsome, hp⟩ := hfound
  rw [Bool.and_eq_true, beq_iff_eq, beq_iff_eq] at hp
  exact ⟨_, (Option.some_get hsome).symm, hp⟩

theorem ReviewKind.text_publication {kind : ReviewKind}
    (h : kind.text = ReviewKind.publication.text) : kind = .publication := by
  cases kind with
  | publication => rfl
  | superTeamTransfer | mavenRestore | gitRepoRegistration | gitRepoQuota | feedback | suggestion
  | report =>
    revert h
    decide

theorem pendingTask_publishes {resourceType : ResourceType} {repository storedResourceKey : Text}
    (hformed : ∀ id task, t.tasks.load id = some task → Formed code digested task)
    (hinj : Set.InjOn code.sha256Hex digested)
    (hkey : publicationReviewParts resourceType repository storedResourceKey ∈ digested)
    (h : pendingTask t (publicationReviewActiveKey code resourceType repository
      storedResourceKey) = some id) : Publishes t.tasks repository id := by
  obtain ⟨task, hload, hactive, hpending⟩ := pendingTask_some h
  obtain ⟨parts, hparts, heq, hpublication⟩ := (hformed id task hload).keyed _ hactive
  have hsame := hinj hkey hparts heq
  obtain ⟨hkind, hrest⟩ := List.cons.inj hsame
  have hkind' := ReviewKind.text_publication hkind.symm
  rw [hpublication hkind'] at hrest
  have hrepository : repository = task.repository :=
    (List.cons.inj (List.cons.inj hrest).2).1
  exact publishes_iff.mpr ⟨task, hload, hkind', hpending, hrepository.symm⟩

theorem updatePublicationReview_effect {c : ReviewCall} {taskID reviewTeam targetTeam : Text}
    {request : PublicationReviewRequest} {rows : List ReviewFile} {result : Option Text}
    (hpub : Publishes t.tasks request.repository taskID)
    (h : updatePublicationReview code env t taskID task request reviewTeam targetTeam rows =
      .ok (t', result)) : Effect code digested c t t' := by
  unfold updatePublicationReview at h
  split_ifs at h
  · cases h
    exact .same rfl rfl rfl
  · obtain ⟨htasks, hresources, hfiles⟩ := savePublicationReview_cases h
    exact .attached taskID request.repository hpub htasks hresources hfiles

theorem createOrUpdatePublicationReview_effect {c : ReviewCall} {newID : Text}
    {request : PublicationReviewRequest} {result : Option Text}
    (hformed : ∀ id task, t.tasks.load id = some task → Formed code digested task)
    (hinj : Set.InjOn code.sha256Hex digested)
    (hkey : publicationReviewParts request.resourceType request.repository
      (publicationReviewKey code request.resourceKey request.version) ∈ digested)
    (h : createOrUpdatePublicationReview code env t newID request = .ok (t', result)) :
    Effect code digested c t t' := by
  unfold createOrUpdatePublicationReview at h
  dsimp only at h
  split at h
  · cases h
  split at h
  · cases h
  split at h
  · exact createPublicationReview_effect hkey h
  rename_i taskID hpending
  split at h
  · cases h
  exact updatePublicationReview_effect (pendingTask_publishes hformed hinj hkey hpending) h

end RenoP.Review
