import RenoP.Review.StateMachine

/-!
# The reviews of a run

Every run of the calls from empty review tables, in any order.
-/

namespace RenoP.Review

open RenoP.Database (Text)

def ReviewCall.digested (code : Coding) : ReviewCall → List (List Text)
  | .createOrUpdatePublicationReview _ _ request =>
    [publicationReviewParts request.resourceType request.repository
      (publicationReviewKey code request.resourceKey request.version)]
  | .createSuperTeamTransferReview _ _ resourceType repository resourceKey _ _ _ =>
    [transferReviewParts (requestedResource resourceType repository resourceKey)]
  | .createMavenRestoreReview _ _ repository groupID artifactID _ _ =>
    [mavenRestoreParts repository (groupID ++ [':'] ++ artifactID)]
  | .createGitRepoRegistrationTask _ _ repository targetRepo _ _ _ =>
    [gitRepoParts .gitRepoRegistration repository (code.toLower targetRepo)]
  | .createGitRepoQuotaTask _ _ repository targetRepo _ _ _ _ _ =>
    [gitRepoParts .gitRepoQuota repository targetRepo]
  | _ => []

def ReviewTables.attached (t : ReviewTables) (repository path taskID : Text) : Prop :=
  Publishes t.tasks repository taskID ∧
    ∃ fileID file, t.files.load (taskID, fileID) = some file ∧ file.path = path

/-- Active keys are those of pending tasks and differ, and a path has one pending publication. -/
structure Sound (t : ReviewTables) : Prop where
  active : ∀ id task, t.tasks.load id = some task →
    (task.activeKey.isSome = true ↔ task.status = .pending)
  distinct : ∀ id id' task task', t.tasks.load id = some task → t.tasks.load id' = some task' →
    task.status = .pending → task'.status = .pending → task.activeKey = task'.activeKey → id = id'
  attached : ∀ repository path id id', t.attached repository path id →
    t.attached repository path id' → id = id'

def KeepsSettled (code : Coding) (t : ReviewTables) (c : ReviewCall) : Prop :=
  ∀ id task, t.tasks.load id = some task → task.status ≠ .pending →
    (t.next code c).tasks.load id = some task ∧
      ∀ fileID, (t.next code c).files.load (id, fileID) = t.files.load (id, fileID)

def appliesTransfer (code : Coding) (id : Text) (t : ReviewTables) (c : ReviewCall) : Bool :=
  c.decides id && (t.tasks.load id).any fun task =>
    decide ((t.next code c).resources.load task.resource ≠ t.resources.load task.resource)

def MovesAsAsked (code : Coding) (t : ReviewTables) (c : ReviewCall) : Prop :=
  c.writes = true ∨ (t.next code c).resources = t.resources ∨
    ∃ id task, appliesTransfer code id t c = true ∧ t.tasks.load id = some task ∧
      task.kind.transfers = true ∧ Transferred task t.resources (t.next code c).resources

def leavesPending (code : Coding) (id : Text) (t : ReviewTables) (c : ReviewCall) : Bool :=
  (t.tasks.load id).any (·.status == .pending) &&
    ((t.next code c).tasks.load id).any (·.status != .pending)

def ReviewTables.transferApproved (t : ReviewTables) (id : Text) : Bool :=
  (t.tasks.load id).any fun task => task.kind.transfers && task.status == .approved

structure ReviewKept (code : Coding) (digested : Set (List Text)) (t : ReviewTables) : Prop where
  formed : ∀ id task, t.tasks.load id = some task → Formed code digested task
  distinct : ∀ id id' task task', t.tasks.load id = some task → t.tasks.load id' = some task' →
    task.activeKey.isSome = true → task.activeKey = task'.activeKey → id = id'
  named : ∀ key file, t.files.load key = some file → key.2 = code.sha256Hex [file.path]
  held : ∀ key file, t.files.load key = some file → t.tasks.has key.1 = true
  single : OneTask t.tasks t.files

variable {code : Coding} {digested : Set (List Text)} {t t' : ReviewTables} {c : ReviewCall}
  {id : Text}

theorem call_effect (hkept : ReviewKept code digested t) (hinj : Set.InjOn code.sha256Hex digested)
    (hkeys : ∀ parts ∈ c.digested code, parts ∈ digested) (h : t.call code c = .ok t') :
    Effect code digested c t t' := by
  cases c with
  | createOrUpdatePublicationReview env newID request =>
    have hmap : (createOrUpdatePublicationReview code env t newID request).map Prod.fst =
      .ok t' := h
    cases hresult : createOrUpdatePublicationReview code env t newID request with
    | error err =>
      rw [hresult] at hmap
      cases hmap
    | ok result =>
      rw [hresult] at hmap
      cases hmap
      exact createOrUpdatePublicationReview_effect hkept.formed hinj
        (hkeys _ (List.mem_singleton.mpr rfl)) hresult
  | savePublicationReviewFileTx taskID repository file =>
    unfold ReviewTables.call at h
    dsimp only at h
    split_ifs at h with hpub
    · obtain ⟨htasks, hresources, hfiles⟩ := savePublicationReviewFileTx_cases h
      exact .attached taskID repository hpub htasks hresources hfiles
    · cases h
      exact .same rfl rfl rfl
  | decideReviewTask env id actor decision reason decidedAt =>
    exact decideReviewTask_effect hkept.formed h
  | cancelReviewTask env id actor cancelledAt => exact cancelReviewTask_effect h
  | createSuperTeamTransferReview env newID resourceType repository resourceKey team actor at_ =>
    exact createSuperTeamTransferReview_effect (hkeys _ (List.mem_singleton.mpr rfl)) h
  | createMavenRestoreReview env newID repository groupID artifactID actor createdAt =>
    exact createMavenRestoreReview_effect (hkeys _ (List.mem_singleton.mpr rfl)) h
  | createGitRepoRegistrationTask env newID repository targetRepo team actor createdAt =>
    exact createGitRepoRegistrationTask_effect (hkeys _ (List.mem_singleton.mpr rfl)) h
  | createGitRepoQuotaTask env newID repository targetRepo team actor payload hours createdAt =>
    exact createGitRepoQuotaTask_effect (hkeys _ (List.mem_singleton.mpr rfl)) h
  | writeResources resources =>
    cases h
    exact .written rfl rfl rfl

theorem next_effect (hkept : ReviewKept code digested t) (hinj : Set.InjOn code.sha256Hex digested)
    (hkeys : ∀ parts ∈ c.digested code, parts ∈ digested) :
    Effect code digested c t (t.next code c) := by
  unfold ReviewTables.next
  split
  · exact call_effect hkept hinj hkeys ‹_›
  · exact .same rfl rfl rfl

theorem Settles.load_of_settled {tasks tasks' : GoMap Text ReviewTask} {key : Text}
    {task done other : ReviewTask} (h : Settles tasks id task done tasks')
    (hload : tasks.load key = some other) (hother : other.status ≠ .pending) :
    tasks'.load key = some other ∧ id ≠ key := by
  have hne : key ≠ id := by
    intro heq
    rw [heq, h.load] at hload
    cases hload
    exact hother h.pending
  rw [h.others, if_neg hne]
  exact ⟨hload, hne.symm⟩

theorem Settles.publishes {tasks tasks' : GoMap Text ReviewTask} {key repository : Text}
    {task done : ReviewTask} (h : Settles tasks id task done tasks')
    (hpub : Publishes tasks' repository key) : Publishes tasks repository key := by
  obtain ⟨other, hload, hkind, hpending, hrepository⟩ := publishes_iff.mp hpub
  rw [h.others] at hload
  split_ifs at hload
  · cases hload
    exact absurd hpending h.settled
  · exact publishes_iff.mpr ⟨other, hload, hkind, hpending, hrepository⟩

theorem Settles.kept {task done : ReviewTask} (hkept : ReviewKept code digested t)
    (h : Settles t.tasks id task done t'.tasks) (hfiles : t'.files = t.files) :
    ReviewKept code digested t' := by
  have hdone := h.formed code digested (hkept.formed id task h.load)
  have hkey : ¬done.activeKey.isSome = true := fun hsome => h.settled (hdone.active.mp hsome)
  constructor
  · intro key other hload
    rw [h.others] at hload
    split_ifs at hload
    · cases hload
      exact hdone
    · exact hkept.formed key other hload
  · intro key key' other other' hload hload' hsome heq
    rw [h.others] at hload hload'
    split_ifs at hload
    · cases hload
      exact absurd hsome hkey
    split_ifs at hload'
    · cases hload'
      rw [heq] at hsome
      exact absurd hsome hkey
    exact hkept.distinct key key' other other' hload hload' hsome heq
  · intro key file hload
    rw [hfiles] at hload
    exact hkept.named key file hload
  · intro key file hload
    rw [hfiles] at hload
    obtain ⟨other, hother⟩ := (GoMap.has_eq_true _ _).mp (hkept.held key file hload)
    rw [GoMap.has_eq_true, h.others]
    split_ifs
    · exact ⟨done, rfl⟩
    · exact ⟨other, hother⟩
  · intro repository fileID key key' hhas hhas' hpub hpub'
    rw [hfiles] at hhas hhas'
    exact hkept.single repository fileID key key' hhas hhas' (h.publishes hpub) (h.publishes hpub')

theorem Fresh.kept {task : ReviewTask} (hkept : ReviewKept code digested t)
    (hfresh : Fresh code digested t.tasks id task) (htasks : t'.tasks = t.tasks.store id task)
    (hfiles : t'.files = t.files ∨ Publishes t'.tasks task.repository id ∧
      Attached code t'.tasks id task.repository t.files t'.files) :
    ReviewKept code digested t' := by
  have hstays : ∀ key, t.tasks.has key = true → t'.tasks.load key = t.tasks.load key := by
    intro key hkey
    rw [htasks, GoMap.load_store_ne]
    intro heq
    obtain ⟨other, hother⟩ := (GoMap.has_eq_true _ _).mp hkey
    rw [heq, hfresh.absent] at hother
    cases hother
  -- the files of the tables before belong to older tasks
  have hsingle : OneTask t'.tasks t.files := by
    intro repository fileID key key' hhas hhas' hpub hpub'
    have hheld : ∀ {key}, t.files.has (key, fileID) = true → t.tasks.has key = true := by
      intro key hhas
      obtain ⟨file, hload⟩ := (GoMap.has_eq_true _ _).mp hhas
      exact hkept.held _ file hload
    unfold Publishes at hpub hpub'
    rw [hstays _ (hheld hhas)] at hpub
    rw [hstays _ (hheld hhas')] at hpub'
    exact hkept.single repository fileID key key' hhas hhas' hpub hpub'
  have hrows : ∀ key file, t'.files.load key = some file →
      t.files.load key = some file ∨ key.1 = id ∧ key.2 = code.sha256Hex [file.path] := by
    rcases hfiles with heq | ⟨-, hattached⟩
    · intro key file hload
      rw [heq] at hload
      exact Or.inl hload
    · exact hattached.rows
  constructor
  · intro key other hload
    rw [htasks, GoMap.load_store] at hload
    split_ifs at hload
    · cases hload
      exact hfresh.formed
    · exact hkept.formed key other hload
  · intro key key' other other' hload hload' hsome heq
    rw [htasks, GoMap.load_store] at hload hload'
    split_ifs at hload with hkey
    · cases hload
      split_ifs at hload' with hkey'
      · exact hkey.trans hkey'.symm
      · rw [heq] at hsome
        exact absurd heq.symm (hfresh.key key' other' hload' hsome)
    · split_ifs at hload' with hkey'
      · cases hload'
        exact absurd heq (hfresh.key key other hload hsome)
      · exact hkept.distinct key key' other other' hload hload' hsome heq
  · intro key file hload
    rcases hrows key file hload with hold | hnew
    · exact hkept.named key file hold
    · exact hnew.2
  · intro key file hload
    rcases hrows key file hload with hold | hnew
    · have hhas := hkept.held key file hold
      rw [GoMap.has, hstays _ hhas]
      exact hhas
    · rw [hnew.1, htasks, GoMap.has, GoMap.load_store_self]
      rfl
  · rcases hfiles with heq | ⟨hpub, hattached⟩
    · rw [heq]
      exact hsingle
    · exact hattached.single hpub hsingle

theorem effect_kept (hkept : ReviewKept code digested t) (h : Effect code digested c t t') :
    ReviewKept code digested t' := by
  cases h with
  | same htasks hfiles _ | written _ htasks hfiles =>
    obtain ⟨hformed, hdistinct, hnamed, hheld, hsingle⟩ := hkept
    rw [← htasks] at hformed hdistinct hheld hsingle
    rw [← hfiles] at hnamed hheld hsingle
    exact ⟨hformed, hdistinct, hnamed, hheld, hsingle⟩
  | attached taskID repository hpub htasks _ hfiles =>
    obtain ⟨hformed, hdistinct, hnamed, hheld, hsingle⟩ := hkept
    have hsingle' := hfiles.single hpub hsingle
    rw [← htasks] at hformed hdistinct hsingle'
    refine ⟨hformed, hdistinct, ?_, ?_, hsingle'⟩
    · intro key file hload
      rcases hfiles.rows key file hload with hold | hnew
      · exact hnamed key file hold
      · exact hnew.2
    · intro key file hload
      rw [htasks]
      rcases hfiles.rows key file hload with hold | hnew
      · exact hheld key file hold
      · obtain ⟨task, htask, -⟩ := publishes_iff.mp hpub
        rw [hnew.1]
        exact (GoMap.has_eq_true _ _).mpr ⟨task, htask⟩
  | inserted id task hfresh htasks _ hfiles => exact hfresh.kept hkept htasks hfiles
  | transferred id task done hsettles hfiles => exact hsettles.kept hkept hfiles
  | settled id task done hsettles hfiles => exact hsettles.kept hkept hfiles

theorem effect_settled {task : ReviewTask} (h : Effect code digested c t t')
    (hload : t.tasks.load id = some task) (htask : task.status ≠ .pending) :
    t'.tasks.load id = some task ∧
      ∀ fileID, t'.files.load (id, fileID) = t.files.load (id, fileID) := by
  have hnot : ∀ {tasks : GoMap Text ReviewTask} {repository}, tasks.load id = some task →
      ¬Publishes tasks repository id := by
    intro tasks repository hload hpub
    obtain ⟨other, hother, -, hpending, -⟩ := publishes_iff.mp hpub
    rw [hload] at hother
    cases hother
    exact htask hpending
  cases h with
  | same htasks hfiles _ | written _ htasks hfiles =>
    rw [htasks, hfiles]
    exact ⟨hload, fun _ => rfl⟩
  | attached taskID repository hpub htasks _ hfiles =>
    rw [htasks]
    refine ⟨hload, fun fileID => hfiles.kept _ ?_ (hnot hload)⟩
    intro heq
    rw [← heq] at hpub
    exact hnot hload hpub
  | inserted id' new hfresh htasks _ hfiles =>
    have hne : id ≠ id' := by
      intro heq
      rw [heq, hfresh.absent] at hload
      cases hload
    have hload' : t'.tasks.load id = some task := by
      rw [htasks, GoMap.load_store_ne _ _ hne]
      exact hload
    refine ⟨hload', fun fileID => ?_⟩
    rcases hfiles with heq | ⟨-, hattached⟩
    · rw [heq]
    · exact hattached.kept _ hne (hnot hload')
  | transferred id' other done hsettles hfiles | settled id' other done hsettles hfiles =>
    rw [hfiles]
    exact ⟨(hsettles.load_of_settled hload htask).1, fun _ => rfl⟩

theorem decides_inj {id' : Text} (h : c.decides id = true) (h' : c.decides id' = true) :
    id = id' := by
  cases c with
  | decideReviewTask env key actor decision reason decidedAt =>
    have hid : key = id := beq_iff_eq.mp h
    have hid' : key = id' := beq_iff_eq.mp h'
    exact hid.symm.trans hid'
  | _ => cases h

theorem appliesTransfer_of_changes {task : ReviewTask} (hdecides : c.decides id = true)
    (hload : t.tasks.load id = some task)
    (hchanges : (t.next code c).resources.load task.resource ≠ t.resources.load task.resource) :
    appliesTransfer code id t c = true := by
  unfold appliesTransfer
  rw [hdecides, hload, Bool.true_and, Option.any_some]
  exact decide_eq_true hchanges

theorem not_appliesTransfer_of_resources (h : (t.next code c).resources = t.resources) :
    appliesTransfer code id t c = false := by
  unfold appliesTransfer
  rw [h]
  cases t.tasks.load id with
  | none => simp
  | some task => simp

theorem not_appliesTransfer_of_decides (h : c.decides id = false) :
    appliesTransfer code id t c = false := by
  unfold appliesTransfer
  rw [h, Bool.false_and]

theorem transferApproved_iff : t.transferApproved id = true ↔ ∃ task, t.tasks.load id = some task ∧
    task.kind.transfers = true ∧ task.status = .approved := by
  unfold ReviewTables.transferApproved
  cases t.tasks.load id with
  | none => simp
  | some task => simp

theorem applies_begins (hkept : ReviewKept code digested t)
    (h : Effect code digested c t (t.next code c)) (hnot : ¬t.transferApproved id = true) :
    appliesTransfer code id t c = true ↔ (t.next code c).transferApproved id = true := by
  have hnone : ∀ {p q : Prop}, ¬p → ¬q → (p ↔ q) := fun hp hq => ⟨(absurd · hp), (absurd · hq)⟩
  have hsame : (t.next code c).tasks = t.tasks → ¬(t.next code c).transferApproved id = true := by
    intro htasks happroved
    rw [transferApproved_iff, htasks] at happroved
    exact hnot (transferApproved_iff.mpr happroved)
  cases h with
  | same htasks _ hresources | attached _ _ _ htasks hresources _ =>
    apply hnone
    · exact Bool.eq_false_iff.mp (not_appliesTransfer_of_resources hresources)
    · exact hsame htasks
  | written hwrites htasks _ =>
    have hdecides : c.decides id = false := by
      cases c with
      | writeResources resources => rfl
      | _ => cases hwrites
    apply hnone
    · exact Bool.eq_false_iff.mp (not_appliesTransfer_of_decides hdecides)
    · exact hsame htasks
  | inserted id' task hfresh htasks hresources _ =>
    apply hnone
    · exact Bool.eq_false_iff.mp (not_appliesTransfer_of_resources hresources)
    · intro happroved
      obtain ⟨other, hload, htransfers, hstatus⟩ := transferApproved_iff.mp happroved
      rw [htasks, GoMap.load_store] at hload
      split_ifs at hload
      · cases hload
        rw [hfresh.pending] at hstatus
        cases hstatus
      · exact hnot (transferApproved_iff.mpr ⟨other, hload, htransfers, hstatus⟩)
  | transferred id' task done hsettles _ happroved htransfers hdecides hmoved =>
    by_cases hid : id = id'
    · rw [hid]
      constructor
      · intro _
        apply transferApproved_iff.mpr
        refine ⟨done, ?_, ?_, happroved⟩
        · rw [hsettles.others, if_pos rfl]
        · rw [hsettles.kind]
          exact htransfers
      · intro _
        have hformed := hkept.formed id' task hsettles.load
        exact appliesTransfer_of_changes hdecides hsettles.load (hmoved.changes hformed htransfers)
    · apply hnone
      · intro happlies
        unfold appliesTransfer at happlies
        rw [Bool.and_eq_true] at happlies
        exact hid (decides_inj happlies.1 hdecides)
      · intro h
        obtain ⟨other, hload, hother⟩ := transferApproved_iff.mp h
        rw [hsettles.others, if_neg hid] at hload
        exact hnot (transferApproved_iff.mpr ⟨other, hload, hother⟩)
  | settled id' task done hsettles _ huntransferred hresources =>
    apply hnone
    · exact Bool.eq_false_iff.mp (not_appliesTransfer_of_resources hresources)
    · intro h
      obtain ⟨other, hload, htransfers, hstatus⟩ := transferApproved_iff.mp h
      rw [hsettles.others] at hload
      split_ifs at hload
      · cases hload
        rw [hsettles.kind] at htransfers
        exact huntransferred ⟨hstatus, htransfers⟩
      · exact hnot (transferApproved_iff.mpr ⟨other, hload, htransfers, hstatus⟩)

theorem applies_lasts (h : Effect code digested c t (t.next code c))
    (happroved : t.transferApproved id = true) :
    (t.next code c).transferApproved id = true ∧ appliesTransfer code id t c = false := by
  obtain ⟨task, hload, htransfers, hstatus⟩ := transferApproved_iff.mp happroved
  have hsettled : task.status ≠ .pending := by
    rw [hstatus]
    decide
  constructor
  · exact transferApproved_iff.mpr ⟨task, (effect_settled h hload hsettled).1, htransfers, hstatus⟩
  cases h with
  | same _ _ hresources | attached _ _ _ _ hresources _ | inserted _ _ _ _ hresources _
  | settled _ _ _ _ _ _ hresources => exact not_appliesTransfer_of_resources hresources
  | written hwrites _ _ =>
    apply not_appliesTransfer_of_decides
    cases c with
    | writeResources resources => rfl
    | _ => cases hwrites
  | transferred id' other done hsettles _ _ _ hdecides _ =>
    apply not_appliesTransfer_of_decides
    apply Bool.eq_false_iff.mpr
    intro hid
    exact (hsettles.load_of_settled hload hsettled).2 (decides_inj hdecides hid)

theorem effect_moves (hkept : ReviewKept code digested t)
    (h : Effect code digested c t (t.next code c)) : MovesAsAsked code t c := by
  cases h with
  | same _ _ hresources | attached _ _ _ _ hresources _ | inserted _ _ _ _ hresources _
  | settled _ _ _ _ _ _ hresources => exact Or.inr (Or.inl hresources)
  | written hwrites _ _ => exact Or.inl hwrites
  | transferred id task done hsettles _ _ htransfers hdecides hmoved =>
    have hformed := hkept.formed id task hsettles.load
    have happlies := appliesTransfer_of_changes hdecides hsettles.load
      (hmoved.changes hformed htransfers)
    exact Or.inr (Or.inr ⟨id, task, happlies, hsettles.load, htransfers, hmoved⟩)

def ReviewTables.settled (t : ReviewTables) (id : Text) : Prop :=
  ∃ task, t.tasks.load id = some task ∧ task.status ≠ .pending

theorem leavesPending_iff : leavesPending code id t c = true ↔
    (∃ task, t.tasks.load id = some task ∧ task.status = .pending) ∧
      (t.next code c).settled id := by
  unfold leavesPending ReviewTables.settled
  rw [Bool.and_eq_true]
  cases t.tasks.load id with
  | none => simp
  | some task =>
    cases (t.next code c).tasks.load id with
    | none => simp
    | some other => simp

theorem effect_absent {task : ReviewTask} (h : Effect code digested c t t')
    (hload : t.tasks.load id = none) (hload' : t'.tasks.load id = some task) :
    task.status = .pending := by
  cases h with
  | same htasks _ _ | written _ htasks _ | attached _ _ _ htasks _ _ =>
    rw [htasks, hload] at hload'
    cases hload'
  | inserted id' new hfresh htasks _ _ =>
    rw [htasks, GoMap.load_store] at hload'
    split_ifs at hload'
    · cases hload'
      exact hfresh.pending
    · rw [hload] at hload'
      cases hload'
  | transferred id' other done hsettles | settled id' other done hsettles =>
    rw [hsettles.others] at hload'
    split_ifs at hload' with hid
    · rw [hid, hsettles.load] at hload
      cases hload
    · rw [hload] at hload'
      cases hload'

theorem leaves_begins (h : Effect code digested c t (t.next code c)) (hnot : ¬t.settled id) :
    leavesPending code id t c = true ↔ (t.next code c).settled id := by
  rw [leavesPending_iff]
  constructor
  · intro hleaves
    exact hleaves.2
  · intro hsettled
    refine ⟨?_, hsettled⟩
    cases hload : t.tasks.load id with
    | none =>
      obtain ⟨task, hload', htask⟩ := hsettled
      exact absurd (effect_absent h hload hload') htask
    | some task =>
      refine ⟨task, rfl, ?_⟩
      by_contra hpending
      exact hnot ⟨task, hload, hpending⟩

theorem leaves_lasts (h : Effect code digested c t (t.next code c)) (hsettled : t.settled id) :
    (t.next code c).settled id ∧ leavesPending code id t c = false := by
  obtain ⟨task, hload, htask⟩ := hsettled
  refine ⟨⟨task, (effect_settled h hload htask).1, htask⟩, ?_⟩
  apply Bool.eq_false_iff.mpr
  intro hleaves
  obtain ⟨⟨other, hother, hpending⟩, -⟩ := leavesPending_iff.mp hleaves
  rw [hload] at hother
  cases hother
  exact htask hpending

theorem ReviewKept.sound (h : ReviewKept code digested t) : Sound t := by
  constructor
  · intro id task hload
    exact (h.formed id task hload).active
  · intro id id' task task' hload hload' hpending _ heq
    exact h.distinct id id' task task' hload hload' ((h.formed id task hload).active.mpr hpending) heq
  · intro repository path id id' ⟨hpub, fileID, file, hload, hpath⟩
      ⟨hpub', fileID', file', hload', hpath'⟩
    have hid : fileID = fileID' := by
      have hname : fileID = code.sha256Hex [file.path] := h.named _ _ hload
      have hname' : fileID' = code.sha256Hex [file'.path] := h.named _ _ hload'
      rw [hname, hname', hpath, hpath']
    rw [← hid] at hload'
    exact h.single repository fileID id id' ((GoMap.has_eq_true _ _).mpr ⟨file, hload⟩)
      ((GoMap.has_eq_true _ _).mpr ⟨file', hload'⟩) hpub hpub'

theorem unused_review_kept (resources : GoMap ResourceID Resource) :
    ReviewKept code digested (.unused resources) := by
  constructor
  · intro id task hload
    cases hload
  · intro id id' task task' hload
    cases hload
  · intro key file hload
    cases hload
  · intro key file hload
    cases hload
  · intro repository fileID id id' hhas
    cases hhas

theorem review_run_kept (hinj : Set.InjOn code.sha256Hex digested) (cs : List ReviewCall) :
    ∀ {t : ReviewTables}, (∀ c ∈ cs, ∀ parts ∈ c.digested code, parts ∈ digested) →
      ReviewKept code digested t →
        Runs.Through (ReviewTables.next code) Sound t cs ∧
          Runs.Along (ReviewTables.next code) (KeepsSettled code) t cs ∧
            Runs.Along (ReviewTables.next code) (MovesAsAsked code) t cs := by
  induction cs with
  | nil =>
    intro t _ hkept
    exact ⟨hkept.sound, trivial, trivial⟩
  | cons c cs ih =>
    intro t hkeys hkept
    have heffect := next_effect hkept hinj (hkeys c (List.mem_cons_self ..))
    obtain ⟨hsound, hsettled, hmoves⟩ :=
      ih (fun c' hc' => hkeys c' (List.mem_cons_of_mem c hc')) (effect_kept hkept heffect)
    exact ⟨⟨hkept.sound, hsound⟩, ⟨fun id task hload htask => effect_settled heffect hload htask,
      hsettled⟩, ⟨effect_moves hkept heffect, hmoves⟩⟩

theorem leaves_once (hinj : Set.InjOn code.sha256Hex digested) {cs : List ReviewCall}
    (hkeys : ∀ c ∈ cs, ∀ parts ∈ c.digested code, parts ∈ digested)
    (hkept : ReviewKept code digested t) (hnot : ¬t.settled id) :
    Runs.times (ReviewTables.next code) (leavesPending code id) t cs ≤ 1 := by
  classical
  have htimes : Runs.times (ReviewTables.next code) (leavesPending code id) t cs =
      if (cs.foldl (ReviewTables.next code) t).settled id then 1 else 0 := by
    apply @Runs.times_eq _ _ _ _ (ReviewKept code digested) (ReviewTables.settled · id)
      (fun c => ∀ parts ∈ c.digested code, parts ∈ digested) _ _ _ _ cs t hkeys hkept hnot
    · intro t c hkept hc
      exact effect_kept hkept (next_effect hkept hinj hc)
    · intro t c hkept hc hsettled
      exact leaves_lasts (next_effect hkept hinj hc) hsettled
    · intro t c hkept hc hnot
      exact leaves_begins (next_effect hkept hinj hc) hnot
  rw [htimes]
  split_ifs
  · exact Nat.le_refl 1
  · exact Nat.zero_le 1

theorem applies_once (hinj : Set.InjOn code.sha256Hex digested) {cs : List ReviewCall}
    (hkeys : ∀ c ∈ cs, ∀ parts ∈ c.digested code, parts ∈ digested)
    (hkept : ReviewKept code digested t) (hnot : ¬t.transferApproved id = true) :
    Runs.times (ReviewTables.next code) (appliesTransfer code id) t cs =
      if (cs.foldl (ReviewTables.next code) t).transferApproved id then 1 else 0 := by
  apply @Runs.times_eq _ _ _ _ (ReviewKept code digested) (fun t => t.transferApproved id = true)
    (fun c => ∀ parts ∈ c.digested code, parts ∈ digested) _ _ _ _ cs t hkeys hkept hnot
  · intro t c hkept hc
    exact effect_kept hkept (next_effect hkept hinj hc)
  · intro t c hkept hc happroved
    exact applies_lasts (next_effect hkept hinj hc) happroved
  · intro t c hkept hc hnot
    exact applies_begins hkept (next_effect hkept hinj hc) hnot

/-- In every run from empty review tables, where the active keys of the run do not collide, a task
settles once, with its files, and its transfer is made if it is approved and never if it is not. -/
theorem reviews_settle_once (code : Coding) (resources : GoMap ResourceID Resource)
    (cs : List ReviewCall)
    (hcollision : Set.InjOn code.sha256Hex {parts | ∃ c ∈ cs, parts ∈ c.digested code}) :
    Runs.Through (ReviewTables.next code) Sound (.unused resources) cs ∧
      Runs.Along (ReviewTables.next code) (KeepsSettled code) (.unused resources) cs ∧
      Runs.Along (ReviewTables.next code) (MovesAsAsked code) (.unused resources) cs ∧
      ∀ id, Runs.times (ReviewTables.next code) (leavesPending code id) (.unused resources) cs ≤ 1 ∧
        Runs.times (ReviewTables.next code) (appliesTransfer code id) (.unused resources) cs =
          if (cs.foldl (ReviewTables.next code) (.unused resources)).transferApproved id then 1
          else 0 := by
  have hkeys : ∀ c ∈ cs, ∀ parts ∈ c.digested code,
      {parts | ∃ c ∈ cs, parts ∈ c.digested code} parts :=
    fun c hc _ hparts => Exists.intro c (And.intro hc hparts)
  have hempty : ReviewKept code {parts | ∃ c ∈ cs, parts ∈ c.digested code} (.unused resources) :=
    unused_review_kept resources
  obtain ⟨hsound, hsettled, hmoves⟩ := review_run_kept hcollision cs hkeys hempty
  refine ⟨hsound, hsettled, hmoves, ?_⟩
  intro id
  constructor
  · apply leaves_once hcollision hkeys hempty
    intro ⟨task, hload, _⟩
    cases hload
  · apply applies_once hcollision hkeys hempty
    intro happroved
    cases happroved

def leftPadCoding : Coding where
  sha256Hex := fun parts =>
    if parts = publicationReviewParts .npmPackage "main".toList
        "v1.bGVmdC1wYWQ.MS4wLjA".toList then
      "9517a9835a01aa19799ec67105a49762cd91e729e0d34d956f486fa837959aeb".toList
    else if parts = transferReviewParts ⟨.npmPackage, "main".toList, "left-pad".toList⟩ then
      "076855e4731877b973773751bded31fe028ec1fa169c4db72b2fe91294014636".toList
    else "963edebb45538bbd13eb56220feefb62d19219cf5d4daaf4df764c766289ab5c".toList
  rawURLEncoding := fun text =>
    if text = "left-pad".toList then "bGVmdC1wYWQ".toList else "MS4wLjA".toList
  toLower := List.map Char.toLower
  marshal := fun snapshot => snapshot.domain
  unmarshal := fun _ => none

def openOutside : Outside where
  userIDForExistingAccount := some
  userIDForUsernameTx := some
  accountEmailSessionTx := some
  nativePermissionTx := fun _ _ _ => none
  nativeActorTx := fun _ => none
  publishNativeReviewTx := fun _ => none
  superTeamRoleTx := fun _ _ => .ok (some superTeamRoleManage)
  requireSuperTeamRoleTx := fun _ _ _ => none
  requireTicketAssigneeTx := fun _ _ => none
  reviewUserTx := fun _ => none
  isManager := fun _ => true
  checkModeratePermission := fun _ _ => true
  requireTransferRequesterPermissionTx := fun _ _ _ => none
  ensureMutable := fun _ => none
  lockMavenDomain := fun _ => none
  liveAccount := fun _ => none
  requireMavenMemberPermission := fun _ _ => none
  deprecatedOrLocked := fun _ _ => none

def leftPadRequest (createdAt : ℤ) : PublicationReviewRequest where
  policy := some .everyVersion
  resourceType := .npmPackage
  repository := "main".toList
  resourceKey := "left-pad".toList
  resourceName := "left-pad".toList
  version := "1.0.0".toList
  requestedBy := "ann".toList
  reviewTeamPrefix := some []
  targetTeamPrefix := some []
  packageExists := false
  createdAt := createdAt
  files := [⟨"left-pad/left-pad-1.0.0.tgz".toList, 7, true, 0⟩]
  payload := []

def leftPadResources : GoMap ResourceID Resource :=
  GoMap.store ∅ ⟨.npmPackage, "main".toList, "left-pad".toList⟩
    ⟨"left-pad".toList, [], true, [], 0, [], false, 0, 0⟩

def leftPadCalls : List ReviewCall :=
  [.createOrUpdatePublicationReview openOutside ['1'] (leftPadRequest 1000),
    .decideReviewTask openOutside ['1'] "bob".toList .rejected (some ['n', 'o']) 9000,
    .createOrUpdatePublicationReview openOutside ['2'] (leftPadRequest 10000),
    .decideReviewTask openOutside ['2'] "bob".toList .approved (some []) 19000,
    .createSuperTeamTransferReview openOutside ['3'] .npmPackage "main".toList "left-pad".toList
      (some "core".toList) "ann".toList 20000,
    .decideReviewTask openOutside ['3'] "bob".toList .approved (some []) 21000]

theorem leftPadCalls_digested : leftPadCalls.flatMap (·.digested leftPadCoding) =
    [publicationReviewParts .npmPackage "main".toList "v1.bGVmdC1wYWQ.MS4wLjA".toList,
      publicationReviewParts .npmPackage "main".toList "v1.bGVmdC1wYWQ.MS4wLjA".toList,
      transferReviewParts ⟨.npmPackage, "main".toList, "left-pad".toList⟩] := by
  decide +kernel

theorem left_pad_settles_once :
    (leftPadCalls.foldl (ReviewTables.next leftPadCoding) (.unused leftPadResources)).tasks.keys =
        [['3'], ['2'], ['1']] ∧
      Runs.times (ReviewTables.next leftPadCoding) (appliesTransfer leftPadCoding ['3'])
        (.unused leftPadResources) leftPadCalls = 1 := by
  have hcollision : Set.InjOn leftPadCoding.sha256Hex
      {parts | ∃ c ∈ leftPadCalls, parts ∈ c.digested leftPadCoding} := by
    have hcases : ∀ parts, (∃ c ∈ leftPadCalls, parts ∈ c.digested leftPadCoding) →
        parts = publicationReviewParts .npmPackage "main".toList
          "v1.bGVmdC1wYWQ.MS4wLjA".toList ∨
        parts = transferReviewParts ⟨.npmPackage, "main".toList, "left-pad".toList⟩ := by
      intro parts ⟨c, hc, hparts⟩
      have hmem : parts ∈ leftPadCalls.flatMap (·.digested leftPadCoding) :=
        List.mem_flatMap.mpr ⟨c, hc, hparts⟩
      rw [leftPadCalls_digested] at hmem
      simpa using hmem
    intro a ha b hb heq
    rcases hcases a ha with rfl | rfl
    · rcases hcases b hb with rfl | rfl
      · rfl
      · revert heq
        decide
    · rcases hcases b hb with rfl | rfl
      · revert heq
        decide
      · rfl
  obtain ⟨-, -, -, hid⟩ := reviews_settle_once leftPadCoding leftPadResources leftPadCalls hcollision
  refine ⟨by decide +kernel, (hid ['3']).2.trans ?_⟩
  rw [if_pos (by decide +kernel)]

end RenoP.Review
