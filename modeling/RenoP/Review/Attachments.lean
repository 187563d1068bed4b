import RenoP.Review.Tasks

/-!
# Files of review tasks

What `savePublicationReviewFileTx` does to the rows of `review_task_files`.
-/

namespace RenoP.Review

open RenoP.Database (Text)

variable {code : Coding} {tasks : GoMap Text ReviewTask} {taskID repository fileID : Text}
  {files files' files'' : GoMap (Text × Text) ReviewFile} {t t' : ReviewTables}

def Publishes (tasks : GoMap Text ReviewTask) (repository taskID : Text) : Prop :=
  (tasks.load taskID).any (·.publishes repository) = true

theorem publishes_iff : Publishes tasks repository taskID ↔
    ∃ task, tasks.load taskID = some task ∧ task.kind = .publication ∧ task.status = .pending ∧
      task.repository = repository := by
  unfold Publishes
  rw [Option.any_eq_true_iff_get]
  cases hload : tasks.load taskID with
  | none => simp
  | some task => simp [ReviewTask.publishes, and_assoc]

theorem priorTask_none (h : priorTask tasks taskID repository fileID files = none) {other : Text}
    (hhas : files.has (other, fileID) = true) (hother : other ≠ taskID) :
    ¬Publishes tasks repository other := by
  intro hpub
  have hkey : (other, fileID) ∈ files.keys := (GoMap.load_isSome files _).mp hhas
  have hno := List.find?_eq_none.mp (Option.map_eq_none_iff.mp h) _ hkey
  apply hno
  simp only [beq_self_eq_true, Bool.true_and, Bool.and_eq_true, bne_iff_ne]
  exact ⟨hother, hpub⟩

theorem priorTask_some {other : Text}
    (h : priorTask tasks taskID repository fileID files = some other) :
    files.has (other, fileID) = true ∧ other ≠ taskID ∧ Publishes tasks repository other := by
  obtain ⟨k, hfind, hk⟩ := Option.map_eq_some_iff.mp h
  have hmem := List.mem_of_find?_eq_some hfind
  have hp := List.find?_some hfind
  simp only [Bool.and_eq_true, beq_iff_eq, bne_iff_ne] at hp
  obtain ⟨⟨hid, hother⟩, hpub⟩ := hp
  have hkey : k = (other, fileID) := Prod.ext hk hid
  rw [hkey] at hmem
  rw [hk] at hother hpub
  exact ⟨(GoMap.load_isSome files _).mpr hmem, hother, hpub⟩

theorem moveFile_load {n : ℕ} {k : Text × Text} {f : ReviewFile} :
    ∀ {files : GoMap (Text × Text) ReviewFile},
      (moveFile tasks taskID repository fileID n files).load k = some f →
        files.load k = some f := by
  induction n with
  | zero =>
    intro files h
    exact h
  | succ n ih =>
    intro files h
    unfold moveFile at h
    split at h
    · exact h
    · have hload := ih h
      rw [GoMap.load_delete] at hload
      split_ifs at hload
      exact hload

theorem moveFile_kept {n : ℕ} {k : Text × Text} (hk : ¬Publishes tasks repository k.1) :
    ∀ {files : GoMap (Text × Text) ReviewFile},
      (moveFile tasks taskID repository fileID n files).load k = files.load k := by
  induction n with
  | zero =>
    intro files
    rfl
  | succ n ih =>
    intro files
    unfold moveFile
    split
    · rfl
    · rename_i other hprior
      rw [ih, GoMap.load_delete_ne]
      intro heq
      apply hk
      rw [heq]
      exact (priorTask_some hprior).2.2

theorem moveFile_clears : ∀ (n : ℕ) {files : GoMap (Text × Text) ReviewFile}, files.size ≤ n →
    priorTask tasks taskID repository fileID
      (moveFile tasks taskID repository fileID n files) = none := by
  intro n
  induction n with
  | zero =>
    intro files hsize
    cases hprior : priorTask tasks taskID repository fileID files with
    | none => exact hprior
    | some other =>
      have hkeys := (GoMap.load_isSome files _).mp (priorTask_some hprior).1
      have hempty : files.entries = [] := List.length_eq_zero_iff.mp (Nat.le_zero.mp hsize)
      have hnil : files.keys = [] := by
        show files.entries.keys = []
        rw [hempty]
        rfl
      rw [hnil] at hkeys
      cases hkeys
  | succ n ih =>
    intro files hsize
    unfold moveFile
    split
    · assumption
    · rename_i other hprior
      apply ih
      have hdelete := GoMap.size_delete files (other, fileID)
      rw [(priorTask_some hprior).1, if_pos rfl] at hdelete
      omega

def OneTask (tasks : GoMap Text ReviewTask) (files : GoMap (Text × Text) ReviewFile) : Prop :=
  ∀ repository fileID id id', files.has (id, fileID) = true → files.has (id', fileID) = true →
    Publishes tasks repository id → Publishes tasks repository id' → id = id'

structure Attached (code : Coding) (tasks : GoMap Text ReviewTask) (taskID repository : Text)
    (files files' : GoMap (Text × Text) ReviewFile) : Prop where
  kept : ∀ k, k.1 ≠ taskID → ¬Publishes tasks repository k.1 → files'.load k = files.load k
  rows : ∀ k f, files'.load k = some f →
    files.load k = some f ∨ k.1 = taskID ∧ k.2 = code.sha256Hex [f.path]
  single : Publishes tasks repository taskID → OneTask tasks files → OneTask tasks files'

theorem Attached.refl : Attached code tasks taskID repository files files :=
  ⟨fun _ _ _ => rfl, fun _ _ h => Or.inl h, fun _ h => h⟩

theorem Attached.trans (h : Attached code tasks taskID repository files files')
    (h' : Attached code tasks taskID repository files' files'') :
    Attached code tasks taskID repository files files'' := by
  constructor
  · intro k htask hpub
    rw [h'.kept k htask hpub, h.kept k htask hpub]
  · intro k f hload
    rcases h'.rows k f hload with hold | hnew
    · exact h.rows k f hold
    · exact Or.inr hnew
  · intro hpub hone
    exact h'.single hpub (h.single hpub hone)

theorem attached_of_store {file : ReviewFile} {moved : GoMap (Text × Text) ReviewFile}
    (hload : ∀ k f, moved.load k = some f → files.load k = some f)
    (hkept : ∀ k, ¬Publishes tasks repository k.1 → moved.load k = files.load k)
    (hclear : priorTask tasks taskID repository (code.sha256Hex [file.path]) moved = none) :
    Attached code tasks taskID repository files
      (moved.store (taskID, code.sha256Hex [file.path]) file) := by
  have hrow : ∀ k, (moved.store (taskID, code.sha256Hex [file.path]) file).has k = true →
      k = (taskID, code.sha256Hex [file.path]) ∨ moved.has k = true := by
    intro k h
    obtain ⟨f, hf⟩ := (GoMap.has_eq_true _ k).mp h
    rw [GoMap.load_store] at hf
    split_ifs at hf with hk
    · exact Or.inl hk
    · exact Or.inr ((GoMap.has_eq_true moved k).mpr ⟨f, hf⟩)
  have hhas : ∀ k, moved.has k = true → files.has k = true := by
    intro k h
    obtain ⟨f, hf⟩ := (GoMap.has_eq_true moved k).mp h
    exact (GoMap.has_eq_true files k).mpr ⟨f, hload k f hf⟩
  constructor
  · intro k htask hpub
    rw [GoMap.load_store_ne, hkept k hpub]
    intro heq
    exact htask (congrArg Prod.fst heq)
  · intro k f h
    rw [GoMap.load_store] at h
    split_ifs at h with hk
    · cases h
      exact Or.inr ⟨congrArg Prod.fst hk, congrArg Prod.snd hk⟩
    · exact Or.inl (hload k f h)
  · intro htask hone r fileID id id' hid hid' hpub hpub'
    -- a task of the file's new repository that still has the file would be a prior task
    have hfirst : ∀ {other : Text}, (taskID, fileID) = (taskID, code.sha256Hex [file.path]) →
        Publishes tasks r taskID → Publishes tasks r other → moved.has (other, fileID) = true →
        other = taskID := by
      intro other hk hr hother hmoved
      by_contra hne
      have hfileID : fileID = code.sha256Hex [file.path] := congrArg Prod.snd hk
      rw [hfileID] at hmoved
      apply priorTask_none hclear hmoved hne
      obtain ⟨_, hload, _, _, hrepository⟩ := publishes_iff.mp htask
      obtain ⟨_, hload', _, _, hr'⟩ := publishes_iff.mp hr
      rw [hload] at hload'
      cases hload'
      rw [← hrepository, hr']
      exact hother
    rcases hrow _ hid with hnew | hmoved
    · rcases hrow _ hid' with hnew' | hmoved'
      · exact (congrArg Prod.fst hnew).trans (congrArg Prod.fst hnew').symm
      · cases congrArg Prod.fst hnew
        exact (hfirst hnew hpub hpub' hmoved').symm
    · rcases hrow _ hid' with hnew' | hmoved'
      · cases congrArg Prod.fst hnew'
        exact hfirst hnew' hpub' hpub hmoved
      · exact hone r fileID id id' (hhas _ hmoved) (hhas _ hmoved') hpub hpub'

theorem savePublicationReviewFileTx_cases {file : ReviewFile}
    (h : savePublicationReviewFileTx code t taskID repository file = .ok t') :
    t'.tasks = t.tasks ∧ t'.resources = t.resources ∧
      Attached code t.tasks taskID repository t.files t'.files := by
  have hattached := @attached_of_store code t.tasks taskID repository t.files file
    (moveFile t.tasks taskID repository (code.sha256Hex [file.path]) t.files.size t.files)
    (fun _ _ hload => moveFile_load hload) (fun _ hk => moveFile_kept hk)
    (moveFile_clears _ (Nat.le_refl _))
  unfold savePublicationReviewFileTx at h
  dsimp only at h
  split_ifs at h
  · cases h
    exact ⟨rfl, rfl, hattached⟩
  · cases h
    exact ⟨rfl, rfl, hattached⟩

theorem savePublicationReviewFiles_cases {rows : List ReviewFile} :
    ∀ {t : ReviewTables}, savePublicationReviewFiles code taskID repository t rows = .ok t' →
      t'.tasks = t.tasks ∧ t'.resources = t.resources ∧
        Attached code t.tasks taskID repository t.files t'.files := by
  induction rows with
  | nil =>
    intro t h
    cases h
    exact ⟨rfl, rfl, Attached.refl⟩
  | cons file rows ih =>
    intro t h
    unfold savePublicationReviewFiles at h
    split at h
    · cases h
    · rename_i first hfirst
      obtain ⟨htasks, hresources, hfiles⟩ := savePublicationReviewFileTx_cases hfirst
      obtain ⟨htasks', hresources', hfiles'⟩ := ih h
      rw [htasks] at hfiles'
      exact ⟨htasks'.trans htasks, hresources'.trans hresources, hfiles.trans hfiles'⟩

theorem savePublicationReviewPayloadTx_cases {payload : Text}
    (h : savePublicationReviewPayloadTx t taskID payload = .ok t') :
    t'.tasks = t.tasks ∧ t'.resources = t.resources ∧ t'.files = t.files := by
  unfold savePublicationReviewPayloadTx at h
  split_ifs at h
  · cases h
    exact ⟨rfl, rfl, rfl⟩
  · cases h
    exact ⟨rfl, rfl, rfl⟩

theorem savePublicationReview_cases {rows : List ReviewFile} {payload : Text} {id : Option Text}
    (h : savePublicationReview code t taskID repository rows payload = .ok (t', id)) :
    t'.tasks = t.tasks ∧ t'.resources = t.resources ∧
      Attached code t.tasks taskID repository t.files t'.files := by
  unfold savePublicationReview at h
  split at h
  · cases h
  · rename_i saved hsaved
    obtain ⟨htasks, hresources, hfiles⟩ := savePublicationReviewFiles_cases hsaved
    split at h
    · cases h
    · rename_i paid hpaid
      cases h
      obtain ⟨htasks', hresources', hfiles'⟩ := savePublicationReviewPayloadTx_cases hpaid
      rw [hfiles']
      exact ⟨htasks'.trans htasks, hresources'.trans hresources, hfiles⟩

end RenoP.Review
