import RenoP.Index.FileIndex

/-!
# What each step of the index leaves alone

`addChild` and `removeChild` write child lists only; `dropFile` and `dropDir` take one entry away.
-/

namespace RenoP.Index.FileIndex
open SlashPath

def SameButChildren (a b : FileIndex) : Prop := a = { b with children := a.children }

theorem addChild_same (idx : FileIndex) (p : Path) : SameButChildren (idx.addChild p) idx := by
  unfold addChild SameButChildren
  dsimp only
  split_ifs <;> rfl

theorem removeChild_same (idx : FileIndex) (p : Path) : SameButChildren (idx.removeChild p) idx :=
  rfl

@[simp] theorem addChild_files (idx : FileIndex) (p : Path) :
    (idx.addChild p).files = idx.files := by rw [addChild_same idx p]
@[simp] theorem addChild_dirs (idx : FileIndex) (p : Path) :
    (idx.addChild p).dirs = idx.dirs := by rw [addChild_same idx p]
@[simp] theorem addChild_blocked (idx : FileIndex) (p : Path) :
    (idx.addChild p).blocked = idx.blocked := by rw [addChild_same idx p]

@[simp] theorem removeChild_dirs (idx : FileIndex) (p : Path) :
    (idx.removeChild p).dirs = idx.dirs := rfl
@[simp] theorem removeChild_blocked (idx : FileIndex) (p : Path) :
    (idx.removeChild p).blocked = idx.blocked := rfl

@[simp] theorem dropDir_files (idx : FileIndex) (p : Path) :
    (idx.dropDir p).files = idx.files := rfl
@[simp] theorem dropDir_dirs (idx : FileIndex) (p : Path) :
    (idx.dropDir p).dirs = idx.dirs.delete p := rfl

theorem dropFile_absent {idx : FileIndex} {p : Path} (h : idx.files.load p = none) :
    idx.dropFile p = idx := by
  unfold dropFile deleteFile
  rw [h]
  rfl

theorem dropFile_present {idx : FileIndex} {p : Path} {old : FileInfo}
    (h : idx.files.load p = some old) :
    idx.dropFile p = { removeChild { idx with
      files := idx.files.delete p
      filesCount := idx.filesCount - 1
      totalBytes := idx.totalBytes - old.size } p with isDirty := true } := by
  unfold dropFile deleteFile
  rw [h]
  rfl

@[simp] theorem dropFile_dirs (idx : FileIndex) (p : Path) : (idx.dropFile p).dirs = idx.dirs := by
  cases h : idx.files.load p with
  | none => rw [dropFile_absent h]
  | some old =>
    rw [dropFile_present h]
    rfl

@[simp] theorem dropFile_blocked (idx : FileIndex) (p : Path) :
    (idx.dropFile p).blocked = idx.blocked := by
  cases h : idx.files.load p with
  | none => rw [dropFile_absent h]
  | some old =>
    rw [dropFile_present h]
    rfl

@[simp] theorem dropFile_load (idx : FileIndex) (p q : Path) :
    (idx.dropFile p).files.load q = if q = p then none else idx.files.load q := by
  cases h : idx.files.load p with
  | none =>
    rw [dropFile_absent h]
    by_cases hq : q = p
    · rw [if_pos hq, hq, h]
    · rw [if_neg hq]
  | some old =>
    rw [dropFile_present h]
    exact GoMap.load_delete idx.files q p

section Purge

variable {P : FileIndex → Prop}

theorem removeDescendant_preserves {purge : FileIndex → Path → FileIndex}
    (hpurge : ∀ idx p, P idx → P (purge idx p))
    (hfile : ∀ idx p, P idx → P (dropFile idx p))
    (hdir : ∀ idx p, idx.dirs.has p = true → P idx → P (dropDir idx p))
    (hchild : ∀ idx p, P idx → P (removeChild idx p))
    (d : Path) (idx : FileIndex) (child : Path) (h : P idx) :
    P (removeDescendant purge d idx child) := by
  have hf := hfile idx (d ++ '/' :: child) h
  unfold removeDescendant
  dsimp only
  split_ifs with hd
  · exact hchild _ _ (hpurge _ _ (hdir _ _ hd hf))
  · exact hf

theorem removeDescendantsFuel_preserves
    (hfile : ∀ idx p, P idx → P (dropFile idx p))
    (hdir : ∀ idx p, idx.dirs.has p = true → P idx → P (dropDir idx p))
    (hchild : ∀ idx p, P idx → P (removeChild idx p)) (fuel : ℕ) :
    ∀ (idx : FileIndex) (p : Path), P idx → P (removeDescendantsFuel fuel idx p) := by
  induction fuel with
  | zero => exact fun _ _ h => h
  | succ fuel ih =>
    intro idx p h
    exact List.foldlRecOn (idx.getChildren (clean p)) _ h fun idx' h' child _ =>
      removeDescendant_preserves ih hfile hdir hchild (clean p) idx' child h'

theorem removeDescendants_preserves
    (hfile : ∀ idx p, P idx → P (dropFile idx p))
    (hdir : ∀ idx p, idx.dirs.has p = true → P idx → P (dropDir idx p))
    (hchild : ∀ idx p, P idx → P (removeChild idx p))
    (idx : FileIndex) (p : Path) (h : P idx) : P (removeDescendants idx p) :=
  removeDescendantsFuel_preserves hfile hdir hchild _ idx p h

end Purge

theorem dropDir_size {idx : FileIndex} {p : Path} (h : idx.dirs.has p = true) :
    (idx.dropDir p).dirs.size + 1 = idx.dirs.size := by
  have hs := GoMap.size_delete idx.dirs p
  rw [h, if_pos rfl] at hs
  rw [dropDir_dirs]
  omega

theorem removeDescendantsFuel_size (fuel : ℕ) (idx : FileIndex) (p : Path) :
    (removeDescendantsFuel fuel idx p).dirs.size ≤ idx.dirs.size := by
  refine removeDescendantsFuel_preserves (P := fun i => i.dirs.size ≤ idx.dirs.size)
    (fun i q h => by simpa using h) (fun i q hd h => ?_) (fun _ _ h => h) fuel idx p le_rfl
  have := dropDir_size hd
  omega

@[simp] theorem putDir_files (idx : FileIndex) (p : Path) : (idx.putDir p).files = idx.files := by
  unfold putDir
  split_ifs
  · rfl
  · rfl
  · exact addChild_files _ p

@[simp] theorem ensureParentDirs_files (idx : FileIndex) (p : Path) :
    (idx.ensureParentDirs p).files = idx.files :=
  List.foldlRecOn (motive := fun i => i.files = idx.files) _ _ rfl fun i hi q _ =>
    (putDir_files i q).trans hi

theorem removeDescendants_load {idx : FileIndex} {p q : Path} {info : FileInfo}
    (h : (removeDescendants idx p).files.load q = some info) : idx.files.load q = some info := by
  revert h
  refine removeDescendants_preserves
    (P := fun i => i.files.load q = some info → idx.files.load q = some info)
    (fun i p' hi h => ?_) (fun i p' _ hi => hi) (fun i p' hi => hi) idx p id
  rw [dropFile_load] at h
  split_ifs at h
  exact hi h

theorem putFile_files {idx : FileIndex} {p : Path} (info : FileInfo)
    (h : idx.isBlocked p = false) :
    ∃ files : GoMap Path FileInfo,
      (∀ q info', files.load q = some info' → idx.files.load q = some info') ∧
        (idx.putFile p info).files =
          files.store p { info with revision := idx.fileRevision + 1 } := by
  unfold putFile
  rw [if_neg (by rw [h]; decide)]
  dsimp only
  split_ifs with hdir
  · have hbelow := @removeDescendants_load (dropDir { idx with fileRevision := idx.fileRevision + 1 } p) p
    refine ⟨_, fun q info' hload => hbelow hload, ?_⟩
    split <;> rw [addChild_files] <;> rfl
  · refine ⟨idx.files, fun q info' hload => hload, ?_⟩
    split <;> rw [addChild_files]

theorem insertFile_load_ne {idx : FileIndex} {p q : Path} {info info' : FileInfo} (hne : q ≠ p)
    (h : (idx.insertFile p info).files.load q = some info') : idx.files.load q = some info' := by
  unfold insertFile at h
  split_ifs at h with hblocked
  · exact h
  · obtain ⟨files, hfiles, hput⟩ := putFile_files info (Bool.not_eq_true _ ▸ hblocked)
    rw [hput, GoMap.load_store_ne _ _ hne] at h
    exact hfiles q info' h

theorem insertFile_load_self {idx : FileIndex} {p : Path} (info : FileInfo)
    (h : idx.isBlocked p = false) :
    (idx.insertFile p info).files.load p =
      some { info with revision := idx.fileRevision + 1 } := by
  obtain ⟨files, -, hput⟩ := putFile_files info h
  unfold insertFile
  rw [if_neg (by rw [h]; decide), hput, GoMap.load_store_self]

@[simp] theorem putDir_blocked (idx : FileIndex) (p : Path) :
    (idx.putDir p).blocked = idx.blocked := by
  unfold putDir
  split_ifs
  · rfl
  · rfl
  · exact addChild_blocked _ p

@[simp] theorem ensureParentDirs_blocked (idx : FileIndex) (p : Path) :
    (idx.ensureParentDirs p).blocked = idx.blocked :=
  List.foldlRecOn (motive := fun i => i.blocked = idx.blocked) _ _ rfl fun i hi q _ =>
    (putDir_blocked i q).trans hi

@[simp] theorem removeDescendants_blocked (idx : FileIndex) (p : Path) :
    (removeDescendants idx p).blocked = idx.blocked :=
  removeDescendants_preserves (P := fun i => i.blocked = idx.blocked)
    (fun i q hi => (dropFile_blocked i q).trans hi) (fun _ _ _ hi => hi) (fun _ _ hi => hi) idx p rfl

theorem putFile_blocked (idx : FileIndex) (q : Path) (info : FileInfo) :
    (idx.putFile q info).blocked = idx.blocked := by
  unfold putFile
  dsimp only
  by_cases hb : idx.isBlocked q = true
  · rw [if_pos hb]
  rw [if_neg hb]
  have hroom : (if idx.dirs.has q = true then
      { removeChild (removeDescendants (dropDir { idx with fileRevision := idx.fileRevision + 1 } q)
        q) q with isDirty := true }
      else { idx with fileRevision := idx.fileRevision + 1 }).blocked = idx.blocked := by
    split_ifs
    · exact removeDescendants_blocked _ q
    · rfl
  split <;> exact (addChild_blocked _ q).trans hroom

@[simp] theorem insertFile_blocked (idx : FileIndex) (p : Path) (info : FileInfo) :
    (idx.insertFile p info).blocked = idx.blocked := by
  unfold insertFile
  split_ifs
  · rfl
  · exact putFile_blocked idx p info

theorem isBlocked_congr {i j : FileIndex} (h : i.blocked = j.blocked) (q : Path) :
    i.isBlocked q = j.isBlocked q := by
  unfold isBlocked
  rw [h]

theorem isBlocked_unblockFile (idx : FileIndex) (p : Path) :
    (idx.unblockFile p).isBlocked p = false := by
  unfold isBlocked unblockFile
  split_ifs with hp
  · rfl
  · exact (GoMap.has_eq_false _ p).mpr (GoMap.load_delete_self _ p)

end RenoP.Index.FileIndex
