import RenoP.Index.Frame

/-!
# Counters and path sets of the index

`Bookkept` says that the three counters are those of the maps, that no path is both a file and a
directory, and that no blocked path is a file.
-/

namespace RenoP.Index.FileIndex
open SlashPath

structure Bookkept (idx : FileIndex) : Prop where
  filesCount : idx.filesCount = idx.files.size
  dirsCount : idx.dirsCount = idx.dirs.size
  totalBytes : idx.totalBytes = GoMap.sum (fun _ info => info.size) idx.files
  disjoint : ∀ p, idx.dirs.has p = true → idx.files.load p = none
  unblocked : ∀ p, idx.blocked.has p = true → idx.files.load p = none
  emptyUnblocked : idx.blocked.has [] = false

theorem newFileIndex_bookkept : Bookkept newFileIndex where
  filesCount := rfl
  dirsCount := rfl
  totalBytes := rfl
  disjoint _ _ := rfl
  unblocked _ _ := rfl
  emptyUnblocked := rfl

theorem Bookkept.dirty {idx : FileIndex} (h : Bookkept idx) (b : Bool) :
    Bookkept { idx with isDirty := b } :=
  ⟨h.filesCount, h.dirsCount, h.totalBytes, h.disjoint, h.unblocked, h.emptyUnblocked⟩

theorem Bookkept.sameButChildren {a b : FileIndex} (h : Bookkept b) (hs : SameButChildren a b) :
    Bookkept a := by
  rw [hs]
  exact ⟨h.filesCount, h.dirsCount, h.totalBytes, h.disjoint, h.unblocked, h.emptyUnblocked⟩

theorem Bookkept.dropFile {idx : FileIndex} (h : Bookkept idx) (p : Path) :
    Bookkept (idx.dropFile p) := by
  cases hp : idx.files.load p with
  | none =>
    rw [dropFile_absent hp]
    exact h
  | some old =>
    have hhas : idx.files.has p = true := (GoMap.has_eq_true _ _).mpr ⟨old, hp⟩
    have hsize := GoMap.size_delete idx.files p
    have hsum := GoMap.sum_delete (fun _ info => info.size) idx.files p
    rw [hhas, if_pos rfl] at hsize
    rw [GoMap.weight_of_load hp] at hsum
    have hload (q : Path) (hq : idx.files.load q = none) :
        (idx.files.delete p).load q = none := by
      rw [GoMap.load_delete, hq, ite_self]
    rw [dropFile_present hp]
    refine Bookkept.dirty (Bookkept.sameButChildren ?_ (removeChild_same _ p)) true
    refine ⟨?_, h.dirsCount, ?_, ?_, ?_, h.emptyUnblocked⟩
    · have := h.filesCount
      dsimp only
      omega
    · have := h.totalBytes
      dsimp only
      omega
    · exact fun q hq => hload q (h.disjoint q hq)
    · exact fun q hq => hload q (h.unblocked q hq)

theorem Bookkept.dropDir {idx : FileIndex} (h : Bookkept idx) {p : Path}
    (hp : idx.dirs.has p = true) : Bookkept (idx.dropDir p) := by
  refine ⟨h.filesCount, ?_, h.totalBytes, ?_, h.unblocked, h.emptyUnblocked⟩
  · have h1 := h.dirsCount
    have h2 := dropDir_size hp
    have h3 : (idx.dropDir p).dirsCount = idx.dirsCount - 1 := rfl
    omega
  · intro q hq
    refine h.disjoint q ?_
    obtain ⟨b, hb⟩ := (GoMap.has_eq_true _ _).mp hq
    rw [dropDir_dirs, GoMap.load_delete] at hb
    split_ifs at hb
    exact (GoMap.has_eq_true _ _).mpr ⟨b, hb⟩

theorem Bookkept.removeDescendants {idx : FileIndex} (h : Bookkept idx) (p : Path) :
    Bookkept (idx.removeDescendants p) :=
  removeDescendants_preserves (fun _ q h => h.dropFile q) (fun _ _ hd h => h.dropDir hd)
    (fun i q h => h.sameButChildren (removeChild_same i q)) idx p h

theorem Bookkept.storeFile {idx : FileIndex} (h : Bookkept idx) {p : Path} (info : FileInfo)
    (hdir : idx.dirs.has p = false) (hblock : idx.blocked.has p = false) (n : ℕ) (b : Bool) :
    Bookkept { idx with
      files := idx.files.store p info
      filesCount := idx.filesCount + if idx.files.has p then 0 else 1
      totalBytes := idx.totalBytes + info.size -
        GoMap.weight (fun _ info => info.size) idx.files p
      fileRevision := n
      isDirty := b } := by
  have hload (q : Path) (hq : q ≠ p) (hl : idx.files.load q = none) :
      (idx.files.store p info).load q = none := by
    rw [GoMap.load_store_ne _ _ hq, hl]
  refine ⟨?_, h.dirsCount, ?_, ?_, ?_, h.emptyUnblocked⟩
  · have h1 := h.filesCount
    have h2 := GoMap.size_store idx.files p info
    dsimp only
    omega
  · have h1 := h.totalBytes
    have h2 := GoMap.sum_store (fun _ info => info.size) idx.files p info
    dsimp only
    omega
  · intro q hq
    refine hload q ?_ (h.disjoint q hq)
    rintro rfl
    exact absurd hdir (by rw [hq]; decide)
  · intro q hq
    refine hload q ?_ (h.unblocked q hq)
    rintro rfl
    exact absurd hblock (by rw [hq]; decide)

theorem isBlocked_eq {idx : FileIndex} (h : Bookkept idx) (p : Path) :
    idx.isBlocked p = idx.blocked.has p := by
  unfold isBlocked
  split_ifs with hp
  · rw [hp, h.emptyUnblocked]
  · rfl

theorem removeDescendants_dirs_absent {idx : FileIndex} (p q : Path)
    (h : idx.dirs.load q = none) : (idx.removeDescendants p).dirs.load q = none := by
  refine removeDescendants_preserves (P := fun i => i.dirs.load q = none)
    (fun i r hi => by rw [dropFile_dirs, hi]) (fun i r _ hi => ?_) (fun _ _ hi => hi) idx p h
  rw [dropDir_dirs, GoMap.load_delete, hi, ite_self]

theorem Bookkept.replaceDir {idx : FileIndex} (h : Bookkept idx) {p : Path}
    (hp : idx.dirs.has p = true) :
    Bookkept { removeChild ((idx.dropDir p).removeDescendants p) p with isDirty := true } ∧
      ((idx.dropDir p).removeDescendants p).dirs.has p = false := by
  refine ⟨(((h.dropDir hp).removeDescendants p).sameButChildren
    (removeChild_same _ p)).dirty true, ?_⟩
  rw [GoMap.has_eq_false]
  refine removeDescendants_dirs_absent p p ?_
  rw [dropDir_dirs, GoMap.load_delete_self]

theorem Bookkept.revision {idx : FileIndex} (h : Bookkept idx) (n : ℕ) :
    Bookkept { idx with fileRevision := n } :=
  ⟨h.filesCount, h.dirsCount, h.totalBytes, h.disjoint, h.unblocked, h.emptyUnblocked⟩

theorem Bookkept.putFileStore {idx : FileIndex} (h : Bookkept idx) {p : Path} (info : FileInfo)
    (hdir : idx.dirs.has p = false) (hblock : idx.blocked.has p = false) :
    Bookkept (match idx.files.load p with
      | none =>
        addChild { idx with
          files := idx.files.store p info
          filesCount := idx.filesCount + 1
          totalBytes := idx.totalBytes + info.size
          isDirty := true } p
      | some old =>
        addChild { idx with
          files := idx.files.store p info
          totalBytes := idx.totalBytes + (info.size - old.size)
          isDirty := idx.isDirty || !sameFileMetadata old info } p) := by
  cases hp : idx.files.load p with
  | none =>
    refine Bookkept.sameButChildren ?_ (addChild_same _ p)
    have hs := h.storeFile info hdir hblock idx.fileRevision true
    rw [(GoMap.has_eq_false _ _).mpr hp, GoMap.weight_of_absent hp, sub_zero] at hs
    exact hs
  | some old =>
    refine Bookkept.sameButChildren ?_ (addChild_same _ p)
    have hs := h.storeFile info hdir hblock idx.fileRevision
      (idx.isDirty || !sameFileMetadata old info)
    rw [(GoMap.has_eq_true _ _).mpr ⟨old, hp⟩, GoMap.weight_of_load hp, if_pos rfl,
      add_zero, add_sub_assoc] at hs
    exact hs

theorem Bookkept.putFile {idx : FileIndex} (h : Bookkept idx) (p : Path) (info : FileInfo) :
    Bookkept (idx.putFile p info) := by
  unfold FileIndex.putFile
  by_cases hb : idx.isBlocked p = true
  · rw [if_pos hb]
    exact h
  rw [if_neg hb]
  have hblock : idx.blocked.has p = false := by
    rw [← isBlocked_eq h]
    simpa using hb
  dsimp only
  by_cases hd : idx.dirs.has p = true
  · obtain ⟨hbook, hdir⟩ := (h.revision (idx.fileRevision + 1)).replaceDir hd
    rw [if_pos hd]
    refine hbook.putFileStore _ hdir ?_
    rw [removeChild_blocked, removeDescendants_blocked]
    exact hblock
  · rw [if_neg hd]
    exact (h.revision _).putFileStore _ (by simpa using hd) hblock

theorem Bookkept.putDir {idx : FileIndex} (h : Bookkept idx) (p : Path) :
    Bookkept (idx.putDir p) := by
  unfold FileIndex.putDir
  split_ifs with hf hd
  · exact h
  · exact h
  · refine Bookkept.sameButChildren ?_ (addChild_same _ p)
    refine ⟨h.filesCount, ?_, h.totalBytes, ?_, h.unblocked, h.emptyUnblocked⟩
    · have h1 := h.dirsCount
      have h2 := GoMap.size_store idx.dirs p true
      rw [if_neg hd] at h2
      dsimp only
      omega
    · intro q hq
      obtain ⟨b, hb⟩ := (GoMap.has_eq_true _ _).mp hq
      by_cases hqp : q = p
      · rw [hqp]
        exact (GoMap.has_eq_false _ _).mp (by simpa using hf)
      · rw [GoMap.load_store_ne _ _ hqp] at hb
        exact h.disjoint q ((GoMap.has_eq_true _ _).mpr ⟨b, hb⟩)

theorem Bookkept.removeDir {idx : FileIndex} (h : Bookkept idx) (p : Path) :
    Bookkept (idx.removeDir p) := by
  unfold FileIndex.removeDir
  dsimp only
  refine Bookkept.sameButChildren ?_ (removeChild_same _ p)
  split_ifs with hd
  · exact ((h.removeDescendants p).dropDir hd).dirty true
  · exact h.removeDescendants p

theorem Bookkept.unblock {idx : FileIndex} (h : Bookkept idx) {blocked : GoMap Path Bool}
    (hsub : ∀ p, blocked.has p = true → idx.blocked.has p = true) :
    Bookkept { idx with blocked := blocked } := by
  refine ⟨h.filesCount, h.dirsCount, h.totalBytes, h.disjoint,
    fun p hp => h.unblocked p (hsub p hp), ?_⟩
  by_contra hne
  have := hsub [] (by simpa using hne)
  rw [h.emptyUnblocked] at this
  cases this

theorem Bookkept.blockFile {idx : FileIndex} (h : Bookkept idx) (p : Path) :
    Bookkept (idx.blockFile p) := by
  unfold FileIndex.blockFile
  split_ifs with hp
  · exact h
  have hdrop := h.dropFile p
  -- the block is stored before the file goes; the order does not show in the result
  have hcomm : FileIndex.dropFile { idx with blocked := idx.blocked.store p true } p =
      { idx.dropFile p with blocked := idx.blocked.store p true } := by
    cases hl : idx.files.load p with
    | none => rw [dropFile_absent hl, dropFile_absent (by exact hl)]
    | some old =>
      have hl' : ({ idx with blocked := idx.blocked.store p true } : FileIndex).files.load p =
        some old := hl
      rw [dropFile_present hl, dropFile_present hl']
      rfl
  rw [hcomm]
  refine ⟨hdrop.filesCount, hdrop.dirsCount, hdrop.totalBytes, hdrop.disjoint, ?_, ?_⟩
  · intro q hq
    obtain ⟨b, hb⟩ := (GoMap.has_eq_true _ _).mp hq
    rw [dropFile_load]
    split_ifs with hqp
    · rfl
    · rw [GoMap.load_store_ne _ _ hqp] at hb
      exact h.unblocked q ((GoMap.has_eq_true _ _).mpr ⟨b, hb⟩)
  · rw [GoMap.has_eq_false, GoMap.load_store_ne _ _ (Ne.symm hp)]
    exact (GoMap.has_eq_false _ _).mp h.emptyUnblocked

theorem has_of_has_delete {m : GoMap Path Bool} {k q : Path} (h : (m.delete k).has q = true) :
    m.has q = true := by
  obtain ⟨b, hb⟩ := (GoMap.has_eq_true _ _).mp h
  rw [GoMap.load_delete] at hb
  split_ifs at hb
  exact (GoMap.has_eq_true _ _).mpr ⟨b, hb⟩

theorem Bookkept.unblockTree {idx : FileIndex} (h : Bookkept idx) (p : Path) :
    Bookkept (idx.unblockTree p) := by
  unfold FileIndex.unblockTree
  split_ifs with hp
  · exact h
  refine h.unblock ?_
  refine List.foldlRecOn (motive := fun m : GoMap Path Bool =>
    ∀ q, m.has q = true → idx.blocked.has q = true) idx.blocked.keys _ (fun _ hq => hq) ?_
  intro m hm k _ q hq
  split_ifs at hq
  · exact hm q (has_of_has_delete hq)
  · exact hm q hq

theorem Bookkept.step {idx : FileIndex} (h : Bookkept idx) (op : Op) : Bookkept (idx.step op) := by
  cases op with
  | insertFile p info =>
    unfold FileIndex.step insertFile
    dsimp only
    split_ifs
    · exact h
    · exact h.putFile p info
  | insertDir p => exact h.putDir p
  | removeFile p => exact h.dropFile p
  | removeDir p => exact h.removeDir p
  | blockFile p => exact h.blockFile p
  | unblockFile p =>
    unfold FileIndex.step unblockFile
    dsimp only
    split_ifs
    · exact h
    · exact h.unblock fun q hq => has_of_has_delete hq
  | unblockTree p => exact h.unblockTree p
  | ensureParentDirs p =>
    exact List.foldlRecOn _ _ h fun i hi q _ => Bookkept.putDir hi q

theorem Bookkept.run {idx : FileIndex} (h : Bookkept idx) (ops : List Op) :
    Bookkept (idx.run ops) :=
  List.foldlRecOn ops _ h fun _ hi op _ => hi.step op

/-- The bookkeeping of every index built by its public operations. -/
theorem run_bookkeeping (ops : List Op) :
    let idx := newFileIndex.run ops
    idx.filesCount = idx.files.size ∧ idx.dirsCount = idx.dirs.size ∧
      idx.totalBytes = GoMap.sum (fun _ info => info.size) idx.files ∧
      (∀ p, ¬ (p ∈ idx.files.keys ∧ p ∈ idx.dirs.keys)) ∧
      ∀ p, p ∈ idx.blocked.keys → p ∉ idx.files.keys := by
  have h := newFileIndex_bookkept.run ops
  refine ⟨h.filesCount, h.dirsCount, h.totalBytes, ?_, ?_⟩
  · rintro p ⟨hf, hd⟩
    have hnone := h.disjoint p ((GoMap.load_isSome _ _).mpr hd)
    exact (GoMap.load_eq_none _ _).mp hnone hf
  · intro p hp
    exact (GoMap.load_eq_none _ _).mp (h.unblocked p ((GoMap.load_isSome _ _).mpr hp))

end RenoP.Index.FileIndex
