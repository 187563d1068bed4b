import RenoP.Index.Stream

/-!
# Reading back a persisted index

Calls on the tree leave the contents alone and the other way round.
-/

namespace RenoP.Index.FileIndex
open SlashPath

def SameContents (a b : FileIndex) : Prop :=
  a.contents = b.contents ∧ a.contentRefs = b.contentRefs ∧
    a.contentVerifiedRefs = b.contentVerifiedRefs ∧ a.contentGarbage = b.contentGarbage

theorem SameContents.refl (a : FileIndex) : SameContents a a := ⟨rfl, rfl, rfl, rfl⟩

theorem SameContents.trans {a b c : FileIndex} (h : SameContents a b) (h' : SameContents b c) :
    SameContents a c :=
  ⟨h.1.trans h'.1, h.2.1.trans h'.2.1, h.2.2.1.trans h'.2.2.1, h.2.2.2.trans h'.2.2.2⟩

theorem SameContents.exact {a b : FileIndex} (h : SameContents a b) (hb : ContentExact b) :
    ContentExact a := by
  obtain ⟨h1, h2, h3, h4⟩ := h
  exact ⟨by rw [h1, h2]; exact hb.refs, by rw [h1, h3]; exact hb.verified,
    by rw [h2, h4]; exact hb.collectable⟩

theorem addChild_sameContents (idx : FileIndex) (p : Path) : SameContents (idx.addChild p) idx := by
  rw [addChild_same idx p]
  exact ⟨rfl, rfl, rfl, rfl⟩

theorem dropFile_sameContents (idx : FileIndex) (p : Path) :
    SameContents (idx.dropFile p) idx := by
  cases h : idx.files.load p with
  | none =>
    rw [dropFile_absent h]
    exact SameContents.refl idx
  | some old =>
    rw [dropFile_present h]
    exact ⟨rfl, rfl, rfl, rfl⟩

theorem removeDescendants_sameContents (idx : FileIndex) (p : Path) :
    SameContents (idx.removeDescendants p) idx :=
  removeDescendants_preserves (P := fun i => SameContents i idx)
    (fun i q h => (dropFile_sameContents i q).trans h) (fun _ _ _ h => h) (fun _ _ h => h) idx p
    (SameContents.refl idx)

theorem putFile_sameContents (idx : FileIndex) (p : Path) (info : FileInfo) :
    SameContents (idx.putFile p info) idx := by
  unfold putFile
  dsimp only
  by_cases hb : idx.isBlocked p = true
  · rw [if_pos hb]
    exact SameContents.refl idx
  rw [if_neg hb]
  have hroom : SameContents (if idx.dirs.has p = true then
      { removeChild (removeDescendants (dropDir { idx with fileRevision := idx.fileRevision + 1 } p)
        p) p with isDirty := true }
      else { idx with fileRevision := idx.fileRevision + 1 }) idx := by
    split_ifs
    · exact removeDescendants_sameContents _ p
    · exact ⟨rfl, rfl, rfl, rfl⟩
  split <;> exact (addChild_sameContents _ p).trans hroom

theorem putDir_sameContents (idx : FileIndex) (p : Path) : SameContents (idx.putDir p) idx := by
  unfold putDir
  split_ifs
  · exact SameContents.refl idx
  · exact SameContents.refl idx
  · exact addChild_sameContents _ p

theorem step_sameContents (idx : FileIndex) (op : Op) : SameContents (idx.step op) idx := by
  cases op with
  | insertFile p info =>
    unfold step insertFile
    dsimp only
    split_ifs
    · exact SameContents.refl idx
    · exact putFile_sameContents idx p info
  | insertDir p => exact putDir_sameContents idx p
  | removeFile p => exact dropFile_sameContents idx p
  | removeDir p =>
    have h := removeDescendants_sameContents idx p
    unfold step removeDir
    dsimp only
    split_ifs <;> exact h
  | blockFile p =>
    unfold step blockFile
    dsimp only
    split_ifs
    · exact SameContents.refl idx
    · exact dropFile_sameContents _ p
  | unblockFile p =>
    unfold step unblockFile
    dsimp only
    split_ifs <;> exact SameContents.refl idx
  | unblockTree p =>
    unfold step unblockTree
    dsimp only
    split_ifs <;> exact SameContents.refl idx
  | ensureParentDirs p =>
    exact List.foldlRecOn (motive := fun i => SameContents i idx) _ _ (SameContents.refl idx)
      fun i hi q _ => (putDir_sameContents i q).trans hi

def SameTree (a b : FileIndex) : Prop :=
  a.files = b.files ∧ a.dirs = b.dirs ∧ a.blocked = b.blocked ∧ a.children = b.children ∧
    a.filesCount = b.filesCount ∧ a.dirsCount = b.dirsCount ∧ a.totalBytes = b.totalBytes

theorem SameTree.refl (a : FileIndex) : SameTree a a := ⟨rfl, rfl, rfl, rfl, rfl, rfl, rfl⟩

theorem SameTree.trans {a b c : FileIndex} (h : SameTree a b) (h' : SameTree b c) :
    SameTree a c := by
  obtain ⟨h1, h2, h3, h4, h5, h6, h7⟩ := h
  obtain ⟨k1, k2, k3, k4, k5, k6, k7⟩ := h'
  exact ⟨h1.trans k1, h2.trans k2, h3.trans k3, h4.trans k4, h5.trans k5, h6.trans k6, h7.trans k7⟩

theorem SameTree.bookkept {a b : FileIndex} (h : SameTree a b) (hb : Bookkept b) : Bookkept a := by
  obtain ⟨h1, h2, h3, -, h5, h6, h7⟩ := h
  exact ⟨by rw [h5, h1]; exact hb.filesCount, by rw [h6, h2]; exact hb.dirsCount,
    by rw [h7, h1]; exact hb.totalBytes, by rw [h1, h2]; exact hb.disjoint,
    by rw [h1, h3]; exact hb.unblocked, by rw [h3]; exact hb.emptyUnblocked⟩

theorem dropContentReference_sameTree (idx : FileIndex) (key : Key) (value : ContentInfo)
    (now : ℤ) : SameTree (idx.dropContentReference key value now) idx := by
  unfold dropContentReference
  dsimp only
  split_ifs <;> exact SameTree.refl idx

theorem addContent_sameTree (idx : FileIndex) (key : Key) (value : ContentInfo) :
    SameTree (idx.addContent key value) idx := by
  unfold addContent
  dsimp only
  split_ifs <;> exact SameTree.refl idx

theorem putContent_sameTree (idx : FileIndex) (key : Key) (value : ContentInfo) (now : ℤ) :
    SameTree (idx.putContent key value now) idx := by
  unfold putContent
  cases idx.contents.load key with
  | none => exact addContent_sameTree idx key value
  | some old =>
    dsimp only
    split_ifs
    · exact SameTree.refl idx
    · exact (addContent_sameTree _ key value).trans (dropContentReference_sameTree idx key old now)

theorem removeContent_sameTree (idx : FileIndex) (key : Key) (now : ℤ) :
    SameTree (idx.removeContent key now) idx := by
  unfold removeContent
  cases idx.contents.load key with
  | none => exact SameTree.refl idx
  | some value =>
    exact dropContentReference_sameTree { idx with contents := idx.contents.delete key } key value now

theorem contentStep_sameTree (idx : FileIndex) (op : ContentOp) :
    SameTree (idx.contentStep op) idx := by
  cases op with
  | putContent key value now => exact putContent_sameTree idx key value now
  | removeContent key now => exact removeContent_sameTree idx key now
  | removeContentIfMatch key expected now =>
    unfold contentStep removeContentIfMatch
    dsimp only
    split
    · split_ifs
      · exact removeContent_sameTree idx key now
      · exact SameTree.refl idx
    · exact SameTree.refl idx
  | markContentGarbage key since =>
    unfold contentStep markContentGarbage
    dsimp only
    split_ifs
    · exact SameTree.refl idx
    · split
      · split_ifs <;> exact SameTree.refl idx
      · exact SameTree.refl idx
  | ensureContentGarbage key since =>
    unfold contentStep ensureContentGarbage
    dsimp only
    split_ifs <;> exact SameTree.refl idx
  | forgetContentGarbage key expected =>
    unfold contentStep forgetContentGarbage
    dsimp only
    split_ifs <;> exact SameTree.refl idx

structure Sound (idx : FileIndex) : Prop where
  book : Bookkept idx
  content : ContentExact idx

theorem newFileIndex_sound : Sound newFileIndex := ⟨newFileIndex_bookkept, newFileIndex_contentExact⟩

theorem Sound.step {idx : FileIndex} (h : Sound idx) (op : Op) : Sound (idx.step op) :=
  ⟨h.book.step op, (step_sameContents idx op).exact h.content⟩

theorem Sound.contentStep {idx : FileIndex} (h : Sound idx) (op : ContentOp) :
    Sound (idx.contentStep op) :=
  ⟨(contentStep_sameTree idx op).bookkept h.book, h.content.step op⟩

theorem Sound.calls {idx : FileIndex} (h : Sound idx) (cs : List Call) : Sound (idx.calls cs) :=
  List.foldlRecOn cs _ h fun i hi c _ => by
    cases c with
    | tree op => exact hi.step op
    | content op => exact hi.contentStep op

theorem Sound.readRecord {idx idx' : FileIndex} (h : Sound idx) {record : IndexStreamRecord}
    {now : ℤ} (hr : idx.readRecord record now = .ok idx') : Sound idx' := by
  unfold FileIndex.readRecord at hr
  split_ifs at hr
  cases hk : record.kind with
  | file =>
    rw [hk] at hr
    dsimp only at hr
    cases hf : record.file with
    | none =>
      rw [hf] at hr
      cases hr
    | some info =>
      rw [hf] at hr
      cases hr
      exact h.step (.insertFile record.path info)
  | dir =>
    rw [hk] at hr
    cases hr
    exact h.step (.insertDir record.path)
  | content =>
    rw [hk] at hr
    dsimp only at hr
    cases hc : record.content with
    | none =>
      rw [hc] at hr
      cases hr
    | some info =>
      rw [hc] at hr
      cases hr
      exact h.contentStep (.putContent record.path info now)
  | contentGarbage =>
    rw [hk] at hr
    cases hr
    exact h.contentStep (.markContentGarbage record.path record.since)
  | unknown =>
    rw [hk] at hr
    cases hr

theorem Sound.readJSONStream (clock : ℕ → ℤ) (records : List IndexStreamRecord) :
    ∀ {idx idx' : FileIndex}, Sound idx → idx.readJSONStream clock records = .ok idx' →
    Sound idx' := by
  induction records with
  | nil =>
    intro idx idx' h hr
    cases hr
    exact h
  | cons record records ih =>
    intro idx idx' h hr
    unfold FileIndex.readJSONStream at hr
    cases h1 : idx.readRecord record (clock records.length) with
    | error e =>
      rw [h1] at hr
      cases hr
    | ok mid =>
      rw [h1] at hr
      exact ih (h.readRecord h1) hr

theorem readJSONStream_cons {clock : ℕ → ℤ} {i mid : FileIndex} {record : IndexStreamRecord}
    {records : List IndexStreamRecord}
    (h : i.readRecord record (clock records.length) = .ok mid) :
    i.readJSONStream clock (record :: records) = mid.readJSONStream clock records := by
  rw [FileIndex.readJSONStream, h]

theorem readJSONStream_append {clock : ℕ → ℤ} (xs ys : List IndexStreamRecord) :
    ∀ {i j : FileIndex}, i.readJSONStream (fun n => clock (n + ys.length)) xs = .ok j →
    i.readJSONStream clock (xs ++ ys) = j.readJSONStream clock ys := by
  induction xs with
  | nil =>
    intro i j h
    cases h
    rfl
  | cons x xs ih =>
    intro i j h
    rw [FileIndex.readJSONStream] at h
    cases h1 : i.readRecord x (clock (xs.length + ys.length)) with
    | error e =>
      rw [h1] at h
      cases h
    | ok mid =>
      rw [h1] at h
      rw [List.cons_append, readJSONStream_cons (by rw [List.length_append]; exact h1)]
      exact ih h

def fileMetadata (info : FileInfo) : ℤ × ℤ := (info.size, info.modTime)

theorem insertFile_plain {i : FileIndex} (hd : i.dirs = ∅) (hb : i.blocked = ∅) (p : Path)
    (info : FileInfo) :
    (i.insertFile p info).dirs = ∅ ∧ (i.insertFile p info).blocked = ∅ ∧
      ∀ q, (i.insertFile p info).files.load q =
        if q = p then some { info with revision := i.fileRevision + 1 } else i.files.load q := by
  have hblock : i.isBlocked p = false := by
    unfold isBlocked
    rw [hb]
    split_ifs <;> rfl
  have hdir : i.dirs.has p = false := by
    rw [hd]
    rfl
  unfold insertFile putFile
  dsimp only
  rw [if_neg (by rw [hblock]; decide), if_neg (by rw [hblock]; decide),
    if_neg (by rw [hdir]; decide)]
  split
  · refine ⟨(addChild_dirs _ p).trans hd, (addChild_blocked _ p).trans hb, fun q => ?_⟩
    rw [addChild_files, GoMap.load_store]
  · refine ⟨(addChild_dirs _ p).trans hd, (addChild_blocked _ p).trans hb, fun q => ?_⟩
    rw [addChild_files, GoMap.load_store]

theorem read_files (src : FileIndex) (l : List Path) : ∀ {i : FileIndex} (clock : ℕ → ℤ),
    l.Nodup → (∀ p ∈ l, p ≠ []) → i.dirs = ∅ → i.blocked = ∅ →
    ∃ j, i.readJSONStream clock (l.filterMap src.fileRecord) = .ok j ∧ j.dirs = ∅ ∧
      j.blocked = ∅ ∧ SameContents j i ∧ ∀ p, (j.files.load p).map fileMetadata =
        if p ∈ l ∧ (src.getFileInfo p).isSome then (src.getFileInfo p).map fileMetadata
        else (i.files.load p).map fileMetadata := by
  induction l with
  | nil =>
    intro i clock _ _ hd hb
    exact ⟨i, rfl, hd, hb, SameContents.refl i, fun p => by simp⟩
  | cons f l ih =>
    intro i clock hn hne hd hb
    obtain ⟨hfl, hnl⟩ := List.nodup_cons.mp hn
    have hnel : ∀ p ∈ l, p ≠ [] := fun p hp => hne p (List.mem_cons_of_mem f hp)
    have hrec : src.fileRecord f = (src.getFileInfo f).map fun info =>
        { kind := .file, path := f, file := some info.json } := by
      unfold fileRecord getFileInfo
      split_ifs <;> rfl
    cases hg : src.getFileInfo f with
    | none =>
      rw [List.filterMap_cons_none (by rw [hrec, hg]; rfl)]
      obtain ⟨j, h1, h2, h3, h4, h5⟩ := ih clock hnl hnel hd hb
      refine ⟨j, h1, h2, h3, h4, fun p => ?_⟩
      rw [h5]
      by_cases hp : p = f
      · rw [if_neg (by simp [hp, hfl]), if_neg (by simp [hp, hg])]
      · simp [hp]
    | some info =>
      rw [List.filterMap_cons_some (b := { kind := .file, path := f, file := some info.json })
        (by rw [hrec, hg]; rfl)]
      obtain ⟨hd', hb', hf'⟩ := insertFile_plain hd hb f info.json
      obtain ⟨j, h1, h2, h3, h4, h5⟩ := ih clock hnl hnel hd' hb'
      refine ⟨j, ?_, h2, h3, h4.trans (step_sameContents i (.insertFile f info.json)),
        fun p => ?_⟩
      · refine (readJSONStream_cons ?_).trans h1
        unfold FileIndex.readRecord
        rw [if_neg (hne f (List.mem_cons_self ..))]
      · rw [h5, hf']
        by_cases hp : p = f
        · rw [if_neg (by simp [hp, hfl]), if_pos hp, if_pos (by simp [hp, hg]), hp, hg]
          rfl
        · simp [hp]

theorem read_dirs (l : List Path) : ∀ {i : FileIndex} (clock : ℕ → ℤ),
    (∀ p ∈ l, p ≠ [] ∧ i.files.load p = none) →
    ∃ j, i.readJSONStream clock (l.map dirRecord) = .ok j ∧ j.files = i.files ∧
      j.blocked = i.blocked ∧ SameContents j i ∧
      ∀ q, j.dirs.has q = true ↔ i.dirs.has q = true ∨ q ∈ l := by
  induction l with
  | nil =>
    intro i clock _
    exact ⟨i, rfl, rfl, rfl, SameContents.refl i, fun q => by simp⟩
  | cons d l ih =>
    intro i clock h
    obtain ⟨hne, hf⟩ := h d (List.mem_cons_self ..)
    have hhas : i.files.has d = false := (GoMap.has_eq_false _ _).mpr hf
    have hput : (i.insertDir d).files = i.files ∧ (i.insertDir d).blocked = i.blocked ∧
        ∀ q, (i.insertDir d).dirs.has q = true ↔ i.dirs.has q = true ∨ q = d := by
      unfold insertDir putDir
      rw [if_neg (by rw [hhas]; decide)]
      by_cases hd : i.dirs.has d = true
      · rw [if_pos hd]
        refine ⟨rfl, rfl, fun q => ⟨Or.inl, ?_⟩⟩
        rintro (hq | rfl)
        · exact hq
        · exact hd
      · rw [if_neg hd]
        refine ⟨addChild_files _ d, addChild_blocked _ d, fun q => ?_⟩
        rw [addChild_dirs, GoMap.has, GoMap.load_store]
        by_cases hq : q = d
        · simp [hq]
        · simp [hq, GoMap.has]
    obtain ⟨hfiles, hblocked, hdirs⟩ := hput
    obtain ⟨j, h1, h2, h3, h4, h5⟩ := ih (i := i.insertDir d) clock fun p hp => by
      rw [hfiles]
      exact h p (List.mem_cons_of_mem d hp)
    refine ⟨j, ?_, h2.trans hfiles, h3.trans hblocked, h4.trans (putDir_sameContents i d),
      fun q => ?_⟩
    · refine (readJSONStream_cons ?_).trans h1
      unfold FileIndex.readRecord dirRecord
      rw [if_neg hne]
    · rw [h5, hdirs, List.mem_cons, or_assoc]

theorem read_contents (src : FileIndex) (l : List Key) : ∀ {i : FileIndex} (clock : ℕ → ℤ),
    l.Nodup → (∀ k ∈ l, k ≠ [] ∧ i.contents.load k = none) →
    (∀ d, i.contentGarbage.load d = none) →
    ∃ j, i.readJSONStream clock (l.filterMap src.contentRecord) = .ok j ∧ SameTree j i ∧
      (∀ d, j.contentGarbage.load d = none) ∧ ∀ k, j.contents.load k =
        if k ∈ l ∧ (src.contents.load k).isSome then (src.contents.load k).map ContentInfo.json
        else i.contents.load k := by
  induction l with
  | nil =>
    intro i clock _ _ hg
    exact ⟨i, rfl, SameTree.refl i, hg, fun k => by simp⟩
  | cons c l ih =>
    intro i clock hn h hg
    obtain ⟨hcl, hnl⟩ := List.nodup_cons.mp hn
    obtain ⟨hne, hnone⟩ := h c (List.mem_cons_self ..)
    cases hc : src.contents.load c with
    | none =>
      rw [List.filterMap_cons_none (by rw [contentRecord, hc]; rfl)]
      obtain ⟨j, h1, h2, h3, h4⟩ := ih clock hnl (fun k hk => h k (List.mem_cons_of_mem c hk)) hg
      refine ⟨j, h1, h2, h3, fun k => ?_⟩
      rw [h4]
      by_cases hk : k = c
      · rw [if_neg (by simp [hk, hcl]), if_neg (by simp [hk, hc])]
      · simp [hk]
    | some info =>
      rw [List.filterMap_cons_some
        (b := { kind := .content, path := c, content := some info.json })
        (by rw [contentRecord, hc]; rfl)]
      have hput : ∀ now, i.putContent c info.json now = i.addContent c info.json := by
        intro now
        rw [putContent, hnone]
      have hload : ∀ k, (i.addContent c info.json).contents.load k =
          if k = c then some info.json else i.contents.load k := by
        intro k
        rw [(addContent_counters i c info.json []).1, GoMap.load_store]
      obtain ⟨j, h1, h2, h3, h4⟩ := ih (i := i.addContent c info.json) clock hnl (fun k hk => by
        have hkc : k ≠ c := by
          rintro rfl
          exact hcl hk
        rw [hload, if_neg hkc]
        exact h k (List.mem_cons_of_mem c hk)) fun d => by
          rw [addContent_garbage, hg, ite_self]
      refine ⟨j, ?_, h2.trans (addContent_sameTree i c info.json), h3, fun k => ?_⟩
      · refine (readJSONStream_cons ?_).trans h1
        unfold FileIndex.readRecord
        rw [if_neg hne]
        dsimp only
        rw [hput]
      · rw [h4, hload]
        by_cases hk : k = c
        · rw [if_neg (by simp [hk, hcl]), if_pos hk, if_pos (by simp [hk, hc]), hk, hc]
          rfl
        · simp [hk]

theorem read_garbage (src : FileIndex) (l : List Key) : ∀ {i : FileIndex} (clock : ℕ → ℤ),
    l.Nodup → (∀ k ∈ l, k ≠ [] ∧ i.contentRefs.counter k ≤ 0 ∧ i.contentGarbage.load k = none) →
    ∃ j, i.readJSONStream clock (l.filterMap src.garbageRecord) = .ok j ∧ SameTree j i ∧
      j.contents = i.contents ∧ ∀ k, j.contentGarbage.load k =
        if k ∈ l ∧ (src.contentGarbage.load k).isSome then src.contentGarbage.load k
        else i.contentGarbage.load k := by
  induction l with
  | nil =>
    intro i clock _ _
    exact ⟨i, rfl, SameTree.refl i, rfl, fun k => by simp⟩
  | cons g l ih =>
    intro i clock hn h
    obtain ⟨hgl, hnl⟩ := List.nodup_cons.mp hn
    obtain ⟨hne, hrefs, hnone⟩ := h g (List.mem_cons_self ..)
    cases hs : src.contentGarbage.load g with
    | none =>
      rw [List.filterMap_cons_none (by rw [garbageRecord, hs]; rfl)]
      obtain ⟨j, h1, h2, h3, h4⟩ := ih clock hnl fun k hk => h k (List.mem_cons_of_mem g hk)
      refine ⟨j, h1, h2, h3, fun k => ?_⟩
      rw [h4]
      by_cases hk : k = g
      · rw [if_neg (by simp [hk, hgl]), if_neg (by simp [hk, hs])]
      · simp [hk]
    | some since =>
      rw [List.filterMap_cons_some (b := { kind := .contentGarbage, path := g, since := since })
        (by rw [garbageRecord, hs]; rfl)]
      have hmark : i.markContentGarbage g since = { i with
          contentGarbage := i.contentGarbage.store g since, isDirty := true } := by
        rw [markContentGarbage, if_neg (by omega), hnone]
      obtain ⟨j, h1, h2, h3, h4⟩ := ih (i := i.markContentGarbage g since) clock hnl fun k hk => by
        have hkg : k ≠ g := by
          rintro rfl
          exact hgl hk
        obtain ⟨hk1, hk2, hk3⟩ := h k (List.mem_cons_of_mem g hk)
        rw [hmark]
        exact ⟨hk1, hk2, (GoMap.load_store_ne _ _ hkg).trans hk3⟩
      refine ⟨j, ?_, h2.trans (contentStep_sameTree i (.markContentGarbage g since)), ?_,
        fun k => ?_⟩
      · refine (readJSONStream_cons ?_).trans h1
        unfold FileIndex.readRecord
        rw [if_neg hne]
      · rw [h3, hmark]
      · rw [h4, hmark]
        dsimp only
        rw [GoMap.load_store]
        by_cases hk : k = g
        · rw [if_neg (by simp [hk, hgl]), if_pos hk, if_pos (by simp [hk, hs]), hk, hs]
        · simp [hk]

theorem Bookkept.getFileInfo {idx : FileIndex} (h : Bookkept idx) (p : Path) :
    idx.getFileInfo p = idx.files.load p := by
  unfold FileIndex.getFileInfo
  split_ifs with hb
  · rw [isBlocked_eq h] at hb
    exact (h.unblocked p hb).symm
  · rfl

theorem count_refersTo_json {m m' : GoMap Key ContentInfo}
    (h : ∀ k, m'.load k = (m.load k).map ContentInfo.json) (d : Key) :
    (m'.count (refersTo d) : ℤ) = m.count (refersTo d) := by
  rw [GoMap.count_eq_sum, GoMap.count_eq_sum]
  refine GoMap.sum_congr (fun k => ?_) fun k => ?_
  · rw [GoMap.has, GoMap.has, h, Option.isSome_map]
  · rw [GoMap.weight, GoMap.weight, h]
    cases m.load k with
    | none => rfl
    | some info => rfl

/-- The persisted index: what `ReadJSONFrom` makes of what `WritePersistentJSONTo` wrote. -/
structure SameIndex (idx out : FileIndex) : Prop where
  files : ∀ p, (out.getFileInfo p).map fileMetadata = (idx.getFileInfo p).map fileMetadata
  dirs : ∀ p, out.dirs.has p = idx.dirs.has p
  contents : ∀ k, out.contents.load k = (idx.contents.load k).map ContentInfo.json
  contentGarbage : ∀ k, out.contentGarbage.load k = idx.contentGarbage.load k
  filesCount : out.filesCount = idx.filesCount
  dirsCount : out.dirsCount = idx.dirsCount
  totalBytes : out.totalBytes = idx.totalBytes

theorem SameIndex.of_loads {idx out : FileIndex} (h : Bookkept idx) (h' : Bookkept out)
    (hfiles : ∀ p, (out.files.load p).map fileMetadata = (idx.files.load p).map fileMetadata)
    (hdirs : ∀ p, out.dirs.has p = idx.dirs.has p)
    (hcontents : ∀ k, out.contents.load k = (idx.contents.load k).map ContentInfo.json)
    (hgarbage : ∀ k, out.contentGarbage.load k = idx.contentGarbage.load k) :
    SameIndex idx out := by
  have hhas : ∀ p, out.files.has p = idx.files.has p := by
    intro p
    have hp := congrArg Option.isSome (hfiles p)
    rwa [Option.isSome_map, Option.isSome_map] at hp
  refine ⟨fun p => ?_, hdirs, hcontents, hgarbage, ?_, ?_, ?_⟩
  · rw [h.getFileInfo, h'.getFileInfo, hfiles]
  · rw [h.filesCount, h'.filesCount, GoMap.size_congr hhas]
  · rw [h.dirsCount, h'.dirsCount, GoMap.size_congr hdirs]
  · rw [h.totalBytes, h'.totalBytes]
    refine GoMap.sum_congr hhas fun p => ?_
    have hp := congrArg (Option.map Prod.fst) (hfiles p)
    rw [Option.map_map, Option.map_map] at hp
    unfold GoMap.weight
    cases hl : out.files.load p with
    | none =>
      cases hm : idx.files.load p with
      | none => rfl
      | some info =>
        rw [hl, hm] at hp
        cases hp
    | some info' =>
      cases hm : idx.files.load p with
      | none =>
        rw [hl, hm] at hp
        cases hp
      | some info =>
        rw [hl, hm] at hp
        exact Option.some.inj hp

theorem read_contents_garbage {src i : FileIndex} (hsrc : ContentExact src) (hi : Sound i)
    (clock : ℕ → ℤ) (o : StreamOrders) (hcontents : ∀ k, i.contents.load k = none)
    (hgarbage : ∀ k, i.contentGarbage.load k = none)
    (hkeys : ∀ k, src.contents.has k = true ∨ src.contentGarbage.has k = true → k ≠ []) :
    ∃ j, i.readJSONStream clock ((o.contents.keys src.contents).filterMap src.contentRecord ++
        (o.contentGarbage.keys src.contentGarbage).filterMap src.garbageRecord) = .ok j ∧
      SameTree j i ∧ (∀ k, j.contents.load k = (src.contents.load k).map ContentInfo.json) ∧
      ∀ k, j.contentGarbage.load k = src.contentGarbage.load k := by
  have hkc := o.contents.mem_keys src.contents
  have hkg := o.contentGarbage.mem_keys src.contentGarbage
  obtain ⟨j, h1, h2, h3, h4⟩ := read_contents src (o.contents.keys src.contents) (i := i)
    (fun n => clock (n + ((o.contentGarbage.keys src.contentGarbage).filterMap
      src.garbageRecord).length)) (o.contents.nodup _)
    (fun k hk => ⟨hkeys k (Or.inl ((hkc k).mp hk)), hcontents k⟩) hgarbage
  have hload : ∀ k, j.contents.load k = (src.contents.load k).map ContentInfo.json := by
    intro k
    rw [h4]
    cases hl : src.contents.load k with
    | none => rw [if_neg (by simp), hcontents, Option.map_none]
    | some info => rw [if_pos ⟨(hkc k).mpr ((GoMap.has_eq_true _ _).mpr ⟨info, hl⟩), rfl⟩]
  have hj := hi.readJSONStream _ _ h1
  obtain ⟨out, k1, k2, k3, k4⟩ := read_garbage src (o.contentGarbage.keys src.contentGarbage)
    (i := j) clock (o.contentGarbage.nodup _) fun k hk => by
      refine ⟨hkeys k (Or.inr ((hkg k).mp hk)), ?_, h3 k⟩
      -- a garbage digest has no reference, neither written nor read back
      rw [hj.content.refs, count_refersTo_json hload, ← hsrc.refs]
      by_contra hpos
      have hnone := hsrc.collectable k (by omega)
      have hhas := (hkg k).mp hk
      rw [GoMap.has, hnone] at hhas
      cases hhas
  refine ⟨out, ?_, k2.trans h2, fun k => by rw [k3, hload], fun k => ?_⟩
  · rw [readJSONStream_append _ _ h1]
    exact k1
  · rw [k4]
    cases hl : src.contentGarbage.load k with
    | none => rw [if_neg (by simp), h3]
    | some since => rw [if_pos ⟨(hkg k).mpr ((GoMap.has_eq_true _ _).mpr ⟨since, hl⟩), rfl⟩]

/-- Every index that its calls reach is read back from its stream, in whatever orders the stream
was written. -/
theorem persistent_round_trip (cs : List Call) (o : StreamOrders) (clock : ℕ → ℤ)
    (hpaths : ∀ p, (newFileIndex.calls cs).files.has p = true ∨
      (newFileIndex.calls cs).dirs.has p = true → p ≠ [])
    (hkeys : ∀ k, (newFileIndex.calls cs).contents.has k = true ∨
      (newFileIndex.calls cs).contentGarbage.has k = true → k ≠ []) :
    ∃ out, newFileIndex.readJSONFrom clock ((newFileIndex.calls cs).writePersistentJSONTo o) =
        .ok out ∧ SameIndex (newFileIndex.calls cs) out := by
  have h := newFileIndex_sound.calls cs
  generalize newFileIndex.calls cs = idx at h hpaths hkeys ⊢
  have hkf := o.files.mem_keys idx.files
  have hkd := o.dirs.mem_keys idx.dirs
  unfold readJSONFrom writePersistentJSONTo writeJSONStream
  rw [if_neg (by simp), if_pos rfl]
  dsimp only
  generalize hrest : (o.contents.keys idx.contents).filterMap idx.contentRecord ++
    (o.contentGarbage.keys idx.contentGarbage).filterMap idx.garbageRecord = rest
  obtain ⟨a, a1, a2, a3, a4, a5⟩ := read_files idx (o.files.keys idx.files) (i := newFileIndex)
    (fun n => clock (n + ((o.dirs.keys idx.dirs).map dirRecord ++ rest).length))
    (o.files.nodup _) (fun p hp => hpaths p (Or.inl ((hkf p).mp hp))) rfl rfl
  have hfiles : ∀ p, (a.files.load p).map fileMetadata =
      (idx.files.load p).map fileMetadata := by
    intro p
    rw [a5, h.book.getFileInfo]
    cases hl : idx.files.load p with
    | none =>
      rw [if_neg (by simp)]
      rfl
    | some info => rw [if_pos ⟨(hkf p).mpr ((GoMap.has_eq_true _ _).mpr ⟨info, hl⟩), rfl⟩]
  obtain ⟨b, b1, b2, b3, b4, b5⟩ := read_dirs (o.dirs.keys idx.dirs) (i := a)
    (fun n => clock (n + rest.length)) fun p hp => by
      refine ⟨hpaths p (Or.inr ((hkd p).mp hp)), ?_⟩
      have hp' := hfiles p
      rw [h.book.disjoint p ((hkd p).mp hp), Option.map_none] at hp'
      exact Option.map_eq_none_iff.mp hp'
  have hb : SameContents b newFileIndex := b4.trans a4
  have hsound := (newFileIndex_sound.readJSONStream _ _ a1).readJSONStream _ _ b1
  obtain ⟨out, c1, c2, c3, c4⟩ := read_contents_garbage h.content hsound clock o
    (fun k => by rw [hb.1]; rfl) (fun k => by rw [hb.2.2.2]; rfl) hkeys
  rw [hrest] at c1
  refine ⟨out, ?_, SameIndex.of_loads h.book (c2.bookkept hsound.book) (fun p => ?_) (fun p => ?_)
    c3 c4⟩
  · rw [readJSONStream_append _ _ a1, readJSONStream_append _ _ b1]
    exact c1
  · rw [c2.1, b2, hfiles]
  · rw [c2.2.1, Bool.eq_iff_iff, b5, a2, hkd]
    constructor
    · rintro (hn | hp)
      · cases hn
      · exact hp
    · exact Or.inr

/-- A state with a file, a directory, a reference that was dropped and one that is kept. -/
theorem persistent_round_trip_cargo :
    let cs : List Call := [.tree (.insertDir "s".toList), .tree (.insertFile "s/a".toList { size := 3 }),
      .content (.putContent "cargo\x00a".toList
        { digest := "d1".toList, reference := true, verified := true } 0),
      .content (.putContent "cargo\x00b".toList { digest := "d2".toList, reference := true } 0),
      .content (.removeContent "cargo\x00b".toList 7)]
    let o : StreamOrders := ⟨.entries, .entries, .entries, .entries⟩
    ∃ out, newFileIndex.readJSONFrom (fun _ => 9) ((newFileIndex.calls cs).writePersistentJSONTo o) =
      .ok out ∧ SameIndex (newFileIndex.calls cs) out := by
  intro cs o
  have hfiles : ∀ p ∈ (newFileIndex.calls cs).files.keys, p ≠ [] := by decide
  have hdirs : ∀ p ∈ (newFileIndex.calls cs).dirs.keys, p ≠ [] := by decide
  have hcontents : ∀ k ∈ (newFileIndex.calls cs).contents.keys, k ≠ [] := by decide
  have hgarbage : ∀ k ∈ (newFileIndex.calls cs).contentGarbage.keys, k ≠ [] := by decide
  exact persistent_round_trip cs o (fun _ => 9)
    (fun p hp => hp.elim (fun h => hfiles p ((GoMap.load_isSome _ _).mp h))
      fun h => hdirs p ((GoMap.load_isSome _ _).mp h))
    fun k hk => hk.elim (fun h => hcontents k ((GoMap.load_isSome _ _).mp h))
      fun h => hgarbage k ((GoMap.load_isSome _ _).mp h)

end RenoP.Index.FileIndex
