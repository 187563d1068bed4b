import RenoP.Index.Children

/-!
# The child lists over runs

A purge that removes no file with entries below it keeps the lists exact, and leaves nothing of what
is listed in its directory.
-/

namespace RenoP.Index.FileIndex
open SlashPath

/-- The entries a purge of `d` reaches. -/
inductive Purged (idx : FileIndex) (d : Path) : Path → Prop
  | child {b : Path} (hd : Tracked d) (hb : '/' ∉ b) (h : idx.Indexed (d ++ '/' :: b)) :
      Purged idx d (d ++ '/' :: b)
  | inside {q b : Path} (hq : Purged idx d q) (hdir : idx.dirs.has q = true) (hb : '/' ∉ b)
      (h : idx.Indexed (q ++ '/' :: b)) : Purged idx d (q ++ '/' :: b)

/-- No file a purge of `d` reaches has an entry below it, those of `S` apart. -/
def PurgeSafe (S : Set Path) (idx : FileIndex) (d : Path) : Prop :=
  ∀ f, Purged idx d f → idx.files.has f = true → ∀ b, '/' ∉ b → f ++ '/' :: b ∉ S →
    ¬ idx.Indexed (f ++ '/' :: b)

/-- Every entry of `a` is an entry of `b`. -/
structure Below (a b : FileIndex) : Prop where
  files : ∀ q, a.files.has q = true → b.files.has q = true
  dirs : ∀ q, a.dirs.has q = true → b.dirs.has q = true

theorem Below.refl (a : FileIndex) : Below a a := ⟨fun _ h => h, fun _ h => h⟩

theorem Below.trans {a b c : FileIndex} (h : Below a b) (h' : Below b c) : Below a c :=
  ⟨fun q hq => h'.files q (h.files q hq), fun q hq => h'.dirs q (h.dirs q hq)⟩

theorem Below.indexed {a b : FileIndex} (h : Below a b) {q : Path} (hq : a.Indexed q) :
    b.Indexed q :=
  hq.imp (h.files q) (h.dirs q)

theorem dropFile_below (idx : FileIndex) (q : Path) : Below (idx.dropFile q) idx := by
  refine ⟨fun r hr => ?_, fun r hr => by rwa [dropFile_dirs] at hr⟩
  rw [dropFile_has] at hr
  split_ifs at hr
  exact hr

theorem dropDir_below (idx : FileIndex) (q : Path) : Below (idx.dropDir q) idx := by
  refine ⟨fun r hr => hr, fun r hr => ?_⟩
  rw [dropDir_has] at hr
  split_ifs at hr
  exact hr

theorem removeChild_below (idx : FileIndex) (q : Path) : Below (idx.removeChild q) idx :=
  ⟨fun _ h => h, fun _ h => h⟩

theorem removeDescendantsFuel_below (fuel : ℕ) (idx : FileIndex) (p : Path) :
    Below (removeDescendantsFuel fuel idx p) idx :=
  removeDescendantsFuel_preserves (P := fun i => Below i idx)
    (fun i q h => (dropFile_below i q).trans h) (fun i q _ h => (dropDir_below i q).trans h)
    (fun i q h => (removeChild_below i q).trans h) fuel idx p (Below.refl idx)

theorem removeDescendant_below (fuel : ℕ) (d : Path) (idx : FileIndex) (c : Path) :
    Below (removeDescendant (removeDescendantsFuel fuel) d idx c) idx :=
  removeDescendant_preserves (P := fun i => Below i idx)
    (fun i q h => (removeDescendantsFuel_below fuel i q).trans h)
    (fun i q h => (dropFile_below i q).trans h) (fun i q _ h => (dropDir_below i q).trans h)
    (fun i q h => (removeChild_below i q).trans h) d idx c (Below.refl idx)

theorem foldl_removeDescendant_below (fuel : ℕ) (d : Path) (l : List Path) (idx : FileIndex) :
    Below (l.foldl (removeDescendant (removeDescendantsFuel fuel) d) idx) idx :=
  List.foldlRecOn (motive := fun i => Below i idx) l _ (Below.refl idx)
    fun i h c _ => (removeDescendant_below fuel d i c).trans h

theorem dirs_size_le {a b : FileIndex} {fuel : ℕ} {d : Path} {c : Path}
    (h : a = removeDescendant (removeDescendantsFuel fuel) d b c) : a.dirs.size ≤ b.dirs.size := by
  rw [h]
  refine removeDescendant_preserves (P := fun i => i.dirs.size ≤ b.dirs.size)
    (fun i q hi => (removeDescendantsFuel_size fuel i q).trans hi)
    (fun i q hi => by simpa using hi) (fun i q hd hi => ?_) (fun _ _ hi => hi) d b c le_rfl
  have := dropDir_size hd
  omega

theorem Purged.mono {a b : FileIndex} (h : Below a b) {d f : Path} (hf : Purged a d f) :
    Purged b d f := by
  induction hf with
  | child hd hb hi => exact .child hd hb (h.indexed hi)
  | inside _ hdir hb hi ih => exact .inside ih (h.dirs _ hdir) hb (h.indexed hi)

theorem PurgeSafe.mono {S : Set Path} {a b : FileIndex} (h : Below a b) {d : Path}
    (hs : PurgeSafe S b d) : PurgeSafe S a d :=
  fun f hf hfile c hc hS hi => hs f (hf.mono h) (h.files f hfile) c hc hS (h.indexed hi)

theorem Purged.of_child {idx : FileIndex} {d c f : Path} (hd : Tracked d) (hc : '/' ∉ c)
    (hdir : idx.dirs.has (d ++ '/' :: c) = true) (hf : Purged idx (d ++ '/' :: c) f) :
    Purged idx d f := by
  induction hf with
  | child _ hb hi => exact .inside (.child hd hc (Or.inr hdir)) hdir hb hi
  | inside _ hq hb hi ih => exact .inside ih hq hb hi

theorem Exact.removeDescendant {S T : Set Path} {purge : FileIndex → Path → FileIndex}
    {idx : FileIndex} {d c : Path} (h : Exact S T idx) (hd : Tracked d) (hc : '/' ∉ c)
    (hsafe : PurgeSafe S idx d) (hbelow : ∀ i q, Below (purge i q) i)
    (hpurge : ∀ i, i.dirs.size < idx.dirs.size → Clean (d ++ '/' :: c) →
      PurgeSafe S i (d ++ '/' :: c) → Exact S (insert (d ++ '/' :: c) T) i →
      Exact S (insert (d ++ '/' :: c) T) (purge i (d ++ '/' :: c)) ∧
        ∀ b, '/' ∉ b → d ++ '/' :: c ++ '/' :: b ∉ S →
          ¬ (purge i (d ++ '/' :: c)).Indexed (d ++ '/' :: c ++ '/' :: b)) :
    Exact S T (removeDescendant purge d idx c) ∧
      ¬ (FileIndex.removeDescendant purge d idx c).Indexed (d ++ '/' :: c) := by
  have hfile : Exact S T (idx.dropFile (d ++ '/' :: c)) :=
    h.dropFile _ fun hf b _ hb hS => hsafe _ (.child hd hc (Or.inl hf)) hf b hb hS
  have hnofile : (idx.dropFile (d ++ '/' :: c)).files.has (d ++ '/' :: c) = false := by
    rw [dropFile_has, if_pos rfl]
  unfold FileIndex.removeDescendant
  dsimp only
  split_ifs with hdir
  · have hclean := hfile.clean _ (Or.inr hdir)
    have hdirs : idx.dirs.has (d ++ '/' :: c) = true := by rwa [dropFile_dirs] at hdir
    have hsub : Below ((idx.dropFile (d ++ '/' :: c)).dropDir (d ++ '/' :: c)) idx :=
      (dropDir_below _ _).trans (dropFile_below _ _)
    have hsize := dropDir_size hdir
    rw [dropFile_dirs] at hsize
    obtain ⟨hex, hempty⟩ := hpurge _ (by omega) hclean
      (fun f hf hff b hb hS hi => hsafe f ((hf.mono hsub).of_child hd hc hdirs) (hsub.files f hff)
        b hb hS (hsub.indexed hi)) (hfile.dropDir _)
    have hgone : ¬ (purge ((idx.dropFile (d ++ '/' :: c)).dropDir (d ++ '/' :: c))
        (d ++ '/' :: c)).Indexed (d ++ '/' :: c) := by
      intro hi
      rcases (hbelow _ _).indexed hi with hf | hdd
      · rw [dropDir_files, hnofile] at hf
        cases hf
      · rw [dropDir_has, if_pos rfl] at hdd
        cases hdd
    exact ⟨hex.removeChild (fun _ => hgone) fun b _ hb hS => hempty b hb hS, hgone⟩
  · refine ⟨hfile, ?_⟩
    rintro (hf | hdd)
    · rw [hnofile] at hf
      cases hf
    · exact hdir hdd

theorem removeDescendantsFuel_exact (fuel : ℕ) : ∀ {S T : Set Path} {idx : FileIndex} {d : Path},
    idx.dirs.size < fuel → Clean d → PurgeSafe S idx d → Exact S T idx →
    Exact S T (removeDescendantsFuel fuel idx d) ∧
      ∀ b, Tracked d → '/' ∉ b → d ++ '/' :: b ∉ S →
        ¬ (removeDescendantsFuel fuel idx d).Indexed (d ++ '/' :: b) := by
  induction fuel with
  | zero => exact fun h => absurd h (Nat.not_lt_zero _)
  | succ fuel ih =>
    intro S T idx d hsize hclean hsafe hex
    have hdef : removeDescendantsFuel (fuel + 1) idx d =
        (idx.kids d).foldl (FileIndex.removeDescendant (removeDescendantsFuel fuel) d) idx := by
      rw [removeDescendantsFuel, hclean, getChildren_clean idx hclean]
    have hloop : ∀ (l : List Path) (i : FileIndex), (∀ c ∈ l, Tracked d ∧ '/' ∉ c) →
        i.dirs.size ≤ idx.dirs.size → PurgeSafe S i d → Exact S T i →
        let out := l.foldl (FileIndex.removeDescendant (removeDescendantsFuel fuel) d) i
        Exact S T out ∧ ∀ c ∈ l, ¬ out.Indexed (d ++ '/' :: c) := by
      intro l
      induction l with
      | nil => exact fun i _ _ _ h => ⟨h, fun c hc => absurd hc List.not_mem_nil⟩
      | cons c l ihl =>
        intro i hplain hi hsafe' hex'
        obtain ⟨hd, hc⟩ := hplain c (List.mem_cons_self ..)
        obtain ⟨h1, h2⟩ := hex'.removeDescendant hd hc hsafe' (removeDescendantsFuel_below fuel)
          fun j hj hcl hsj hexj => by
            have := ih (by omega) hcl hsj hexj
            exact ⟨this.1, fun b hb hS => this.2 b (tracked_child hd) hb hS⟩
        have hb := removeDescendant_below fuel d i c
        obtain ⟨h3, h4⟩ := ihl _ (fun e he => hplain e (List.mem_cons_of_mem _ he))
          ((dirs_size_le rfl).trans hi) (hsafe'.mono hb) h1
        refine ⟨h3, fun e he => ?_⟩
        rcases List.mem_cons.mp he with rfl | he
        · exact fun hi => h2 ((foldl_removeDescendant_below fuel d l _).indexed hi)
        · exact h4 e he
    obtain ⟨h1, h2⟩ := hloop (idx.kids d) idx (fun c hc => hex.plain d c hc) le_rfl hsafe hex
    rw [hdef]
    refine ⟨h1, fun b ht hb hS hi => ?_⟩
    have hin : idx.Indexed (d ++ '/' :: b) :=
      (foldl_removeDescendant_below fuel d _ _).indexed hi
    exact h2 b (hex.complete d b ht hb hS hin) hi

section Operations

variable {S T : Set Path} {idx : FileIndex}

theorem Exact.removeDescendants {d : Path} (h : Exact S T idx) (hclean : Clean d)
    (hsafe : PurgeSafe S idx d) : Exact S T (idx.removeDescendants d) ∧
      ∀ b, Tracked d → '/' ∉ b → d ++ '/' :: b ∉ S →
        ¬ (idx.removeDescendants d).Indexed (d ++ '/' :: b) :=
  removeDescendantsFuel_exact _ (Nat.lt_succ_self _) hclean hsafe h

theorem removeDescendants_below (idx : FileIndex) (d : Path) :
    Below (idx.removeDescendants d) idx :=
  removeDescendantsFuel_below _ idx d

theorem Exact.storeFile {p : Path} (h : Exact (insert p S) T idx) (hclean : Clean p)
    (hdir : idx.dirs.has p = false) {a : FileIndex} {info : FileInfo}
    (hf : a.files = idx.files.store p info) (hd : a.dirs = idx.dirs)
    (hc : a.children = idx.children) : Exact S T (a.addChild p) := by
  have hfiles : ∀ r, a.files.load r = if r = p then some info else idx.files.load r := by
    intro r
    rw [hf, GoMap.load_store]
  have hself : a.Indexed p := by
    refine Or.inl ?_
    rw [GoMap.has, hfiles, if_pos rfl]
    rfl
  have hgrow : Exact (insert p (insert p S)) T a := by
    refine h.grow hc (fun r hr hi => ?_) (fun r hi => ?_) hclean fun r hr => ?_
    · unfold Indexed GoMap.has at hi ⊢
      rw [hfiles, if_neg hr, hd] at hi
      exact hi
    · by_cases hr : r = p
      · exact hr ▸ hself
      · unfold Indexed GoMap.has
        rw [hfiles, if_neg hr, hd]
        exact hi
    · rw [hd] at hr
      rw [hfiles, if_neg, h.disjoint r hr]
      rintro rfl
      rw [hr] at hdir
      cases hdir
  rw [Set.insert_eq_of_mem (Set.mem_insert p S)] at hgrow
  exact hgrow.addChild hself

theorem Exact.replaceDir {p : Path} (h : Exact S T idx) (hclean : Clean p)
    (hd : idx.dirs.has p = true) (hsafe : PurgeSafe S idx p) :
    Exact S T (((idx.dropDir p).removeDescendants p).removeChild p) ∧
      ((idx.dropDir p).removeDescendants p).dirs.has p = false := by
  obtain ⟨hex, hempty⟩ := (h.dropDir p).removeDescendants hclean (hsafe.mono (dropDir_below idx p))
  have hgone : ((idx.dropDir p).removeDescendants p).dirs.has p = false := by
    rw [GoMap.has_eq_false]
    exact removeDescendants_dirs_absent p p (by rw [dropDir_dirs, GoMap.load_delete_self])
  refine ⟨hex.removeChild (fun _ => ?_) hempty, hgone⟩
  rintro (hf | hd')
  · have hf' := (removeDescendants_below _ _).files p hf
    rw [dropDir_files, GoMap.has, h.disjoint p hd] at hf'
    cases hf'
  · rw [hgone] at hd'
    cases hd'

theorem Exact.putFile {p : Path} (h : Exact (insert p S) T idx) (info : FileInfo)
    (hclean : Clean p) (hb : idx.isBlocked p = false)
    (hsafe : idx.dirs.has p = true → PurgeSafe (insert p S) idx p) :
    Exact S T (idx.putFile p info) := by
  unfold FileIndex.putFile
  rw [if_neg (by rw [hb]; decide)]
  dsimp only
  generalize { info with revision := idx.fileRevision + 1 } = info'
  have hrev : Exact (insert p S) T { idx with fileRevision := idx.fileRevision + 1 } :=
    h.congr rfl rfl rfl
  have hsame : Below { idx with fileRevision := idx.fileRevision + 1 } idx :=
    ⟨fun _ hq => hq, fun _ hq => hq⟩
  by_cases hd : idx.dirs.has p = true
  · obtain ⟨hex, hgone⟩ := hrev.replaceDir hclean hd ((hsafe hd).mono hsame)
    rw [if_pos hd]
    split <;> exact hex.storeFile hclean hgone rfl rfl rfl
  · rw [if_neg hd]
    split <;> exact hrev.storeFile hclean (by simpa using hd) rfl rfl rfl

theorem Exact.storeDir {p : Path} (h : Exact (insert p S) T idx) (hclean : Clean p)
    (hf : idx.files.has p = false) :
    Exact S T (FileIndex.addChild { idx with
      dirs := idx.dirs.store p true
      dirsCount := idx.dirsCount + 1
      isDirty := true } p) := by
  have hdirs : ∀ r, (idx.dirs.store p true).has r = if r = p then true else idx.dirs.has r := by
    intro r
    unfold GoMap.has
    rw [GoMap.load_store]
    split_ifs <;> rfl
  have hself : FileIndex.Indexed { idx with
      dirs := idx.dirs.store p true
      dirsCount := idx.dirsCount + 1
      isDirty := true } p := by
    refine Or.inr ?_
    dsimp only
    rw [hdirs, if_pos rfl]
  have hgrow : Exact (insert p (insert p S)) T { idx with
      dirs := idx.dirs.store p true
      dirsCount := idx.dirsCount + 1
      isDirty := true } := by
    refine h.grow rfl (fun r hr hi => ?_) (fun r hi => ?_) hclean fun r hr => ?_
    · refine hi.imp id fun hd => ?_
      dsimp only at hd
      rw [hdirs, if_neg hr] at hd
      exact hd
    · by_cases hr : r = p
      · exact hr ▸ hself
      · refine hi.imp id fun hd => ?_
        dsimp only
        rw [hdirs, if_neg hr]
        exact hd
    · dsimp only at hr ⊢
      rw [hdirs] at hr
      split_ifs at hr with hrp
      · rw [hrp]
        exact (GoMap.has_eq_false _ _).mp hf
      · exact h.disjoint r hr
  rw [Set.insert_eq_of_mem (Set.mem_insert p S)] at hgrow
  exact hgrow.addChild hself

theorem Exact.putDir {p : Path} (h : Exact S T idx) (hclean : Clean p) :
    Exact S T (idx.putDir p) := by
  unfold FileIndex.putDir
  split_ifs with hf hd
  · exact h
  · exact h
  · exact (h.mono (Set.subset_insert p S) (Set.Subset.refl T)).storeDir hclean (by simpa using hf)

theorem Exact.removeDir {p : Path} (h : Exact S T idx) (hclean : Clean p)
    (hfile : idx.files.has p = true → p ∉ S → ¬ Tracked (splitPathParentBase p).1)
    (hsafe : PurgeSafe S idx p) : Exact S T (idx.removeDir p) := by
  obtain ⟨hex, hempty⟩ := h.removeDescendants hclean hsafe
  unfold FileIndex.removeDir
  dsimp only
  by_cases hd : (idx.removeDescendants p).dirs.has p = true
  · rw [if_pos hd]
    have hex' : Exact S (insert p T)
        { (idx.removeDescendants p).dropDir p with isDirty := true } :=
      (hex.dropDir p).congr rfl rfl rfl
    refine hex'.removeChild (fun _ => ?_) fun b ht hb hS hi => ?_
    · rintro (hf | hd')
      · have hf' : (idx.removeDescendants p).files.has p = true := hf
        rw [GoMap.has, hex.disjoint p hd] at hf'
        cases hf'
      · have hd'' : ((idx.removeDescendants p).dropDir p).dirs.has p = true := hd'
        rw [dropDir_has, if_pos rfl] at hd''
        cases hd''
    · exact hempty b ht hb hS ((dropDir_below _ p).indexed hi)
  · rw [if_neg hd]
    have hex' : Exact S (insert p T) (idx.removeDescendants p) :=
      hex.mono (Set.Subset.refl S) (Set.subset_insert p T)
    by_cases hf : (idx.removeDescendants p).files.has p = true ∧ p ∉ S
    · -- an indexed file keeps its place where its parent is not tracked
      have huntracked := hfile ((removeDescendants_below _ _).files p hf.1) hf.2
      refine ⟨hex.toLists.removeChild p, hex.clean, hex.disjoint, fun q b hq hb hS hi => ?_,
        fun q b hm hT => ?_⟩
      · rw [hex.toLists.mem_kids_removeChild p hq hb]
        refine ⟨?_, ?_, hex.complete q b hq hb hS hi⟩
        · rintro rfl
          exact hempty b hq hb hS hi
        · rintro rfl
          rw [split_child hb hq.2.2] at huntracked
          exact huntracked hq
      · have hl := (hex.toLists.removeChild p).plain q b hm
        rw [hex.toLists.mem_kids_removeChild p hl.1 hl.2] at hm
        exact hex.fresh q b hm.2.2 hT
    · refine hex'.removeChild (fun hS => ?_) hempty
      rintro (hf' | hd')
      · exact hf ⟨hf', hS⟩
      · exact hd hd'

end Operations

theorem pathsToInsert_cleanPaths (idx : FileIndex) (fuel : ℕ) (p : Path) :
    ∀ q ∈ idx.pathsToInsert fuel p, Clean q := by
  induction fuel generalizing p with
  | zero => exact fun q hq => absurd hq List.not_mem_nil
  | succ fuel ih =>
    intro q hq
    unfold pathsToInsert at hq
    dsimp only at hq
    split_ifs at hq
    · exact absurd hq List.not_mem_nil
    · exact absurd hq List.not_mem_nil
    · rcases List.mem_cons.mp hq with rfl | hq
      · exact clean_dir p
      · exact ih (dir p) q hq

/-- What a call needs to keep the lists exact, in the state before it: a file it removes has no
entry directly below its path, and a directory removed is no indexed file. -/
def ChildSafe (S : Set Path) (idx : FileIndex) : Op → Prop
  | .insertFile p _ => idx.dirs.has p = true → idx.isBlocked p = false → PurgeSafe S idx p
  | .removeDir p =>
    (idx.files.has p = true → p ∉ S → ¬ Tracked (splitPathParentBase p).1) ∧ PurgeSafe S idx p
  | .removeFile p | .blockFile p =>
    idx.files.has p = true → ∀ b, Tracked p → '/' ∉ b → p ++ '/' :: b ∉ S →
      ¬ idx.Indexed (p ++ '/' :: b)
  | _ => True

/-- Every step of the run is `ChildSafe` where it is taken. -/
def SafeRun (S : Set Path) (idx : FileIndex) : List Op → Prop
  | [] => True
  | op :: ops => ChildSafe S idx op ∧ SafeRun S (idx.step op) ops

theorem Exact.step {S T : Set Path} {idx : FileIndex} (h : Exact S T idx) {op : Op}
    (hclean : Clean op.path) (hsafe : ChildSafe S idx op) : Exact S T (idx.step op) := by
  cases op with
  | insertFile p info =>
    unfold FileIndex.step insertFile
    dsimp only
    split_ifs with hb
    · exact h
    · have hb' : idx.isBlocked p = false := by simpa using hb
      refine (h.mono (Set.subset_insert p S) (Set.Subset.refl T)).putFile info hclean hb' ?_
      exact fun hd f hf hff b hp hS => hsafe hd hb' f hf hff b hp fun hm =>
        hS (Set.mem_insert_of_mem p hm)
  | insertDir p => exact h.putDir hclean
  | removeFile p => exact h.dropFile p hsafe
  | removeDir p => exact h.removeDir hclean hsafe.1 hsafe.2
  | blockFile p =>
    unfold FileIndex.step FileIndex.blockFile
    dsimp only
    split_ifs
    · exact h
    · have hblock : Exact S T { idx with blocked := idx.blocked.store p true } :=
        h.congr rfl rfl rfl
      exact hblock.dropFile p hsafe
  | unblockFile p =>
    unfold FileIndex.step unblockFile
    dsimp only
    split_ifs <;> exact h.congr rfl rfl rfl
  | unblockTree p =>
    unfold FileIndex.step FileIndex.unblockTree
    dsimp only
    split_ifs <;> exact h.congr rfl rfl rfl
  | ensureParentDirs p =>
    exact List.foldlRecOn _ _ h fun i hi q hq =>
      hi.putDir (pathsToInsert_cleanPaths idx _ p q hq)

theorem Exact.run {S T : Set Path} (ops : List Op) : ∀ {idx : FileIndex}, Exact S T idx →
    (∀ op ∈ ops, Clean op.path) → SafeRun S idx ops → Exact S T (idx.run ops) := by
  induction ops with
  | nil => exact fun h _ _ => h
  | cons op ops ih =>
    exact fun h hclean hsafe => ih (h.step (hclean op (List.mem_cons_self ..)) hsafe.1)
      (fun o ho => hclean o (List.mem_cons_of_mem _ ho)) hsafe.2

theorem SafeRun.prefix {S : Set Path} {pre post : List Op} : ∀ {idx : FileIndex},
    SafeRun S idx (pre ++ post) → SafeRun S idx pre := by
  induction pre with
  | nil => exact fun _ => trivial
  | cons op pre ih => exact fun h => ⟨h.1, ih h.2⟩

theorem childSafe_univ (idx : FileIndex) (op : Op) : ChildSafe Set.univ idx op := by
  have hpurge (p : Path) : PurgeSafe Set.univ idx p :=
    fun _ _ _ _ _ hS => absurd (Set.mem_univ _) hS
  cases op with
  | insertFile p info => exact fun _ _ => hpurge p
  | removeDir p => exact ⟨fun _ hS => absurd (Set.mem_univ _) hS, hpurge p⟩
  | removeFile p => exact fun _ _ _ _ hS => absurd (Set.mem_univ _) hS
  | blockFile p => exact fun _ _ _ _ hS => absurd (Set.mem_univ _) hS
  | insertDir _ => trivial
  | unblockFile _ => trivial
  | unblockTree _ => trivial
  | ensureParentDirs _ => trivial

theorem run_tidy (ops : List Op) : ∀ {idx : FileIndex}, Exact Set.univ Set.univ idx →
    (∀ op ∈ ops, Clean op.path) → Exact Set.univ Set.univ (idx.run ops) := by
  induction ops with
  | nil => exact fun h _ => h
  | cons op ops ih =>
    exact fun h hclean => ih (h.step (hclean op (List.mem_cons_self ..)) (childSafe_univ _ op))
      fun o ho => hclean o (List.mem_cons_of_mem _ ho)

theorem Exact.count {idx : FileIndex} (h : Exact ∅ ∅ idx) {p b : Path} (hp : Tracked p)
    (hb : '/' ∉ b) : (idx.kids p).count b = if idx.Indexed (p ++ '/' :: b) then 1 else 0 := by
  by_cases hi : idx.Indexed (p ++ '/' :: b)
  · rw [if_pos hi]
    exact List.count_eq_one_of_mem (h.nodup p) (h.complete p b hp hb (Set.notMem_empty _) hi)
  · rw [if_neg hi]
    exact List.count_eq_zero_of_not_mem fun hm => hi (h.fresh p b hm (Set.notMem_empty _))

/-- A file of one object key below another is lost from the list when the other goes. -/
theorem run_children_lost :
    let ops : List Op := [.insertFile "a/b/c".toList {}, .insertFile "a/b".toList {},
      .removeFile "a/b".toList]
    (∀ op ∈ ops, Clean op.path) ∧ Tracked "a/b".toList ∧
      (newFileIndex.run ops).Indexed ("a/b".toList ++ '/' :: "c".toList) ∧
      ((newFileIndex.run ops).getChildren "a/b".toList).count "c".toList = 0 := by
  decide

/-- In every state of a safe run the lists are exact. -/
theorem run_children_exact (pre post : List Op) (hclean : ∀ op ∈ pre ++ post, Clean op.path)
    (hsafe : SafeRun ∅ newFileIndex (pre ++ post)) (p b : Path) (hp : Tracked p) (hb : '/' ∉ b)
    (hpb : Clean (p ++ '/' :: b)) :
    ((newFileIndex.run pre).getChildren p).count b =
      if (newFileIndex.run pre).Indexed (p ++ '/' :: b) then 1 else 0 := by
  have hex := (newFileIndex_exact ∅ ∅).run pre
    (fun op ho => hclean op (List.mem_append_left _ ho)) hsafe.prefix
  rw [getChildren_clean _ (hpb.parent hb hp.2.2).1]
  exact hex.count hp hb

theorem purgeSafe_of_keys {S : Set Path} {idx : FileIndex} (d : Path)
    (h : ∀ f ∈ idx.files.keys, ∀ q ∈ idx.files.keys ++ idx.dirs.keys, ¬ (f ++ ['/']) <+: q) :
    PurgeSafe S idx d := by
  intro f _ hf b _ _ hi
  refine h f ((GoMap.load_isSome _ _).mp hf) (f ++ '/' :: b) ?_ ⟨b, by simp⟩
  rw [List.mem_append]
  exact hi.imp (GoMap.load_isSome _ _).mp (GoMap.load_isSome _ _).mp

theorem run_children_exact_removeDir :
    let ops : List Op := [.insertDir "a/b".toList, .insertFile "a/b/c".toList {},
      .removeDir "a/b".toList]
    ((newFileIndex.run ops).getChildren "a/b".toList).count "c".toList =
      if (newFileIndex.run ops).Indexed ("a/b".toList ++ '/' :: "c".toList) then 1 else 0 := by
  have hdir : SafeRun ∅
      (newFileIndex.run [.insertDir "a/b".toList, .insertFile "a/b/c".toList {}])
      [.removeDir "a/b".toList] :=
    ⟨⟨fun h => absurd h (by decide), purgeSafe_of_keys _ (by decide)⟩, trivial⟩
  exact run_children_exact [.insertDir "a/b".toList, .insertFile "a/b/c".toList {},
    .removeDir "a/b".toList] [] (by decide) ⟨trivial, fun h => absurd h (by decide), hdir⟩
    "a/b".toList "c".toList (by decide) (by decide) (by decide)

end RenoP.Index.FileIndex
