import RenoP.Index.Builder

/-!
# The loops of a rebuild

The four loops of `applyScanMaps` are followed one by one.
-/

namespace RenoP.Index.FileIndex
open SlashPath

section Scan

variable {scanned : ScanMaps} {base : Path}

def Scanned (scanned : ScanMaps) (q : Path) : Prop :=
  scanned.files.has q = true ∨ scanned.dirs.has q = true

theorem scanned_parent (hw : scanned.WellFormed base) {p b : Path} (hb : '/' ∉ b)
    (hq : Scanned scanned (p ++ '/' :: b)) (hne : p ++ '/' :: b ≠ base) :
    scanned.dirs.has p = true := by
  obtain ⟨p', b', he, hn, hp⟩ := hw.parent _ hne hq
  rw [(child_inj hb hn.2.2.2 he).1]
  exact hp

theorem scanned_within (hw : scanned.WellFormed base) (n : ℕ) : ∀ q, q.length ≤ n →
    Scanned scanned q → Within base q := by
  induction n with
  | zero =>
    intro q hlen hq
    by_cases hne : q = base
    · exact Or.inl hne
    · obtain ⟨p, b, rfl, -, -⟩ := hw.parent q hne hq
      simp at hlen
  | succ n ih =>
    intro q hlen hq
    by_cases hne : q = base
    · exact Or.inl hne
    · obtain ⟨p, b, rfl, hb, hp⟩ := hw.parent q hne hq
      rw [List.length_append, List.length_cons] at hlen
      refine Or.inr ((under_child hb.2.2.2).mpr ?_)
      rcases ih p (by omega) (Or.inr hp) with rfl | hu
      · exact Or.inl rfl
      · exact Or.inr hu

theorem scanned_length (hw : scanned.WellFormed base) {q : Path} (hq : Scanned scanned q) :
    base.length ≤ q.length := by
  rcases scanned_within hw q.length q le_rfl hq with rfl | hu
  · exact le_rfl
  · exact hu.length.le

theorem tracked_within {q : Path} (ht : Tracked base) (h : Within base q) : Tracked q := by
  rcases h with rfl | hu
  · exact ht
  · obtain ⟨s, rfl⟩ := under_iff.mp hu
    exact tracked_child ht

theorem scanned_tracked (hw : scanned.WellFormed base) (ht : Tracked base) {q : Path}
    (hq : Scanned scanned q) : Tracked q :=
  tracked_within ht (scanned_within hw q.length q le_rfl hq)

theorem scanned_clean (hw : scanned.WellFormed base) (ht : Tracked base) (n : ℕ) :
    ∀ q, q.length ≤ n → Scanned scanned q → Clean q := by
  induction n with
  | zero =>
    intro q hlen hq
    by_cases hne : q = base
    · exact hne ▸ hw.clean
    · obtain ⟨p, b, rfl, -, -⟩ := hw.parent q hne hq
      simp at hlen
  | succ n ih =>
    intro q hlen hq
    by_cases hne : q = base
    · exact hne ▸ hw.clean
    · obtain ⟨p, b, rfl, hb, hp⟩ := hw.parent q hne hq
      rw [List.length_append, List.length_cons] at hlen
      have htp := scanned_tracked hw ht (Or.inr hp)
      exact (ih p (by omega) (Or.inr hp)).child htp.1 htp.2.1 hb.1 hb.2.1 hb.2.2.1 hb.2.2.2

theorem not_under_file (hw : scanned.WellFormed base) {f : Path}
    (hf : scanned.files.has f = true) (n : ℕ) : ∀ q, q.length ≤ n → Scanned scanned q →
    ¬ Under f q := by
  have hbase : ¬ Under f base := by
    intro hu
    have h1 := scanned_length hw (Or.inl hf)
    have h2 := hu.length
    omega
  induction n with
  | zero =>
    intro q hlen _ hu
    have := hu.length
    omega
  | succ n ih =>
    intro q hlen hq hu
    by_cases hne : q = base
    · exact hbase (hne ▸ hu)
    · obtain ⟨p, b, rfl, hb, hp⟩ := hw.parent q hne hq
      rw [List.length_append, List.length_cons] at hlen
      rcases (under_child hb.2.2.2).mp hu with rfl | hu
      · rw [GoMap.has, hw.disjoint f hp] at hf
        cases hf
      · exact ih p (by omega) (Or.inr hp) hu

end Scan

theorem foldl_removeFile (l : List Path) : ∀ {idx : FileIndex}, Tidy idx → l.Nodup →
    (∀ f ∈ l, idx.files.has f = true) →
    Tidy (l.foldl removeFile idx) ∧ (l.foldl removeFile idx).dirs = idx.dirs ∧
      (l.foldl removeFile idx).blocked = idx.blocked ∧
      (∀ q, (l.foldl removeFile idx).files.load q = if q ∈ l then none else idx.files.load q) ∧
      ∀ p b, Tracked p → '/' ∉ b → (b ∈ (l.foldl removeFile idx).kids p ↔
        b ∈ idx.kids p ∧ p ∉ l ∧ p ++ '/' :: b ∉ l) := by
  induction l with
  | nil => exact fun h _ _ => ⟨h, rfl, rfl, fun q => by simp, fun p b _ _ => by simp⟩
  | cons f l ih =>
    intro idx h hnodup hhas
    obtain ⟨hfl, hnl⟩ := List.nodup_cons.mp hnodup
    have hf := hhas f (List.mem_cons_self ..)
    have htidy : Tidy (idx.removeFile f) :=
      h.dropFile f fun _ _ _ _ hS => absurd (Set.mem_univ _) hS
    obtain ⟨h1, h2, h3, h4, h5⟩ := ih htidy hnl fun g hg => by
      have hne : g ≠ f := by
        rintro rfl
        exact hfl hg
      unfold removeFile
      rw [dropFile_has, if_neg hne]
      exact hhas g (List.mem_cons_of_mem _ hg)
    rw [List.foldl_cons]
    refine ⟨h1, ?_, ?_, fun q => ?_, fun p b hp hb => ?_⟩
    · rw [h2, removeFile, dropFile_dirs]
    · rw [h3, removeFile, dropFile_blocked]
    · rw [h4, removeFile, dropFile_load]
      by_cases hq : q ∈ l
      · rw [if_pos hq, if_pos (List.mem_cons_of_mem _ hq)]
      · rw [if_neg hq]
        by_cases hqf : q = f
        · rw [if_pos hqf, if_pos (hqf ▸ List.mem_cons_self ..)]
        · rw [if_neg hqf, if_neg]
          simp [hqf, hq]
    · rw [h5 p b hp hb]
      obtain ⟨old, hold⟩ := (GoMap.has_eq_true _ _).mp hf
      have hk : b ∈ (idx.removeFile f).kids p ↔ p ≠ f ∧ f ≠ p ++ '/' :: b ∧ b ∈ idx.kids p := by
        unfold removeFile
        rw [dropFile_present hold]
        exact h.toLists.mem_kids_removeChild f hp hb
      rw [hk]
      simp only [List.mem_cons, not_or]
      constructor
      · rintro ⟨⟨hpf, hfp, hkid⟩, hpl, hbl⟩
        exact ⟨hkid, ⟨hpf, hpl⟩, Ne.symm hfp, hbl⟩
      · rintro ⟨hkid, ⟨hpf, hpl⟩, hfp, hbl⟩
        exact ⟨⟨hpf, Ne.symm hfp, hkid⟩, hpl, hbl⟩

theorem removeGoneFiles_spec {idx : FileIndex} (h : Tidy idx) (scanned : ScanMaps) (o : Orders) :
    Tidy (idx.removeGoneFiles scanned o) ∧ (idx.removeGoneFiles scanned o).dirs = idx.dirs ∧
      (idx.removeGoneFiles scanned o).blocked = idx.blocked ∧
      (∀ q, (idx.removeGoneFiles scanned o).files.load q =
        if scanned.files.has q then idx.files.load q else none) ∧
      ∀ p b, Tracked p → '/' ∉ b → (b ∈ (idx.removeGoneFiles scanned o).kids p ↔ b ∈ idx.kids p ∧
        (scanned.files.has p = true ∨ idx.files.load p = none) ∧
        (scanned.files.has (p ++ '/' :: b) = true ∨ idx.files.load (p ++ '/' :: b) = none)) := by
  have hmem : ∀ q, q ∈ (o.files.keys idx.files).filter (fun f => !scanned.files.has f) ↔
      idx.files.has q = true ∧ scanned.files.has q = false := by
    intro q
    rw [List.mem_filter, o.files.mem_keys]
    simp
  have hnot : ∀ q, q ∉ (o.files.keys idx.files).filter (fun f => !scanned.files.has f) ↔
      scanned.files.has q = true ∨ idx.files.load q = none := by
    intro q
    rw [hmem, ← GoMap.has_eq_false]
    cases scanned.files.has q <;> cases idx.files.has q <;> simp
  obtain ⟨h1, h2, h3, h4, h5⟩ := foldl_removeFile _ h
    ((o.files.nodup idx.files).filter _) fun f hf => ((hmem f).mp hf).1
  refine ⟨h1, h2, h3, fun q => ?_, fun p b hp hb => ?_⟩
  · rw [removeGoneFiles, h4]
    by_cases hq : scanned.files.has q = true
    · rw [if_pos hq, if_neg ((hnot q).mpr (Or.inl hq))]
    · rw [if_neg hq]
      split_ifs with hl
      · rfl
      · exact ((hnot q).mp hl).resolve_left hq
  · rw [removeGoneFiles, h5 p b hp hb, hnot, hnot]

structure Filling (S : Set Path) (a : FileIndex) (scanned : ScanMaps) (l : List Path)
    (i : FileIndex) : Prop where
  blocked : i.blocked = a.blocked
  todo : ∀ f, f ∈ l ∨ ¬ Wanted a scanned f → i.files.load f = a.files.load f
  done : ∀ f, f ∉ l → Wanted a scanned f → ∃ info info', scanned.files.load f = some info ∧
    i.files.load f = some info' ∧ sameFileMetadata info' info = true
  dirs : ∀ d, i.dirs.has d = true → a.dirs.has d = true
  dirsKept : ∀ d, a.dirs.has d = true → scanned.files.load d = none →
    (∀ f, scanned.files.has f = true → ¬ Under f d) → i.dirs.has d = true
  kids : ∀ p b, b ∈ i.kids p → b ∈ a.kids p ∨
    Wanted a scanned (p ++ '/' :: b) ∧ ¬ Unchanged a scanned (p ++ '/' :: b)
  exact : Exact (S ∪ {f | f ∈ l ∧ Wanted a scanned f ∧ ¬ Unchanged a scanned f}) Set.univ i

section Fill

variable {S : Set Path} {a i : FileIndex} {scanned : ScanMaps} {base f : Path} {l : List Path}

theorem Filling.scannedFiles (h : Filling S a scanned l i)
    (ha : ∀ q, a.files.has q = true → scanned.files.has q = true) {q : Path}
    (hq : i.files.has q = true) : scanned.files.has q = true := by
  by_contra hn
  rw [GoMap.has, h.todo q (Or.inr fun hw => hn hw.1)] at hq
  exact hn (ha q hq)

theorem Filling.skip (h : Filling S a scanned (f :: l) i)
    (hdone : Wanted a scanned f → ∃ info info', scanned.files.load f = some info ∧
      i.files.load f = some info' ∧ sameFileMetadata info' info = true) :
    Filling S a scanned l i := by
  have hsame : Wanted a scanned f → Unchanged a scanned f := by
    intro hw
    obtain ⟨info, info', h1, h2, h3⟩ := hdone hw
    rw [h.todo f (Or.inl (List.mem_cons_self ..))] at h2
    exact ⟨info', info, h2, h1, h3⟩
  refine ⟨h.blocked, fun g hg => h.todo g (hg.imp (List.mem_cons_of_mem f) id), fun g hg hw => ?_,
    h.dirs, h.dirsKept, h.kids, h.exact.mono ?_ (Set.Subset.refl _)⟩
  · by_cases hgf : g = f
    · exact hgf ▸ hdone (hgf ▸ hw)
    · exact h.done g (by simp [hgf, hg]) hw
  · refine Set.union_subset_union_right S ?_
    rintro g ⟨hg, hw, hu⟩
    rcases List.mem_cons.mp hg with rfl | hg
    · exact absurd (hsame hw) hu
    · exact ⟨hg, hw, hu⟩

theorem Filling.insert (h : Filling S a scanned (f :: l) i) (hw : scanned.WellFormed base)
    (ht : Tracked base) (ha : ∀ q, a.files.has q = true → scanned.files.has q = true)
    (hS : ∀ q, q ∉ S → Scanned scanned q) (hfl : f ∉ l) (hwant : Wanted a scanned f)
    {info : FileInfo} (hinfo : scanned.files.load f = some info)
    (hnew : ¬ Unchanged a scanned f) : Filling S a scanned l (i.insertFile f info) := by
  have hb : i.isBlocked f = false := by
    unfold isBlocked
    rw [h.blocked]
    exact hwant.2
  have hins : i.insertFile f info = i.putFile f info := if_neg (by rw [hb]; decide)
  have hclean := scanned_clean hw ht f.length f le_rfl (Or.inl hwant.1)
  obtain ⟨mid, info', hpr, hdir, hsame, hfiles, hdirs, hblocked, hkids⟩ :=
    putFile_stored info hclean h.exact.tidy hb
  have hK : ∀ q ∈ Insert.insert f (i.listedIn f), q = f ∨ Under f q := by
    rintro q (rfl | ⟨c, -, rfl⟩)
    · exact Or.inl rfl
    · exact Or.inr (under_iff.mpr ⟨c, rfl⟩)
  have hkept {q : Path} (hne : q ≠ f) (hu : ¬ Under f q) := hpr.kept hK h.exact.disjoint hne hu
  have hunder {q : Path} (hq : Scanned scanned q) : ¬ Under f q :=
    not_under_file hw hwant.1 q.length q le_rfl hq
  rw [hins]
  refine ⟨hblocked.trans h.blocked, fun g hg => ?_, fun g hg hwg => ?_, fun d hd => ?_,
    fun d hd hnf hu => ?_, fun p b hm => ?_, ?_⟩
  · have hgf : g ≠ f := by
      rintro rfl
      exact hg.elim hfl fun hn => hn hwant
    have hload := h.todo g (hg.imp (List.mem_cons_of_mem f) id)
    rw [hfiles, if_neg hgf, ← hload]
    by_cases hsg : scanned.files.has g = true
    · exact (hkept hgf (hunder (Or.inl hsg))).1
    · have hnone : i.files.load g = none := by
        rw [← GoMap.has_eq_false]
        by_contra hn
        exact hsg (h.scannedFiles ha (by simpa using hn))
      rcases hpr.files g with h1 | h1
      · rw [h1, hnone]
      · exact h1
  · by_cases hgf : g = f
    · exact ⟨info, info', hgf ▸ hinfo, by rw [hfiles, if_pos hgf], hsame⟩
    · rw [hfiles, if_neg hgf, (hkept hgf (hunder (Or.inl hwg.1))).1]
      exact h.done g (by simp [hgf, hg]) hwg
  · rw [hdirs] at hd
    exact h.dirs d (hpr.dirs d hd)
  · have hdf : d ≠ f := by
      rintro rfl
      rw [hnf] at hinfo
      cases hinfo
    rw [hdirs, (hkept hdf (hu f hwant.1)).2]
    exact h.dirsKept d hd hnf hu
  · rcases hkids p b hm with h1 | rfl
    · exact h.kids p b (hpr.kids p h1)
    · exact Or.inr ⟨hwant, hnew⟩
  · have hsub : S ∪ {g | g ∈ f :: l ∧ Wanted a scanned g ∧ ¬ Unchanged a scanned g} ⊆
        Insert.insert f (S ∪ {g | g ∈ l ∧ Wanted a scanned g ∧ ¬ Unchanged a scanned g}) := by
      rintro g (hg | ⟨hg, hwg, hug⟩)
      · exact Or.inr (Or.inl hg)
      · rcases List.mem_cons.mp hg with rfl | hg
        · exact Or.inl rfl
        · exact Or.inr (Or.inr ⟨hg, hwg, hug⟩)
    refine (h.exact.mono hsub (Set.Subset.refl _)).putFile info hclean hb ?_
    intro _ g _ hg b _ hnS hi
    have hgb : Scanned scanned (g ++ '/' :: b) := hS _ fun hm => hnS (Or.inr (Or.inl hm))
    exact not_under_file hw (h.scannedFiles ha hg) _ _ le_rfl hgb (under_iff.mpr ⟨b, rfl⟩)

theorem Filling.step (h : Filling S a scanned (f :: l) i) (hw : scanned.WellFormed base)
    (ht : Tracked base) (ha : ∀ q, a.files.has q = true → scanned.files.has q = true)
    (hS : ∀ q, q ∉ S → Scanned scanned q) (hfl : f ∉ l) (hf : scanned.files.has f = true) :
    Filling S a scanned l (insertScannedFile scanned i f) := by
  obtain ⟨info, hinfo⟩ := (GoMap.has_eq_true _ _).mp hf
  have hblocked : i.isBlocked f = a.isBlocked f := by
    unfold isBlocked
    rw [h.blocked]
  have hload := h.todo f (Or.inl (List.mem_cons_self ..))
  unfold insertScannedFile
  rw [hinfo]
  dsimp only
  by_cases hb : a.isBlocked f = true
  · -- blocked: no lookup finds it and the insertion is refused
    have hget : i.getFileInfo f = none := by
      unfold getFileInfo
      rw [hblocked, if_pos hb]
    have hins : i.insertFile f info = i := by
      unfold insertFile
      rw [hblocked, if_pos hb]
    rw [hget, hins]
    refine h.skip fun hwant => ?_
    rw [hwant.2] at hb
    cases hb
  have hwant : Wanted a scanned f := ⟨hf, by simpa using hb⟩
  have hget : i.getFileInfo f = a.files.load f := by
    unfold getFileInfo
    rw [hblocked, if_neg hb, hload]
  rw [hget]
  cases hold : a.files.load f with
  | none =>
    refine h.insert hw ht ha hS hfl hwant hinfo ?_
    rintro ⟨old, -, ho, -⟩
    rw [hold] at ho
    cases ho
  | some old =>
    dsimp only
    by_cases hs : sameFileMetadata old info = true
    · rw [if_pos hs]
      exact h.skip fun _ => ⟨info, old, hinfo, hload.trans hold, hs⟩
    · rw [if_neg hs]
      refine h.insert hw ht ha hS hfl hwant hinfo ?_
      rintro ⟨old', info', ho, hi, hs'⟩
      rw [hold] at ho
      rw [hinfo] at hi
      obtain rfl := Option.some.inj ho
      obtain rfl := Option.some.inj hi
      exact hs hs'

theorem Filling.run (hw : scanned.WellFormed base) (ht : Tracked base)
    (ha : ∀ q, a.files.has q = true → scanned.files.has q = true)
    (hS : ∀ q, q ∉ S → Scanned scanned q) (l : List Path) : ∀ {i : FileIndex},
    Filling S a scanned l i → l.Nodup → (∀ f ∈ l, scanned.files.has f = true) →
    Filling S a scanned [] (l.foldl (insertScannedFile scanned) i) := by
  induction l with
  | nil => exact fun h _ _ => h
  | cons f l ih =>
    intro i h hn hl
    obtain ⟨hfl, hnl⟩ := List.nodup_cons.mp hn
    exact ih (h.step hw ht ha hS hfl (hl f (List.mem_cons_self ..))) hnl
      fun g hg => hl g (List.mem_cons_of_mem _ hg)

theorem insertScannedFiles_filled (hw : scanned.WellFormed base) (ht : Tracked base) (o : Orders)
    (ha : ∀ q, a.files.has q = true → scanned.files.has q = true)
    (hS : ∀ q, q ∉ S → Scanned scanned q)
    (hex : Exact (S ∪ {f | Wanted a scanned f ∧ ¬ Unchanged a scanned f}) Set.univ a) :
    Filling S a scanned [] (a.insertScannedFiles scanned o) := by
  refine Filling.run hw ht ha hS _ ?_ (o.scannedFiles.nodup _)
    fun f hf => (o.scannedFiles.mem_keys _ f).mp hf
  refine ⟨rfl, fun _ _ => rfl, fun f hf hwant => ?_, fun _ hd => hd, fun _ hd _ _ => hd,
    fun _ _ hm => Or.inl hm, hex.mono ?_ (Set.Subset.refl _)⟩
  · exact absurd ((o.scannedFiles.mem_keys _ f).mpr hwant.1) hf
  · refine Set.union_subset_union_right S ?_
    rintro f ⟨hwant, hu⟩
    exact ⟨(o.scannedFiles.mem_keys _ f).mpr hwant.1, hwant, hu⟩

end Fill

/-- The third loop, from `b` to `c`: the directories left are scanned, and what has gone was not
scanned or was listed in a directory that has gone. -/
structure Cleared (S : Set Path) (scanned : ScanMaps) (b c : FileIndex) : Prop where
  files : ∀ q, c.files.load q = none ∨ c.files.load q = b.files.load q
  dirs : ∀ q, c.dirs.has q = true → b.dirs.has q = true ∧ scanned.dirs.has q = true
  blocked : c.blocked = b.blocked
  kids : ∀ p, c.kids p ⊆ b.kids p
  dropped : ∀ q, b.dirs.has q = true → c.dirs.has q = true ∨ c.kids q = []
  reached : ∀ q, b.Indexed q → ¬ c.Indexed q →
    b.dirs.has q = true ∧ scanned.dirs.has q = false ∨
    ∃ p x, q = p ++ '/' :: x ∧ x ∈ b.kids p ∧ b.dirs.has p = true ∧ c.dirs.has p = false
  exact : Exact S Set.univ c

section Directories

variable {S : Set Path} {b c : FileIndex} {scanned : ScanMaps}

def GoneDirs (b : FileIndex) (l : List Path) : Set Path :=
  {q | q ∈ l ∨ ∃ k ∈ l, q ∈ b.listedIn k}

theorem foldl_removeDir (hdis : ∀ q, b.dirs.has q = true → b.files.load q = none)
    (hfiles : ∀ q, b.files.has q = true → scanned.files.has q = true)
    (hS : ∀ f x, scanned.files.has f = true → '/' ∉ x → f ++ '/' :: x ∈ S) {m : List Path}
    (l : List Path) : ∀ {i : FileIndex}, (∀ k ∈ l, k ∈ m ∧ b.dirs.has k = true ∧ Clean k) →
    Pruned (GoneDirs b m) b i → Exact S Set.univ i →
    Pruned (GoneDirs b m) b (l.foldl removeDir i) ∧ Exact S Set.univ (l.foldl removeDir i) ∧
      (∀ q, i.dirs.has q = false → (l.foldl removeDir i).dirs.has q = false) ∧
      ∀ k ∈ l, (l.foldl removeDir i).dirs.has k = false := by
  induction l with
  | nil => exact fun _ hp hex => ⟨hp, hex, fun _ h => h, fun k hk => absurd hk List.not_mem_nil⟩
  | cons k l ih =>
    intro i hl hp hex
    obtain ⟨hkm, hkd, hkc⟩ := hl k (List.mem_cons_self ..)
    obtain ⟨hpk, hgone⟩ := removeDir_pruned hkc hex.tidy
    have hstep : Pruned (GoneDirs b m) i (i.removeDir k) := by
      refine hpk.mono ?_
      rintro q (rfl | ⟨x, hx, rfl⟩)
      · exact Or.inl hkm
      · exact Or.inr ⟨k, hkm, x, hp.kids k hx, rfl⟩
    have hexk : Exact S Set.univ (i.removeDir k) := by
      refine hex.removeDir hkc (fun hf => ?_) fun f _ hf x hx hnS => ?_
      · have hf' := hp.below.files k hf
        rw [GoMap.has, hdis k hkd] at hf'
        cases hf'
      · exact absurd (hS f x (hfiles f (hp.below.files f hf)) hx) hnS
    obtain ⟨h1, h2, h3, h4⟩ :=
      ih (fun e he => hl e (List.mem_cons_of_mem _ he)) (hp.trans hstep) hexk
    refine ⟨h1, h2, fun q hq => h3 q (hpk.dirs_false hq), fun e he => ?_⟩
    rcases List.mem_cons.mp he with rfl | he
    · exact h3 e hgone
    · exact h4 e he

theorem removeGoneDirs_cleared (o : Orders) (hex : Exact S Set.univ b)
    (hfiles : ∀ q, b.files.has q = true → scanned.files.has q = true)
    (hS : ∀ f x, scanned.files.has f = true → '/' ∉ x → f ++ '/' :: x ∈ S) :
    Cleared S scanned b (b.removeGoneDirs scanned o) := by
  have hmem : ∀ k, k ∈ (o.dirs.keys b.dirs).filter (fun d => !scanned.dirs.has d) ↔
      b.dirs.has k = true ∧ scanned.dirs.has k = false := by
    intro k
    rw [List.mem_filter, o.dirs.mem_keys]
    simp
  obtain ⟨h1, h2, -, h4⟩ := foldl_removeDir hex.disjoint hfiles hS
    ((o.dirs.keys b.dirs).filter fun d => !scanned.dirs.has d)
    (fun k hk => ⟨hk, ((hmem k).mp hk).1, hex.clean k (Or.inr ((hmem k).mp hk).1)⟩)
    (Pruned.refl _ b) hex
  refine ⟨h1.files, fun q hq => ?_, h1.blocked, h1.kids, h1.dropped, fun q hq hn => ?_, h2⟩
  · refine ⟨h1.dirs q hq, ?_⟩
    by_contra hs
    have hgone := h4 q ((hmem q).mpr ⟨h1.dirs q hq, by simpa using hs⟩)
    unfold removeGoneDirs at hq
    rw [hgone] at hq
    cases hq
  · rcases h1.reached q hq hn with (hk | ⟨k, hk, x, hx, rfl⟩) | hr
    · exact Or.inl ((hmem q).mp hk)
    · exact Or.inr ⟨k, x, rfl, hx, ((hmem k).mp hk).1, h4 k hk⟩
    · exact Or.inr hr

theorem Cleared.keepsDir (h : Cleared S scanned b c) {p x : Path} (hx : '/' ∉ x)
    (hd : b.dirs.has (p ++ '/' :: x) = true) (hs : scanned.dirs.has (p ++ '/' :: x) = true)
    (hfile : b.files.load (p ++ '/' :: x) = none) (hk : x ∉ b.kids p) (hl : Lists b) :
    c.dirs.has (p ++ '/' :: x) = true := by
  by_contra hn
  have hnot : ¬ c.Indexed (p ++ '/' :: x) := by
    rintro (hf | hd')
    · rcases h.files (p ++ '/' :: x) with h1 | h1
      · rw [GoMap.has, h1] at hf
        cases hf
      · rw [GoMap.has, h1, hfile] at hf
        cases hf
    · exact hn hd'
  rcases h.reached _ (Or.inr hd) hnot with ⟨-, h1⟩ | ⟨p', x', he, hx', -⟩
  · rw [hs] at h1
    cases h1
  · obtain ⟨rfl, rfl⟩ := child_inj hx (hl.plain p' x' hx').2 he
    exact hk hx'

end Directories

section NewDirectories

variable {S : Set Path} {scanned : ScanMaps}

theorem foldl_insertDir (l : List Path) : ∀ {i : FileIndex}, Exact S Set.univ i →
    (∀ d ∈ l, Clean d ∧ i.files.load d = none) →
    let out := l.foldl (fun idx d => if !idx.hasDir d then idx.insertDir d else idx) i
    Exact S Set.univ out ∧ out.files = i.files ∧ out.blocked = i.blocked ∧
      (∀ q, out.dirs.has q = true ↔ i.dirs.has q = true ∨ q ∈ l) ∧
      ∀ p x, x ∈ out.kids p →
        x ∈ i.kids p ∨ p ++ '/' :: x ∈ l ∧ i.dirs.has (p ++ '/' :: x) = false := by
  induction l with
  | nil => exact fun h _ => ⟨h, rfl, rfl, fun q => by simp, fun p x hx => Or.inl hx⟩
  | cons d l ih =>
    intro i h hl
    obtain ⟨hdc, hdf⟩ := hl d (List.mem_cons_self ..)
    have hl' := fun e he => hl e (List.mem_cons_of_mem d he)
    rw [List.foldl_cons]
    by_cases hd : i.dirs.has d = true
    · have hskip : (if !i.hasDir d then i.insertDir d else i) = i := by
        rw [hasDir, hd]
        rfl
      obtain ⟨h1, h2, h3, h4, h5⟩ := ih h hl'
      rw [hskip]
      refine ⟨h1, h2, h3, fun q => ?_, fun p x hx => ?_⟩
      · rw [h4, List.mem_cons]
        constructor
        · exact fun hq => hq.imp id Or.inr
        · rintro (hq | rfl | hq)
          · exact Or.inl hq
          · exact Or.inl hd
          · exact Or.inr hq
      · exact (h5 p x hx).imp id fun hn => ⟨List.mem_cons_of_mem d hn.1, hn.2⟩
    · have hff : i.files.has d = false := (GoMap.has_eq_false _ _).mpr hdf
      have hput : (if !i.hasDir d then i.insertDir d else i) = addChild { i with
          dirs := i.dirs.store d true
          dirsCount := i.dirsCount + 1
          isDirty := true } d := by
        have hd' : i.dirs.has d = false := by simpa using hd
        rw [hasDir, hd', if_pos (show (!false) = true from rfl), insertDir, putDir, if_neg (by rw [hff]; decide), if_neg hd]
      have hstore : ∀ q, (i.dirs.store d true).has q = true ↔ i.dirs.has q = true ∨ q = d := by
        intro q
        rw [GoMap.has, GoMap.load_store]
        by_cases hq : q = d
        · simp [hq]
        · simp [hq, GoMap.has]
      have hex := (h.mono (Set.subset_insert d S) (Set.Subset.refl _)).storeDir hdc hff
      rw [hput]
      obtain ⟨h1, h2, h3, h4, h5⟩ := ih hex fun e he => by
        refine ⟨(hl' e he).1, ?_⟩
        rw [addChild_files]
        exact (hl' e he).2
      refine ⟨h1, ?_, ?_, fun q => ?_, fun p x hx => ?_⟩
      · rw [h2, addChild_files]
      · rw [h3, addChild_blocked]
      · rw [h4, addChild_dirs, hstore, List.mem_cons, or_assoc]
      · rcases h5 p x hx with hk | ⟨hm, hnd⟩
        · rcases kids_addChild_imp _ d hk with hk | hk
          · exact Or.inl hk
          · refine Or.inr ⟨hk ▸ List.mem_cons_self .., ?_⟩
            rw [← hk]
            simpa using hd
        · refine Or.inr ⟨List.mem_cons_of_mem d hm, ?_⟩
          by_contra hq
          rw [addChild_dirs] at hnd
          rw [(hstore _).mpr (Or.inl (by simpa using hq))] at hnd
          cases hnd

theorem insertScannedDirs_spec {i : FileIndex} (o : Orders) (h : Exact S Set.univ i)
    (hclean : ∀ d, scanned.dirs.has d = true → Clean d)
    (hfile : ∀ d, scanned.dirs.has d = true → i.files.load d = none) :
    let out := i.insertScannedDirs scanned o
    Exact S Set.univ out ∧ out.files = i.files ∧ out.blocked = i.blocked ∧
      (∀ q, out.dirs.has q = true ↔ i.dirs.has q = true ∨ scanned.dirs.has q = true) ∧
      ∀ p x, x ∈ out.kids p → x ∈ i.kids p ∨
        scanned.dirs.has (p ++ '/' :: x) = true ∧ i.dirs.has (p ++ '/' :: x) = false := by
  have hmem := o.scannedDirs.mem_keys scanned.dirs
  obtain ⟨h1, h2, h3, h4, h5⟩ := foldl_insertDir (o.scannedDirs.keys scanned.dirs) h
    fun d hd => ⟨hclean d ((hmem d).mp hd), hfile d ((hmem d).mp hd)⟩
  refine ⟨h1, h2, h3, fun q => ?_, fun p x hx => ?_⟩
  · rw [insertScannedDirs, h4, hmem]
  · exact (h5 p x hx).imp id fun hn => ⟨(hmem _).mp hn.1, hn.2⟩

end NewDirectories

end RenoP.Index.FileIndex
